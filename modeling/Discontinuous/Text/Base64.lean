import Discontinuous.Text.Glyph

/-!
Bytes written as letters, three bytes by four letters of six bits each.
-/
namespace Discontinuous.Text.Base64

def value? (c : Char) : Option Nat :=
  if 'A' ≤ c ∧ c ≤ 'Z' then some (c.toNat - 0x41)
  else if 'a' ≤ c ∧ c ≤ 'z' then some (c.toNat - 0x47)
  else if '0' ≤ c ∧ c ≤ '9' then some (c.toNat + 4)
  else if c = '+' then some 62
  else if c = '/' then some 63
  else none

/-- The first `count` of the three bytes that four letters hold. -/
def bytesOf (count : Nat) (bits : List Nat) : List UInt8 :=
  let n := bits.foldl (fun n b => 64 * n + b) 0
  [(n >>> 16).toUInt8, (n >>> 8).toUInt8, n.toUInt8].take count

/-- Reads letters by four. The last four may end in one or two equality signs, which stand for
missing bytes. -/
def letters? : List Char → Option (List UInt8)
  | [] => some []
  | [a, b, '=', '='] => do
    let a ← value? a
    let b ← value? b
    some (bytesOf 1 [a, b, 0, 0])
  | [a, b, c, '='] => do
    let a ← value? a
    let b ← value? b
    let c ← value? c
    some (bytesOf 2 [a, b, c, 0])
  | a :: b :: c :: d :: rest => do
    let a ← value? a
    let b ← value? b
    let c ← value? c
    let d ← value? d
    let bytes ← letters? rest
    some (bytesOf 3 [a, b, c, d] ++ bytes)
  | _ => none

/-- The text that letters stand for. Line ends do not count. -/
def decode? (cs : List Char) : Option Text :=
  (letters? (cs.filter fun c => c != '\n' && c != '\r')).map ofBytes

end Discontinuous.Text.Base64
