import Discontinuous.Keyed

/-!
Text as it is found in a file: characters in UTF-8, and between them bytes that encode none.
-/
namespace Discontinuous

/-- A character, or a byte that belongs to no character. -/
inductive Glyph where
  | char (c : Char)
  | stray (b : UInt8)
deriving DecidableEq

abbrev Text := List Glyph

namespace Glyph

def code : Glyph → Int
  | char c => (c.toNat : Int)
  | stray b => -1 - (b.toNat : Int)

theorem code_injective (a b : Glyph) (h : a.code = b.code) : a = b := by
  cases a with
  | char c =>
    cases b with
    | char d => exact congrArg char (Char.toNat_inj.mp (by simp only [code] at h; omega))
    | stray b => simp only [code] at h; omega
  | stray c =>
    cases b with
    | char d => simp only [code] at h; omega
    | stray d => exact congrArg stray (UInt8.toNat_inj.mp (by simp only [code] at h; omega))

def bytes : Glyph → List UInt8
  | char c => String.utf8EncodeChar c
  | stray b => [b]

end Glyph

namespace Text

instance : Keyed Text where
  code t := t.map Glyph.code
  code_injective _ _ h := (List.map_inj_right Glyph.code_injective).mp h

def ofString (s : String) : Text := s.toList.map .char

def toString (t : Text) : String :=
  String.ofList (t.map fun
    | .char c => c
    | .stray _ => '\uFFFD')

def bytes (t : Text) : List UInt8 := t.flatMap Glyph.bytes

/-- A byte between the bounds, and its value above the lower one. -/
def within (lo hi b : UInt8) : Option Nat :=
  if lo ≤ b ∧ b ≤ hi then some (b.toNat - lo.toNat) else none

/-- A byte that continues a character, and its six bits. -/
def continuation (b : UInt8) : Option Nat := within 0x80 0xBF b

/-- The range of the byte after the leading byte of a character of three or four bytes. It
excludes longer encodings than needed, surrogates and all beyond the last code point. -/
def secondRange (lead : UInt8) : UInt8 × UInt8 :=
  if lead = 0xE0 then (0xA0, 0xBF)
  else if lead = 0xED then (0x80, 0x9F)
  else if lead = 0xF0 then (0x90, 0xBF)
  else if lead = 0xF4 then (0x80, 0x8F)
  else (0x80, 0xBF)

def second (lead b : UInt8) : Option Nat :=
  let (lo, hi) := secondRange lead
  (within lo hi b).map (· + (lo.toNat - 0x80))

/-- The character at the front of `lead :: rest`, if there is one, and how many bytes of `rest`
belong to it. -/
def charAt (lead : UInt8) (rest : List UInt8) : Option (Char × Nat) :=
  if lead < 0x80 then some (Char.ofNat lead.toNat, 0)
  else match within 0xC2 0xDF lead, rest with
  | some hi, b1 :: _ => do
    let lo ← continuation b1
    some (Char.ofNat ((hi + 2) * 64 + lo), 1)
  | _, b1 :: b2 :: more =>
    match within 0xE0 0xEF lead, within 0xF0 0xF4 lead, more with
    | some hi, _, _ => do
      let mid ← second lead b1
      let lo ← continuation b2
      some (Char.ofNat (hi * 4096 + mid * 64 + lo), 2)
    | none, some hi, b3 :: _ => do
      let up ← second lead b1
      let mid ← continuation b2
      let lo ← continuation b3
      some (Char.ofNat (hi * 262144 + up * 4096 + mid * 64 + lo), 3)
    | _, _, _ => none
  | _, _ => none

/-- Reads bytes. A byte that starts no character is stray. -/
def ofBytes : List UInt8 → Text
  | [] => []
  | lead :: rest =>
    match charAt lead rest with
    | some (c, n) => .char c :: ofBytes (rest.drop n)
    | none => .stray lead :: ofBytes rest
termination_by bytes => bytes.length
decreasing_by all_goals simp only [List.length_drop, List.length_cons]; omega

end Text

end Discontinuous
