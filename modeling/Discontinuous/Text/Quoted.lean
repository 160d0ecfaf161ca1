import Discontinuous.Text.Glyph
import Discontinuous.Text.Printable

/-!
Quoted text, as it stands in messages and in scripts: printable characters for themselves, all
others and stray bytes behind a backslash.
-/
namespace Discontinuous.Text

def hexChar (n : Nat) : Char := Char.ofNat (if n < 10 then 0x30 + n else 0x57 + n)

/-- The lowest `places` digits of `n` in base sixteen. -/
def hex (n : Nat) : Nat → List Char
  | 0 => []
  | places + 1 => hex (n / 16) places ++ [hexChar (n % 16)]

def doubleQuote : Char := Char.ofNat 0x22

def backslash : Char := Char.ofNat 0x5C

def letterEscapes : List (Nat × Char) :=
  [(7, 'a'), (8, 'b'), (12, 'f'), (10, 'n'), (13, 'r'), (9, 't'), (11, 'v')]

def quoteChar (c : Char) : List Char :=
  if c = doubleQuote ∨ c = backslash then [backslash, c]
  else if isPrintable c then [c]
  else match letterEscapes.find? fun (n, _) => n == c.toNat with
  | some (_, letter) => [backslash, letter]
  | none =>
    if c.toNat < 0x20 ∨ c.toNat = 0x7F then backslash :: 'x' :: hex c.toNat 2
    else if c.toNat < 0x10000 then backslash :: 'u' :: hex c.toNat 4
    else backslash :: 'U' :: hex c.toNat 8

def quoteGlyph : Glyph → List Char
  | .char c => quoteChar c
  | .stray b => backslash :: 'x' :: hex b.toNat 2

def quoted (t : Text) : String :=
  String.ofList (doubleQuote :: t.flatMap quoteGlyph ++ [doubleQuote])

def quotedString (s : String) : String := quoted (ofString s)

/-! Reading quoted text. -/

def hexValue? (c : Char) : Option Nat :=
  if '0' ≤ c ∧ c ≤ '9' then some (c.toNat - 0x30)
  else if 'a' ≤ c ∧ c ≤ 'f' then some (c.toNat - 0x57)
  else if 'A' ≤ c ∧ c ≤ 'F' then some (c.toNat - 0x37)
  else none

def digitValue? (base : Nat) : Glyph → Option Nat
  | .char c => (hexValue? c).filter (· < base)
  | .stray _ => none

/-- The value of the first `count` glyphs, which have to be digits, below `value`. -/
def digits? (base value : Nat) : Nat → Text → Option Nat
  | 0, _ => some value
  | count + 1, g :: rest =>
    match digitValue? base g with
    | some d => digits? base (base * value + d) count rest
    | none => none
  | _ + 1, [] => none

/-- The bytes of the character with this number, unless it is a surrogate or beyond the last. -/
def charBytes? (n : Nat) : Option (List UInt8) :=
  if n < 0xD800 ∨ 0xE000 ≤ n ∧ n < 0x110000 then some (String.utf8EncodeChar (Char.ofNat n))
  else none

def byte? (n : Nat) : Option (List UInt8) := if n < 256 then some [n.toUInt8] else none

/-- The bytes that an escape stands for, given what follows the backslash, and the number of
glyphs that belong to it. -/
def escape? : Text → Option (List UInt8 × Nat)
  | .char c :: rest =>
    if c = doubleQuote ∨ c = backslash then some ([c.toNat.toUInt8], 1)
    else if c = 'x' then ((digits? 16 0 2 rest).bind byte?).map (·, 3)
    else if c = 'u' then ((digits? 16 0 4 rest).bind charBytes?).map (·, 5)
    else if c = 'U' then ((digits? 16 0 8 rest).bind charBytes?).map (·, 9)
    else if '0' ≤ c ∧ c ≤ '7' then
      ((digits? 8 (c.toNat - 0x30) 2 rest).bind byte?).map (·, 3)
    else (letterEscapes.find? fun (_, letter) => letter == c).map fun (n, _) => ([n.toUInt8], 1)
  | _ => none

/-- The bytes of the text up to the closing quote, which has to be the end. A stray byte is
replaced, and a line does not end inside. -/
def unquoteBody : Text → Option (List UInt8)
  | [] => none
  | .stray _ :: rest => (unquoteBody rest).map (String.utf8EncodeChar '\uFFFD' ++ ·)
  | .char c :: rest =>
    if c = doubleQuote then if rest.isEmpty then some [] else none
    else if c = '\n' then none
    else if c = backslash then
      match escape? rest with
      | some (bytes, n) => (unquoteBody (rest.drop n)).map (bytes ++ ·)
      | none => none
    else (unquoteBody rest).map (String.utf8EncodeChar c ++ ·)
termination_by t => t.length
decreasing_by all_goals simp only [List.length_drop, List.length_cons]; omega

def unquote? : Text → Option Text
  | .char c :: rest => if c = doubleQuote then (unquoteBody rest).map ofBytes else none
  | _ => none

end Discontinuous.Text
