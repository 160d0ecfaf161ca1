import Discontinuous.Text.Glyph

/-!
White space and letter case, as far as names and lines are trimmed and compared.
-/
namespace Discontinuous.Text

def isBlank (c : Char) : Bool :=
  let n := c.toNat
  (0x09 ≤ n && n ≤ 0x0D) || n == 0x20 || n == 0x85 || n == 0xA0 || n == 0x1680 ||
    (0x2000 ≤ n && n ≤ 0x200A) || n == 0x2028 || n == 0x2029 || n == 0x202F || n == 0x205F ||
    n == 0x3000

def isBlankGlyph : Glyph → Bool
  | .char c => isBlank c
  | .stray _ => false

def trim (t : Text) : Text :=
  ((t.dropWhile isBlankGlyph).reverse.dropWhile isBlankGlyph).reverse

/-- The lower case of a letter, for those letters whose lower case is an ASCII letter. -/
def lower (c : Char) : Char :=
  if c = 'İ' then 'i' else if c = '\u212A' then 'k' else c.toLower

end Discontinuous.Text
