import Discontinuous.Decimal.Magnitude

/-!
Number literals: digits with an optional fraction and exponent, without a sign.
-/
namespace Discontinuous.Decimal

/-- The value `digits * 10 ^ power`. -/
structure Literal where
  digits : Nat
  power : Int

def appendDigits (value : Nat) (digits : List Char) : Nat :=
  digits.foldl (fun value c => 10 * value + (c.toNat - 0x30)) value

/-- From here on an exponent is large enough, and its further digits do not count. -/
def exponentCap : Nat := 10000

def exponentSize (digits : List Char) : Nat :=
  digits.foldl (fun size c => if size < exponentCap then appendDigits size [c] else size) 0

def exponent : List Char → Int
  | [] => 0
  | _ :: '-' :: digits => -(exponentSize digits : Int)
  | _ :: '+' :: digits => exponentSize digits
  | _ :: digits => exponentSize digits

def Literal.read (text : List Char) : Literal :=
  let whole := text.takeWhile Char.isDigit
  let rest := text.dropWhile Char.isDigit
  let (fraction, rest) := match rest with
    | '.' :: rest => (rest.takeWhile Char.isDigit, rest.dropWhile Char.isDigit)
    | rest => ([], rest)
  ⟨appendDigits (appendDigits 0 whole) fraction, exponent rest - fraction.length⟩

end Discontinuous.Decimal
