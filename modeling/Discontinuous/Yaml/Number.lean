import Discontinuous.Decimal.Literal
import Discontinuous.Decimal.Magnitude
import Discontinuous.Word

/-!
Numbers in documents: integers in several bases, and floats.
-/
namespace Discontinuous.Yaml.Number

/-- The value of a digit below the base. -/
def digit? (base : Nat) (c : Char) : Option Nat :=
  let value :=
    if '0' ≤ c ∧ c ≤ '9' then c.toNat - 0x30
    else if 'a' ≤ c ∧ c ≤ 'z' then c.toNat - 0x57
    else if 'A' ≤ c ∧ c ≤ 'Z' then c.toNat - 0x37
    else base
  if value < base then some value else none

/-- A number in a base, of at least one digit. -/
def natural? (base : Nat) (cs : List Char) : Option Nat :=
  if cs.isEmpty then none
  else cs.foldl (fun value c => do
    let value ← value
    let d ← digit? base c
    some (base * value + d)) (some 0)

/-- A number without sign. The letter after a leading zero tells the base; a leading zero alone
means base eight. -/
def unsigned? (cs : List Char) : Option Nat :=
  match cs with
  | '0' :: 'x' :: rest | '0' :: 'X' :: rest => natural? 16 rest
  | '0' :: 'o' :: rest | '0' :: 'O' :: rest => natural? 8 rest
  | '0' :: 'b' :: rest | '0' :: 'B' :: rest => natural? 2 rest
  | '0' :: c :: rest => natural? 8 (c :: rest)
  | cs => natural? 10 cs

/-- A number that fits into a signed word, behind its sign. -/
def signed? (magnitude? : List Char → Option Nat) (cs : List Char) : Option Int :=
  match cs with
  | '-' :: rest => (magnitude? rest).bind fun n => if n ≤ Word.bound then some (-(n : Int)) else none
  | '+' :: rest => (magnitude? rest).bind fun n => if n < Word.bound then some (n : Int) else none
  | _ => none

/-- An integer that fits into a word: with a sign, or without one up to the largest unsigned word.
In two bases the sign may also stand behind the letter of the base. -/
def int? (cs : List Char) : Option Int :=
  match cs with
  | '-' :: _ | '+' :: _ => signed? unsigned? cs
  | _ =>
    match unsigned? cs, cs with
    | some n, _ => if n < 2 * Word.bound then some (n : Int) else none
    | none, '0' :: 'b' :: rest => signed? (natural? 2) rest
    | none, '0' :: 'o' :: rest => signed? (natural? 8) rest
    | none, _ => none

/-- Digits with an optional sign, fraction and exponent. -/
def float? (cs : List Char) : Option Float :=
  let (negative, body) := match cs with
    | '-' :: rest => (true, rest)
    | '+' :: rest => (false, rest)
    | cs => (false, cs)
  let whole := body.takeWhile Char.isDigit
  let rest := body.dropWhile Char.isDigit
  let (point, fraction, rest) := match rest with
    | '.' :: rest => (true, rest.takeWhile Char.isDigit, rest.dropWhile Char.isDigit)
    | rest => (false, [], rest)
  let exponent := match rest with
    | [] => true
    | e :: rest =>
      let digits := match rest with
        | '+' :: ds | '-' :: ds => ds
        | ds => ds
      (e == 'e' || e == 'E') && !digits.isEmpty && digits.all Char.isDigit
  if exponent && !(whole.isEmpty && (!point || fraction.isEmpty)) then
    let literal := Decimal.Literal.read body
    let value := Decimal.nearest literal.digits literal.power
    if value.isInf then none else some (if negative then -value else value)
  else none

/-- Whether every underscore stands between digits, given what is before. -/
def separates (afterDigit : Bool) : List Char → Bool
  | [] => true
  | '_' :: rest => afterDigit && rest.head?.any Char.isDigit && separates false rest
  | c :: rest => separates c.isDigit rest

def dropUnderscores (cs : List Char) : List Char := cs.filter (· != '_')

def toFloat (n : Int) : Float :=
  let size := Decimal.nearest n.natAbs 0
  if n < 0 then -size else size

end Discontinuous.Yaml.Number
