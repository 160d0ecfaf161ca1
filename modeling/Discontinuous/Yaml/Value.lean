import Discontinuous.Text.Base64
import Discontinuous.Yaml.Moment
import Discontinuous.Yaml.Node
import Discontinuous.Yaml.Number

/-!
Values of scalars. Unquoted text without a tag may be a number, a truth value or null; a tag tells
what text has to be.
-/
namespace Discontinuous.Yaml

inductive Value where
  | null
  | bool (b : Bool)
  | int (n : Int)
  | float (x : Float)
  | text (t : Text)

namespace Value

def nulls : List String := ["", "~", "null", "Null", "NULL"]

def trues : List String := ["true", "True", "TRUE"]

def falses : List String := ["false", "False", "FALSE"]

def infinities : List String := [".inf", ".Inf", ".INF"]

def nans : List String := [".nan", ".NaN", ".NAN"]

def ofChars (cs : List Char) : Value := .text (cs.map .char)

/-- A number, if text is one. Underscores may divide digits, and stand anywhere in a number that
starts with a digit or a sign. -/
def number? (cs : List Char) : Option Value :=
  match cs with
  | [] => none
  | c :: _ =>
    if c == '.' then
      if Number.separates false cs then (Number.float? (Number.dropUnderscores cs)).map .float
      else none
    else if c == '+' || c == '-' || c.isDigit then
      let cs := Number.dropUnderscores cs
      ((Number.int? cs).map .int) <|> ((Number.float? cs).map .float)
    else none

def ofPlain (cs : List Char) : Value :=
  let s := String.ofList cs
  let unsigned := match cs with
    | '-' :: rest | '+' :: rest => String.ofList rest
    | _ => s
  if nulls.contains s then .null
  else if trues.contains s then .bool true
  else if falses.contains s then .bool false
  else if nans.contains s then .float (0.0 / 0.0)
  else if infinities.contains unsigned then
    .float (if cs.head? == some '-' then -(1.0 / 0.0) else 1.0 / 0.0)
  else (number? cs).getD (ofChars cs)

end Value

/-- The value of a scalar, unless its text is not what its tag says. -/
def Scalar.value? (s : Scalar) : Option Value :=
  match s.tag, Value.ofPlain s.text with
  | .implicit, v => some v
  | .text, _ | .merge, _ | .foreign, _ => some (.ofChars s.text)
  | .binary, _ => (Text.Base64.decode? s.text).map .text
  | .moment, _ => if Moment.isMoment s.text then some (.ofChars s.text) else none
  | .null, .null => some .null
  | .bool, .bool b => some (.bool b)
  | .int, .int n => some (.int n)
  | .float, .float x => some (.float x)
  | .float, .int n => if n < (Word.bound : Int) then some (.float (Number.toFloat n)) else none
  | _, _ => none

end Discontinuous.Yaml
