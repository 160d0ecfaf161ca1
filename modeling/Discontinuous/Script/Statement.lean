import Discontinuous.Decimal.Literal
import Discontinuous.Grammar.Basic
import Discontinuous.Script.Binding
import Discontinuous.Script.Line

/-!
Statements of grammar scripts: what a line says once its words and costs are read, and why a line
says nothing that can be carried out.
-/
namespace Discontinuous

class CostLiteral (α : Type) where
  /-- The cost nearest to a literal, unless it is out of range. -/
  ofLiteral? : Decimal.Literal → Option α

instance : CostLiteral Float where
  ofLiteral? x :=
    let value := Decimal.nearest x.digits x.power
    if value.isInf then none else some value

namespace Script

/-- A walk over lexemes that make up no line. Nothing that is recognized leads there. -/
inductive Astray where
  /-- A place beyond the last lexeme was looked up. -/
  | outOfRange (place size : Nat)
  /-- Arguments that no parenthesis closes are walked over forever. -/
  | endless
  | children (n : Nat)

def Astray.message : Astray → String
  | outOfRange place size =>
    "index out of range [" ++ toString place ++ "] with length " ++ toString size
  | endless => "arguments without an end"
  | children n => "clause with " ++ toString n ++ " children"

inductive LineError where
  | unreadable (e : Unreadable)
  | malformed (last : Lexeme)
  | incomplete
  | unknownDirective (name : String)
  | badWord
  | badCost (literal : Text)
  | astray (e : Astray)
  | binding (e : BindingError)
  | grammar (e : GrammarError)

def LineError.message : LineError → String
  | unreadable e => e.message ++ ": syntax error"
  | malformed last =>
    "malformed statement, last token " ++ Text.quoted last.text ++ " at column " ++
      toString last.column ++ ": syntax error"
  | incomplete => "incomplete statement: syntax error"
  | unknownDirective name => "unknown directive %" ++ name ++ ": syntax error"
  | badWord => "malformed word: invalid syntax: syntax error"
  | badCost literal =>
    "malformed cost: strconv.ParseFloat: parsing " ++ Text.quoted literal ++
      ": value out of range: syntax error"
  | astray e => e.message
  | binding e => e.message
  | grammar e => e.message

inductive Statement (α : Type) where
  | start (name : String)
  | entry (label : String) (word : Text) (cost : α)
  | clause (lhs left : Predicate) (right : Option Predicate) (cost : α)

/-- The clause of a left hand side and its children. -/
def Statement.ofChildren {α : Type} (lhs : Predicate) (children : List Predicate) (cost : α) :
    Except LineError (Statement α) :=
  match children with
  | [left] => .ok (.clause lhs left none cost)
  | [left, right] => .ok (.clause lhs left (some right) cost)
  | _ => .error (.astray (.children children.length))

/-- A cost that is not written is zero. -/
def readCost {α : Type} [Cost α] [CostLiteral α] : Option Text → Except LineError α
  | none => .ok Cost.zero
  | some literal =>
    match CostLiteral.ofLiteral? (.read literal.toString.toList) with
    | some cost => .ok cost
    | none => .error (.badCost literal)

end Script

end Discontinuous
