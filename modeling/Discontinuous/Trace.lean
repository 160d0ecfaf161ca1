import Discontinuous.Agenda
import Discontinuous.Grammar.Summary
import Discontinuous.Item

/-!
Events: what the library tells about its work. They are values that the operations return; what
becomes of them is up to the caller.
-/
namespace Discontinuous

structure Figures where
  effort : Effort
  chartSize : Nat
  pops : Nat

def Figures.render (f : Figures) : String :=
  f.effort.render ++ "; chart: " ++ toString f.chartSize ++ " items; pops " ++ toString f.pops

/-- How much a listener wants to hear; more at each level. -/
inductive Level where
  | error
  | info
  | debug
deriving DecidableEq

def Level.rank : Level → Nat
  | error => 1
  | info => 2
  | debug => 3

def Level.mark : Level → String
  | error => "E "
  | info => "I "
  | debug => "D "

inductive Event (α : Type) where
  | clauseAdded (c : NamedClause α)
  | clauseRefused (lhs left right : String) (e : ShapeError)
  | scriptRead (clauses entries : Nat) (summary : Summary)
  | insideEstimated (kind : String) (entries : Nat) (maxlen : Int) (effort : Effort)
  | outsideEstimated (labels : Nat) (maxlen : Int) (effort : Effort)
  | setUp (clauses : Nat) (summary : Summary)
  | pushed (outcome : PushOutcome) (name : String) (it : Item α)
  | popped (pops : Nat) (name : String) (it : Item α)
  | spanRefused (s : Span) (c : NamedClause α)
  | provenTwice (it : Item α)
  | found (cost : α) (figures : Figures)
  | exhausted (length : Int) (figures : Figures)
  | notReturned (reason : String)

namespace Event

variable {α : Type}

def level : Event α → Level
  | clauseRefused .. | spanRefused .. | provenTwice .. | notReturned .. => .error
  | clauseAdded .. | pushed .. | popped .. => .debug
  | scriptRead .. | insideEstimated .. | outsideEstimated .. | setUp .. | found ..
  | exhausted .. => .info

def renderItem [CostText α] (name : String) (it : Item α) : String :=
  name ++ " " ++ it.span.render ++ " in=" ++ CostText.brief it.inside ++
    " tot=" ++ CostText.brief it.total

def text [CostText α] : Event α → String
  | clauseAdded c => "join=" ++ c.join.name ++ " added clause " ++ c.render
  | clauseRefused lhs left right e =>
    "cannot classify clause " ++ lhs ++ " → " ++ left ++ " " ++ right ++ ": " ++ e.message
  | scriptRead clauses entries summary =>
    "read " ++ toString clauses ++ " clauses, " ++ toString entries ++ " lexical entries; " ++
      summary.render
  | insideEstimated kind entries maxlen effort =>
    kind ++ " inside estimates: " ++ toString entries ++ " entries, maxlen=" ++ toString maxlen ++
      "; " ++ effort.render
  | outsideEstimated labels maxlen effort =>
    "outside estimates for " ++ toString labels ++ " labels, maxlen=" ++ toString maxlen ++ "; " ++
      effort.render
  | setUp clauses summary =>
    "grammar: " ++ toString clauses ++ " clauses; " ++ summary.render
  | pushed outcome name it => "push=" ++ outcome.name ++ " " ++ renderItem name it
  | popped pops name it => "pop=" ++ toString pops ++ " " ++ renderItem name it
  | spanRefused s c => "invalid span " ++ s.render ++ " from clause " ++ c.render
  | provenTwice it => it.render ++ ": item already in chart: " ++ it.render
  | found cost figures =>
    "parse found with cost " ++ CostText.brief cost ++ "; " ++ figures.render
  | exhausted length figures =>
    "no parse for sentence of length " ++ toString length ++ "; " ++ figures.render
  | notReturned reason => "cannot return parser into pool: " ++ reason

/-- An event as a line, with the mark of its level in front. -/
def render [CostText α] (e : Event α) : String := e.level.mark ++ e.text

end Event

end Discontinuous
