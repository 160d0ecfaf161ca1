import Discontinuous.Clause
import Discontinuous.Key

/-!
Items: partial derivations, a label that covers a span. Items live in an arena and point to one
another by their places in it.
-/
namespace Discontinuous

/-- Seeds come from the sentence and have neither a clause nor children; an item of a unary clause
has a left child only. The total is the inside cost and an estimate of the cost still to come.
Nothing keeps a back pointer from naming a place outside of the arena. -/
structure Item (α : Type) where
  label : Label
  span : Span
  inside : α
  total : α
  clause : Option (Clause α)
  left : Option Int
  right : Option Int

namespace Item

variable {α : Type}

def key (it : Item α) : Key := .of it.label it.span

def render [CostText α] (it : Item α) : String :=
  "<" ++ toString it.label.id ++ " " ++ it.span.render ++ " | in=" ++ CostText.brief it.inside ++
    ", tot=" ++ CostText.brief it.total ++ ">"

end Item

abbrev Arena (α : Type) := Array (Item α)

namespace Arena

variable {α : Type}

def add (a : Arena α) (it : Item α) : Arena α × Nat := (a.push it, a.size)

def at? (a : Arena α) (id : Int) : Option (Item α) := if 0 ≤ id then a[id.toNat]? else none

/-- Gives back the place of the item that was added last; any other place stays. -/
def release (a : Arena α) (id : Nat) : Arena α := if id + 1 = a.size then a.pop else a

/-- Gives back a place that may be none. The place before the first one is the last of an empty
arena, and cannot be given back. -/
def release? (a : Arena α) (id : Int) : Option (Arena α) :=
  if 0 ≤ id then some (a.release id.toNat) else if id + 1 = a.size then none else some a

end Arena

end Discontinuous
