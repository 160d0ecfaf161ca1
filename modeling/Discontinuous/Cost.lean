/-!
Costs of clauses, entries and derivations. Every search of this library is written against the
four operations below, so it runs on machine floats and is reasoned about over any ordered costs.
-/
namespace Discontinuous

/-- What a search needs of a cost. `infinity` is the cost of what cannot be derived. -/
class Cost (α : Type) where
  zero : α
  infinity : α
  add : α → α → α
  le : α → α → Bool

namespace Cost

variable {α : Type} [Cost α]

def lt (a b : α) : Bool := le a b && !le b a

/-- Neither is cheaper, and both compare. -/
def same (a b : α) : Bool := le a b && le b a

/-- A cost that a clause or an entry may carry. A value that does not compare with zero is
refused along with the negative ones. -/
def isAdmitted (a : α) : Bool := le zero a

def isInfinite (a : α) : Bool := le infinity a

instance : Cost Float where
  zero := 0
  infinity := 1.0 / 0.0
  add := fun a b => a + b
  le := fun a b => decide (a ≤ b)

end Cost

end Discontinuous
