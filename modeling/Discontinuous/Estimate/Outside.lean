import Discontinuous.Estimate.Table

/-!
Outside estimates: what it costs at least to complete a label that covers some positions of a
sentence to the start symbol covering all of them. Siblings are accounted for by their inside
estimates.
-/
namespace Discontinuous

/-- A label that covers `covered` positions of a sentence of length `length`. -/
structure Cell where
  label : Label
  length : Nat
  covered : Nat
deriving DecidableEq

namespace Cell

/-- The place of a cell in a flat table for lengths up to `n`: by label, then by length, then by
covered positions. It is a word, and no table reaches as far as a negative one. -/
def place (n : Nat) (c : Cell) : Nat :=
  Word.unsigned ((c.label.id * (n + 1) + c.length) * (n + 1) + c.covered)

/-- The cell that stands at a place. -/
def ofPlace (n i : Nat) : Cell :=
  ⟨⟨(i / (n + 1) / (n + 1) : Nat)⟩, i / (n + 1) % (n + 1), i % (n + 1)⟩

/-- The size of a flat table, which is a word as well. -/
def places (labels n : Nat) : Nat := Word.unsigned (labels * (n + 1) * (n + 1))

/-- The number of cells is a word. Otherwise the size comes out negative or too small, and cells
share places. -/
def Fits (labels n : Nat) : Prop := labels * (n + 1) * (n + 1) < Word.bound

instance (labels n : Nat) : Decidable (Fits labels n) :=
  inferInstanceAs (Decidable (labels * (n + 1) * (n + 1) < Word.bound))

end Cell

structure Outside (α : Type) where
  maxlen : Int
  /-- The number of labels at the time of the estimate. -/
  labels : Nat
  /-- The costs of cells by their places, none for those that are not settled. -/
  costs : Array (Option α)

namespace Outside

variable {α : Type} [Cost α]

/-- The ways to divide `n` positions among a left child of at least `left` of them and a right
child of at least `right`. -/
def splits (left right n : Nat) : List (Nat × Nat) :=
  (List.range (n + 1 - (left + right))).map fun k => (left + k, n - (left + k))

def descend (g : Grammar α) (inside : Table α) (cell : Cell) (cost : α) (c : Clause α) :
    List (Cell × α) :=
  match c.right with
  | none => [({ cell with label := c.left }, Cost.add cost c.cost)]
  | some right =>
    (splits (g.arity c.left) (g.arity right) cell.covered).flatMap fun (nl, nr) =>
      [(⟨c.left, cell.length, nl⟩,
          Cost.add (Cost.add cost (inside.lookupLength right nr)) c.cost),
        (⟨right, cell.length, nr⟩,
          Cost.add (Cost.add cost (inside.lookupLength c.left nl)) c.cost)]

/-- What follows from the cell at a place. Nothing follows at an infinite cost. -/
def consequences (g : Grammar α) (inside : Table α) (i : Nat) (cost : α) : List (Nat × α) :=
  let n := inside.maxlen.toNat
  let cell := Cell.ofPlace n i
  let cells := (g.byLhs cell.label).flatMap (descend g inside cell cost)
  (cells.filter fun (_, cost) => !Cost.isInfinite cost).map fun (k, cost) => (k.place n, cost)

def rules (g : Grammar α) (inside : Table α) : Rules (Array (Option α)) Nat α where
  settle costs i cost := costs.setIfInBounds i (some cost)
  isSettled costs i := (costs.getD i none).isSome
  consequences _ i cost := consequences g inside i cost

/-- The start symbol covering whole sentences of every length up to the horizon of the inside
estimates. -/
def seeds (g : Grammar α) (inside : Table α) : List (Nat × α) :=
  let n := inside.maxlen.toNat
  (List.range n).map fun m => (Cell.place n ⟨g.start, m + 1, m + 1⟩, Cost.zero)

/-- A flat table without estimates. -/
def blank (g : Grammar α) (inside : Table α) : Array (Option α) :=
  Array.replicate (Cell.places g.dict.size inside.maxlen.toNat) none

/-- The way down from the start symbol, as far as it leads. -/
def descent (g : Grammar α) (inside : Table α) : Closure (Array (Option α)) Nat α :=
  Closure.run (rules g inside) (Cell.places g.dict.size inside.maxlen.toNat) (blank g inside)
    (seeds g inside)

/-- The estimates of a grammar, and what they took. -/
def estimate (g : Grammar α) (inside : Table α) : Outside α × Effort :=
  let closure := descent g inside
  (⟨inside.maxlen, g.dict.size, closure.settled⟩, closure.agenda.effort)

/-- The estimate for a label that covers `n` positions of a sentence of length `m`. Beyond the
horizon and for labels made since, nothing is known and nothing is charged. -/
def lookup (o : Outside α) (label : Label) (m n : Int) : α :=
  if o.maxlen < m ∨ m < 1 ∨ label.id < 0 ∨ (o.labels : Int) ≤ label.id then Cost.zero
  else if n < 1 ∨ m < n then Cost.infinity
  else (o.costs.getD (Cell.place o.maxlen.toNat ⟨label, m.toNat, n.toNat⟩) none).getD Cost.infinity

def entries (o : Outside α) : List (Cell × α) :=
  let settled := o.costs.toList.zipIdx.filterMap fun (cost?, i) =>
    cost?.map (Cell.ofPlace o.maxlen.toNat i, ·)
  settled.filter fun (_, cost) => !Cost.isInfinite cost

end Outside

/-- A lower bound of the cost still to come for a label that covers a span of a sentence of the
given length. -/
abbrev Heuristic (α : Type) := Label → Span → Int → α

inductive Estimates (α : Type) where
  | zero
  | outside (o : Outside α)

namespace Estimates

variable {α : Type} [Cost α]

def heuristic : Estimates α → Heuristic α
  | zero => fun _ _ _ => Cost.zero
  | outside o => fun label s n => o.lookup label n s.len

end Estimates

end Discontinuous
