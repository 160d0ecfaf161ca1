import Discontinuous.Word

/-!
Spans: the input positions that a constituent covers, as one or two half-open ranges.
-/
namespace Discontinuous

/-- The ranges `[l1, r1)` and `[l2, r2)`. A span of one range has both boundaries of its second
range unset. -/
structure Span where
  l1 : Int
  r1 : Int
  l2 : Int
  r2 : Int
deriving DecidableEq

namespace Span

def unset : Int := -1

def one (l r : Int) : Span := ⟨l, r, unset, unset⟩

def two (l1 r1 l2 r2 : Int) : Span := ⟨l1, r1, l2, r2⟩

def arity (s : Span) : Nat := if s.l2 = unset then 1 else 2

/-- The number of covered positions, as a word. -/
def len (s : Span) : Int :=
  if s.l2 = unset then Word.wrap (s.r1 - s.l1)
  else Word.wrap (s.r1 - s.l1 + s.r2 - s.l2)

/-- No range is empty, and two ranges neither overlap nor touch. -/
def Valid (s : Span) : Prop :=
  0 ≤ s.l1 ∧ s.l1 < s.r1 ∧
    if s.l2 = unset then s.r2 = unset else s.r1 < s.l2 ∧ s.l2 < s.r2

instance (s : Span) : Decidable s.Valid := by
  unfold Valid
  infer_instance

/-- The integers from `l` up to but not including `r`. -/
def range (l r : Int) : List Int := (List.range (r - l).toNat).map fun (k : Nat) => l + k

/-- The covered positions, range by range. -/
def positions (s : Span) : List Int :=
  if s.l2 = unset then range s.l1 s.r1 else range s.l1 s.r1 ++ range s.l2 s.r2

/-- The most positions that are ever listed. -/
def positionLimit : Int := 0x200000000000

/-- The covered positions, unless the length is negative or beyond any memory. -/
def positions? (s : Span) : Option (List Int) :=
  if 0 ≤ s.len ∧ s.len ≤ positionLimit then some s.positions else none

def render (s : Span) : String :=
  let first := "[" ++ toString s.l1 ++ "," ++ toString s.r1 ++ ")"
  if s.l2 = unset then first
  else first ++ "+[" ++ toString s.l2 ++ "," ++ toString s.r2 ++ ")"

end Span

end Discontinuous
