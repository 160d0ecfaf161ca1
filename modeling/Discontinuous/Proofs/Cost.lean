import Discontinuous.Cost
import Mathlib

/-!
Laws of costs. A grammar needs no more than that the costs it admits compare, and an agenda that all
costs do. A search that prunes by cost needs a total order and a sum that respects it, and a search
that is not guided needs a zero that adds nothing. That estimates cancel takes exact sums as well.
Rational costs with an infinite one have all of these laws. Machine floats keep all but the last
group as long as nothing is undefined, and round that one away.
-/
namespace Discontinuous

/-- Admitted costs compare. What is refused need not, as an undefined float does not. -/
class ComparableCost (α : Type) [Cost α] : Prop where
  le_total {a b : α} : Cost.isAdmitted a = true → Cost.isAdmitted b = true →
    Cost.le a b = true ∨ Cost.le b a = true
  le_trans {a b c : α} : Cost.isAdmitted a = true → Cost.isAdmitted b = true →
    Cost.isAdmitted c = true → Cost.le a b = true → Cost.le b c = true → Cost.le a c = true

/-- Costs any two of which compare. Costs that compare both ways need not be equal, as with signed
zeros. -/
class TotalCost (α : Type) [Cost α] : Prop where
  le_total (a b : α) : Cost.le a b = true ∨ Cost.le b a = true
  le_trans {a b c : α} : Cost.le a b = true → Cost.le b c = true → Cost.le a c = true

instance {α : Type} [Cost α] [TotalCost α] : ComparableCost α where
  le_total _ _ := TotalCost.le_total _ _
  le_trans _ _ _ := TotalCost.le_trans

/-- Totally ordered costs with a sum that respects the order. Adding what is admitted makes nothing
cheaper. Sums need not commute, and how they are bracketed may matter. -/
class OrderedCost (α : Type) [Cost α] : Prop where
  le_total (a b : α) : Cost.le a b = true ∨ Cost.le b a = true
  le_trans {a b c : α} : Cost.le a b = true → Cost.le b c = true → Cost.le a c = true
  le_antisymm {a b : α} : Cost.le a b = true → Cost.le b a = true → a = b
  add_le_add_left {a b : α} (c : α) :
    Cost.le a b = true → Cost.le (Cost.add c a) (Cost.add c b) = true
  add_le_add_right {a b : α} (c : α) :
    Cost.le a b = true → Cost.le (Cost.add a c) (Cost.add b c) = true
  le_add_left (a : α) {b : α} : Cost.isAdmitted b = true → Cost.le a (Cost.add b a) = true
  le_add_right (a : α) {b : α} : Cost.isAdmitted b = true → Cost.le a (Cost.add a b) = true

instance {α : Type} [Cost α] [OrderedCost α] : TotalCost α where
  le_total := OrderedCost.le_total
  le_trans := OrderedCost.le_trans

/-- Ordered costs none of which is dearer than the infinite one. -/
class BoundedCost (α : Type) [Cost α] : Prop extends OrderedCost α where
  le_infinity (a : α) : Cost.le a Cost.infinity = true

/-- Costs whose sums may be rounded, but not if nothing is added. -/
class RoundedCost (α : Type) [Cost α] : Prop extends OrderedCost α where
  add_zero (a : α) : Cost.add a Cost.zero = a

/-- Costs whose sums are exact: they commute and associate, and all but infinite summands cancel. -/
class ExactCost (α : Type) [Cost α] : Prop extends RoundedCost α where
  le_infinity (a : α) : Cost.le a Cost.infinity = true
  add_comm (a b : α) : Cost.add a b = Cost.add b a
  add_assoc (a b c : α) : Cost.add (Cost.add a b) c = Cost.add a (Cost.add b c)
  le_of_add_le_add_right {a b c : α} : Cost.isInfinite c = false →
    Cost.le (Cost.add a c) (Cost.add b c) = true → Cost.le a b = true

instance {α : Type} [Cost α] [ExactCost α] : BoundedCost α where
  le_infinity := ExactCost.le_infinity

namespace Cost

variable {α : Type} [Cost α]

theorem le_refl_of_admitted [ComparableCost α] {a : α} (h : isAdmitted a = true) :
    le a a = true := (ComparableCost.le_total h h).elim id id

/-- The lesser of two admitted costs is no more than either. -/
theorem lesser_le [ComparableCost α] {a b : α} (ha : isAdmitted a = true)
    (hb : isAdmitted b = true) : le (if lt a b then a else b) a = true ∧
      le (if lt a b then a else b) b = true := by
  cases hab : le a b with
  | false =>
      have hba := (ComparableCost.le_total ha hb).resolve_left (by simp [hab])
      simp [lt, hab, hba, le_refl_of_admitted hb]
  | true =>
      cases hba : le b a with
      | false => simp [lt, hab, hba, le_refl_of_admitted ha]
      | true => simp [lt, hab, hba, le_refl_of_admitted hb]

theorem le_of_lt {a b : α} (h : lt a b = true) : le a b = true := (Bool.and_eq_true_iff.mp h).1

section Comparable

variable [ComparableCost α] {a b c : α}

theorem lt_iff_of_admitted (ha : isAdmitted a = true) (hb : isAdmitted b = true) :
    lt a b = true ↔ ¬ le b a = true := by
  constructor
  · intro h
    simpa using (Bool.and_eq_true_iff.mp h).2
  · intro h
    have hle := (ComparableCost.le_total ha hb).resolve_right h
    simp [lt, hle, h]

theorem lt_of_lt_of_le (ha : isAdmitted a = true) (hb : isAdmitted b = true)
    (hc : isAdmitted c = true) (h : lt a b = true) (h' : le b c = true) : lt a c = true := by
  rw [lt_iff_of_admitted ha hc]
  intro hca
  exact (lt_iff_of_admitted ha hb).mp h (ComparableCost.le_trans hb hc ha h' hca)

end Comparable

section Total

variable [TotalCost α] {a b : α}

theorem le_refl (a : α) : le a a = true := (TotalCost.le_total a a).elim id id

theorem le_of_eq (h : a = b) : le a b = true := h ▸ le_refl a

theorem le_of_not_le (h : ¬ le a b = true) : le b a = true :=
  (TotalCost.le_total a b).resolve_left h

theorem lt_iff : lt a b = true ↔ ¬ le b a = true := by
  simp only [lt]
  constructor
  · intro h
    simpa using (Bool.and_eq_true_iff.mp h).2
  · intro h
    simp [le_of_not_le h, h]

end Total

section Ordered

variable [OrderedCost α] {a b c d : α}

theorem add_le_add (h : le a b = true) (h' : le c d = true) : le (add a c) (add b d) = true :=
  OrderedCost.le_trans (OrderedCost.add_le_add_right c h) (OrderedCost.add_le_add_left b h')

theorem isAdmitted_zero : isAdmitted (zero : α) = true := le_refl _

theorem isAdmitted_add (ha : isAdmitted a = true) (hb : isAdmitted b = true) :
    isAdmitted (add a b) = true :=
  OrderedCost.le_trans ha (OrderedCost.le_add_right a hb)

theorem isInfinite_of_le (h : le a b = true) (ha : isInfinite a = true) : isInfinite b = true :=
  OrderedCost.le_trans ha h

end Ordered

theorem add_zero [RoundedCost α] (a : α) : add a zero = a := RoundedCost.add_zero a

section Exact

variable [ExactCost α]

instance : Std.Associative (add : α → α → α) := ⟨ExactCost.add_assoc⟩

instance : Std.Commutative (add : α → α → α) := ⟨ExactCost.add_comm⟩

end Exact

section Bounded

variable [BoundedCost α]

theorem isAdmitted_infinity : isAdmitted (infinity : α) = true := BoundedCost.le_infinity _

theorem le_of_isInfinite {b : α} (a : α) (h : isInfinite b = true) : le a b = true :=
  OrderedCost.le_trans (BoundedCost.le_infinity a) h

end Bounded

end Cost

/-- Rational costs and the infinite one. Negative ones are there to be refused. -/
abbrev Price := WithTop ℚ

instance : Cost Price where
  zero := 0
  infinity := ⊤
  add a b := a + b
  le a b := decide (a ≤ b)

namespace Price

theorem le_iff (a b : Price) : Cost.le a b = true ↔ a ≤ b := decide_eq_true_iff

theorem isInfinite_eq_false_iff (a : Price) : Cost.isInfinite a = false ↔ a ≠ ⊤ := by
  have h : Cost.isInfinite a = true ↔ a = ⊤ := (le_iff ⊤ a).trans top_le_iff
  rw [← Bool.not_eq_true, h]

instance : ExactCost Price where
  le_total a b := by
    simp only [le_iff]
    exact le_total a b
  le_trans := by
    simp only [le_iff]
    exact le_trans
  le_antisymm := by
    simp only [le_iff]
    exact le_antisymm
  add_le_add_left c h := by
    rw [le_iff] at h ⊢
    exact add_le_add_right h c
  add_le_add_right c h := by
    rw [le_iff] at h ⊢
    exact add_le_add_left h c
  le_add_left a b h := by
    rw [Cost.isAdmitted, le_iff] at h
    rw [le_iff]
    exact le_add_of_nonneg_left h
  le_add_right a b h := by
    rw [Cost.isAdmitted, le_iff] at h
    rw [le_iff]
    exact le_add_of_nonneg_right h
  add_zero a := add_zero a
  le_infinity a := (le_iff a ⊤).mpr le_top
  add_comm a b := add_comm a b
  add_assoc a b c := add_assoc a b c
  le_of_add_le_add_right {a b c} hc h := by
    rw [le_iff] at h ⊢
    exact WithTop.le_of_add_le_add_right ((isInfinite_eq_false_iff c).mp hc) h

end Price

end Discontinuous
