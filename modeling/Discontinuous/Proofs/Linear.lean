import Discontinuous.Proofs.Turn
import Mathlib

/-!
Which clauses are linear. Going through the left hand side with a count for each child comes to the
same as asking that every variable of a child stands there once, in order, and nothing else does.
What is refused, and why, is settled by the first variable that is out of turn.
-/
namespace Discontinuous.Script

def Predicate.vars (p : Predicate) : List String := p.args.flatten

/-- What the left hand side does with the variables of the children. -/
structure Linear (lhs left : Predicate) (right : Option Predicate) : Prop
    extends Separate left right where
  once : ∀ side, ∀ x ∈ childVars left right side, lhs.vars.count x = 1
  only : ∀ x ∈ lhs.vars, ∃ side, x ∈ childVars left right side
  ordered : ∀ side, (childVars left right side).Sublist lhs.vars

instance {lhs left : Predicate} {right : Option Predicate} : Decidable (Linear lhs left right) :=
  decidable_of_iff
    (Separate left right ∧ (∀ side, ∀ x ∈ childVars left right side, lhs.vars.count x = 1) ∧
      (∀ x ∈ lhs.vars, ∃ side, x ∈ childVars left right side) ∧
      ∀ side, (childVars left right side).Sublist lhs.vars)
    ⟨fun h => ⟨h.1, h.2.1, h.2.2.1, h.2.2.2⟩,
      fun h => ⟨h.toSeparate, h.once, h.only, h.ordered⟩⟩

variable {lhs left : Predicate} {right : Option Predicate}

/-- Where all variables of a child stand once and in order, they are all that it has there. -/
theorem Linear.ofSide_eq (h : Linear lhs left right) (side : Side) :
    ofSide (childVars left right) lhs.vars side = childVars left right side := by
  have hsub : (childVars left right side).Sublist
      (ofSide (childVars left right) lhs.vars side) := by
    have hfilter := (h.ordered side).filter (· ∈ childVars left right side)
    rwa [List.filter_eq_self.mpr fun x hx => decide_eq_true hx] at hfilter
  have honce : (ofSide (childVars left right) lhs.vars side).Nodup := by
    refine List.nodup_iff_count_eq_one.mpr fun x hx => ?_
    have hx' := (mem_ofSide.mp hx).2
    rw [count_ofSide _ hx', h.once side x hx']
  exact (hsub.eq_of_length_le
    (List.subperm_of_subset honce fun x hx => (mem_ofSide.mp hx).2).length_le).symm

theorem Linear.inTurn (h : Linear lhs left right) : InTurn (childVars left right) lhs.vars := by
  intro before x after hxs
  obtain ⟨side, hside⟩ := h.only x (by rw [hxs]; exact List.mem_append_right _ List.mem_cons_self)
  refine ⟨side, ?_⟩
  rw [← h.ofSide_eq side, hxs, ofSide_append_cons before hside,
    List.getElem?_append_right (Nat.le_refl _), Nat.sub_self, List.getElem?_cons_zero]

/-- A clause is linear if all variables of its children are used in turn. -/
theorem linear_iff (hsep : Separate left right) : Linear lhs left right ↔
    InTurn (childVars left right) lhs.vars ∧
      ∀ side, ∀ x ∈ childVars left right side, x ∈ lhs.vars := by
  constructor
  · intro h
    refine ⟨h.inTurn, ?_⟩
    intro side x hx
    rw [← h.ofSide_eq side] at hx
    exact (mem_ofSide.mp hx).1
  · rintro ⟨hin, hall⟩
    -- those used of a child are its first ones, and none is left over
    have hofSide : ∀ side,
        ofSide (childVars left right) lhs.vars side = childVars left right side := by
      intro side
      have hnodup := nodup_side hsep.distinct side
      have hsub : childVars left right side ⊆ ofSide (childVars left right) lhs.vars side :=
        fun x hx => mem_ofSide.mpr ⟨hall side x hx, hx⟩
      have htake := hin.ofSide_eq_take hsep.distinct side
      rw [htake]
      exact List.take_of_length_le (List.subperm_of_subset hnodup hsub).length_le
    refine ⟨hsep, ?_, ?_, ?_⟩
    · intro side x hx
      rw [← count_ofSide _ hx, hofSide]
      exact List.count_eq_one_of_mem (nodup_side hsep.distinct side) hx
    · intro x hx
      exact hin.exists_side hx
    · intro side
      rw [← hofSide side]
      exact List.filter_sublist

/-! How clauses are read. -/

/-- A yield stands once all variables are used. -/
def usedUp (r : Yield × Unused) : Except BindingError Yield :=
  match r.2.bound with
  | [] => .ok r.1
  | b :: _ => .error (.unused b.name)

theorem useArgs_childLabel {label : Side → String} {u : Unused} {args : List (List String)}
    {r : Except BindingError (Yield × Unused)} (h : u.useArgs label args = r)
    (hleft : label .left = childLabel left right .left)
    (hright : label .right = childLabel left right .right) :
    u.useArgs (childLabel left right) args = r := by
  have hlabel : label = childLabel left right := by
    funext side
    cases side
    · exact hleft
    · exact hright
  rw [← hlabel]
  exact h

theorem yieldOf_eq (lhs left : Predicate) (right : Option Predicate) : yieldOf lhs left right =
    (Binding.ofChildren left right).bind fun bound =>
      (Unused.useArgs (childLabel left right) ⟨bound, 0, 0⟩ lhs.args).bind usedUp := by
  unfold yieldOf
  cases Binding.ofChildren left right with
  | error e => rfl
  | ok bound =>
      dsimp only
      split
      next heq => exact (congrArg (Except.bind · usedUp) (useArgs_childLabel heq rfl rfl)).symm
      next heq => exact (congrArg (Except.bind · usedUp) (useArgs_childLabel heq rfl rfl)).symm

/-- Children that tell their variables apart leave three ways for a clause to be read. -/
theorem yieldOf_cases (lhs : Predicate) (hsep : Separate left right) :
    (InTurn (childVars left right) lhs.vars ∧
        (∀ side, ∀ x ∈ childVars left right side, x ∈ lhs.vars) ∧
        yieldOf lhs left right =
          .ok (lhs.args.map fun arg => arg.map (sideOf (childVars left right)))) ∨
      (InTurn (childVars left right) lhs.vars ∧
        ∃ side, ∃ x ∈ childVars left right side, x ∉ lhs.vars ∧
          yieldOf lhs left right = .error (.unused x)) ∨
      ∃ before x e, FirstOut (childVars left right) lhs.vars before x ∧
        yieldOf lhs left right = .error e ∧
          Stray (childVars left right) (childLabel left right) before x e := by
  have hends := ends_useArgs (childLabel left right) hsep.distinct
    (keeps_numbered (childVars left right)) inTurn_nil lhs.args
  rw [yieldOf_eq, Binding.ofChildren_of_separate hsep]
  dsimp only [Except.bind]
  cases hr : Unused.useArgs (childLabel left right) _ lhs.args with
  | error e =>
      rw [hr] at hends
      cases hends with
      | stray hfirst he => exact .inr (.inr ⟨_, _, e, hfirst, rfl, he⟩)
  | ok r =>
      rw [hr] at hends
      cases hends with
      | used hin hu =>
          unfold usedUp
          dsimp only
          split
          next hnone =>
            refine .inl ⟨hin, ?_, rfl⟩
            intro side x hx
            by_contra hnot
            obtain ⟨i, hi⟩ := List.getElem?_of_mem hx
            have hb := (hu.bound ⟨x, side, i⟩).mpr ⟨hi, hnot⟩
            rw [hnone] at hb
            cases hb
          next b rest hsome =>
            obtain ⟨hplace, hnot⟩ := (hu.bound b).mp (by rw [hsome]; exact List.mem_cons_self)
            exact .inr (.inl ⟨hin, b.side, b.name, List.mem_of_getElem? hplace, hnot, rfl⟩)

theorem yieldOf_of_linear (h : Linear lhs left right) : yieldOf lhs left right =
    .ok (lhs.args.map fun arg => arg.map (sideOf (childVars left right))) := by
  obtain ⟨hin, hall⟩ := (linear_iff h.toSeparate).mp h
  rcases yieldOf_cases lhs h.toSeparate with ⟨-, -, hok⟩ | ⟨-, side, x, hx, hnot, -⟩ |
    ⟨before, x, -, hfirst, -⟩
  · exact hok
  · exact absurd (hall side x hx) hnot
  · exact absurd hin (not_inTurn_iff.mpr ⟨before, x, hfirst⟩)

theorem exists_error_of_not_separate (lhs : Predicate) (h : ¬ Separate left right) :
    ∃ e, yieldOf lhs left right = .error e ∧ e.OfSyntax := by
  rw [yieldOf_eq]
  cases hbound : Binding.ofChildren left right with
  | error e => exact ⟨e, rfl, Binding.ofSyntax_of_ofChildren hbound⟩
  | ok bound => exact absurd (Binding.separate_of_ofChildren hbound) h

theorem linear_of_yieldOf {y : Yield} (h : yieldOf lhs left right = .ok y) :
    Linear lhs left right := by
  by_cases hsep : Separate left right
  · rcases yieldOf_cases lhs hsep with ⟨hin, hall, -⟩ | ⟨-, _, _, -, -, he⟩ | ⟨_, _, _, -, he, -⟩
    · exact (linear_iff hsep).mpr ⟨hin, hall⟩
    · cases he.symm.trans h
    · cases he.symm.trans h
  · obtain ⟨e, he, -⟩ := exists_error_of_not_separate lhs hsep
    cases he.symm.trans h

/-- The first variable that is out of turn settles the error. -/
theorem stray_of_firstOut {before : List String} {x : String} (hsep : Separate left right)
    (h : FirstOut (childVars left right) lhs.vars before x) :
    ∃ e, yieldOf lhs left right = .error e ∧
      Stray (childVars left right) (childLabel left right) before x e := by
  have hnot : ¬ InTurn (childVars left right) lhs.vars := not_inTurn_iff.mpr ⟨before, x, h⟩
  rcases yieldOf_cases lhs hsep with ⟨hin, -⟩ | ⟨hin, -⟩ | ⟨before', x', e, hfirst, he, hstray⟩
  · exact absurd hin hnot
  · exact absurd hin hnot
  · obtain ⟨rfl, rfl⟩ := h.unique hfirst
    exact ⟨e, he, hstray⟩

/-- A variable that is left over is unused. -/
theorem exists_unused (hsep : Separate left right) (hin : InTurn (childVars left right) lhs.vars)
    (h : ∃ side, ∃ x ∈ childVars left right side, x ∉ lhs.vars) :
    ∃ side, ∃ x ∈ childVars left right side, x ∉ lhs.vars ∧
      yieldOf lhs left right = .error (.unused x) := by
  obtain ⟨side, x, hx, hnot⟩ := h
  rcases yieldOf_cases lhs hsep with ⟨-, hall, -⟩ | ⟨-, hunused⟩ | ⟨before, y, -, hfirst, -⟩
  · exact absurd (hall side x hx) hnot
  · exact hunused
  · exact absurd hin (not_inTurn_iff.mpr ⟨before, y, hfirst⟩)

/-! Clauses with other names for their variables. -/

/-- Variables go by any names that tell them apart. -/
theorem yieldOf_rename (lhs left : Predicate) (right : Option Predicate) {f : String → String}
    (hf : {x | x ∈ lhs.vars ∨ ∃ side, x ∈ childVars left right side}.InjOn f) :
    yieldOf (lhs.rename f) (left.rename f) (right.map (Predicate.rename f)) =
      (yieldOf lhs left right).mapError (BindingError.rename f) := by
  have hchildren := Binding.ofChildren_rename left right hf fun side x hx => .inr ⟨side, hx⟩
  rw [yieldOf_eq, yieldOf_eq, hchildren, childLabel_rename]
  cases hbound : Binding.ofChildren left right with
  | error e => rfl
  | ok bound =>
      have huse : Unused.useArgs (childLabel left right) ⟨bound.map (Binding.rename f), 0, 0⟩
          (lhs.rename f).args = _ := Unused.useArgs_rename hf (childLabel left right)
        (u := ⟨bound, 0, 0⟩) (fun b hb => .inr (Binding.exists_side_of_ofChildren hbound hb))
        fun x hx => .inl hx
      dsimp only [Except.bind, Except.map, Except.mapError]
      rw [huse]
      cases Unused.useArgs (childLabel left right) ⟨bound, 0, 0⟩ lhs.args with
      | error e => rfl
      | ok r => rcases r with ⟨y, ⟨- | ⟨b, rest⟩, l, r⟩⟩ <;> rfl

/-- Clauses are read as they are said to be. A clause that is linear and in order has the sides of
its variables for a yield. What is refused is refused for the first thing that is wrong with it, in
this order: children that do not tell their variables apart, the first variable that is not the next
one of its child, variables left over. Only variables out of order are beyond the shapes that are
supported. Nothing depends on what the variables are called. -/
theorem yieldOf_linear (lhs left : Predicate) (right : Option Predicate) :
    ((∃ y, yieldOf lhs left right = .ok y) ↔ Linear lhs left right) ∧
    (∀ y, yieldOf lhs left right = .ok y →
      y = lhs.args.map fun arg => arg.map (sideOf (childVars left right))) ∧
    (¬ Separate left right → ∃ e, yieldOf lhs left right = .error e ∧ e.OfSyntax) ∧
    (Separate left right →
      (∀ before x, FirstOut (childVars left right) lhs.vars before x →
        ((∀ side, x ∉ childVars left right side) ∨ x ∈ before →
          yieldOf lhs left right = .error (.unbound x)) ∧
        ∀ side, x ∈ childVars left right side → x ∉ before →
          yieldOf lhs left right = .error (.outOfOrder (childLabel left right side))) ∧
      ((¬ ∃ before x, FirstOut (childVars left right) lhs.vars before x) →
        (∃ side, ∃ x ∈ childVars left right side, x ∉ lhs.vars) →
          ∃ side, ∃ x ∈ childVars left right side, x ∉ lhs.vars ∧
            yieldOf lhs left right = .error (.unused x))) ∧
    (∀ e : BindingError, (e.OfShape ↔ ∃ label, e = .outOfOrder label) ∧
      (e.OfSyntax ↔ ¬ e.OfShape)) ∧
    ∀ f, {x | x ∈ lhs.vars ∨ ∃ side, x ∈ childVars left right side}.InjOn f →
      yieldOf (lhs.rename f) (left.rename f) (right.map (Predicate.rename f)) =
        (yieldOf lhs left right).mapError (BindingError.rename f) ∧
      ∀ e : BindingError, (e.rename f).OfShape ↔ e.OfShape := by
  refine ⟨?accepted, ?sides, exists_error_of_not_separate lhs, ?refused, BindingError.ofShape_iff,
    fun f hf => ⟨yieldOf_rename lhs left right hf, BindingError.ofShape_rename f⟩⟩
  case accepted => exact ⟨fun ⟨y, h⟩ => linear_of_yieldOf h, fun h => ⟨_, yieldOf_of_linear h⟩⟩
  case sides =>
    intro y h
    exact Except.ok.inj (h.symm.trans (yieldOf_of_linear (linear_of_yieldOf h)))
  case refused =>
    intro hsep
    refine ⟨?_, fun hnone => exists_unused hsep (not_not.mp (not_inTurn_iff.not.mpr hnone))⟩
    intro before x hfirst
    obtain ⟨e, he, hstray⟩ := stray_of_firstOut hsep hfirst
    refine ⟨?_, ?_⟩
    · intro hx
      rw [he, hstray.eq_unbound hx]
    · intro side hx hnew
      rw [he, hstray.eq_outOfOrder hsep.distinct hx hnew]

theorem yieldOf_linear_split :
    yieldOf ⟨"A", [["X", "Y"], ["Z"]]⟩ ⟨"B", [["X"], ["Z"]]⟩ (some ⟨"C", [["Y"]]⟩) =
      .ok [[.left, .right], [.left]] ∧
    (∃ e, yieldOf ⟨"A", [["X", "Y"]]⟩ ⟨"B", [["X", "Y"]]⟩ none = .error e ∧ e.OfSyntax) ∧
    yieldOf ⟨"A", [["Y"], ["X"]]⟩ ⟨"B", [["X"], ["Y"]]⟩ none = .error (.outOfOrder "B") ∧
    yieldOf ⟨"A", [["X", "X"]]⟩ ⟨"B", [["X"]]⟩ none = .error (.unbound "X") ∧
    yieldOf ⟨"A", [["X'", "X'"]]⟩ ⟨"B", [["X'"]]⟩ none = .error (.unbound "X'") ∧
    ∃ side, ∃ x ∈ childVars ⟨"B", [["X"]]⟩ (some ⟨"C", [["Y"]]⟩) side, x ∉ ["X"] ∧
      yieldOf ⟨"A", [["X"]]⟩ ⟨"B", [["X"]]⟩ (some ⟨"C", [["Y"]]⟩) = .error (.unused x) := by
  have hsplit := yieldOf_linear ⟨"A", [["X", "Y"], ["Z"]]⟩ ⟨"B", [["X"], ["Z"]]⟩
    (some ⟨"C", [["Y"]]⟩)
  have hfolded := yieldOf_linear ⟨"A", [["X", "Y"]]⟩ ⟨"B", [["X", "Y"]]⟩ none
  have hswapped := yieldOf_linear ⟨"A", [["Y"], ["X"]]⟩ ⟨"B", [["X"], ["Y"]]⟩ none
  have hdoubled := yieldOf_linear ⟨"A", [["X", "X"]]⟩ ⟨"B", [["X"]]⟩ none
  have hunused := yieldOf_linear ⟨"A", [["X"]]⟩ ⟨"B", [["X"]]⟩ (some ⟨"C", [["Y"]]⟩)
  obtain ⟨y, hy⟩ := hsplit.1.mpr (by decide)
  have hfirst : FirstOut (childVars ⟨"B", [["X"], ["Y"]]⟩ none) ["Y", "X"] [] "Y" :=
    ⟨⟨["X"], rfl⟩, inTurn_nil, by decide⟩
  have hagain : FirstOut (childVars ⟨"B", [["X"]]⟩ none) ["X", "X"] ["X"] "X" :=
    ⟨⟨[], rfl⟩, inTurn_concat.mpr ⟨inTurn_nil, by decide⟩, by decide⟩
  have hin : InTurn (childVars ⟨"B", [["X"]]⟩ (some ⟨"C", [["Y"]]⟩)) ["X"] :=
    inTurn_concat.mpr ⟨inTurn_nil, by decide⟩
  have hunbound : yieldOf ⟨"A", [["X", "X"]]⟩ ⟨"B", [["X"]]⟩ none = .error (.unbound "X") :=
    ((hdoubled.2.2.2.1 (by decide)).1 ["X"] "X" hagain).1 (.inr (by decide))
  have hprimed := (hdoubled.2.2.2.2.2 (· ++ "'")
    (fun x _ y _ h => (String.append_left_inj "'").mp h)).1
  rw [hunbound] at hprimed
  refine ⟨hy.trans (congrArg _ (hsplit.2.1 y hy)), hfolded.2.2.1 (by decide), ?_, hunbound,
    hprimed, ?_⟩
  · exact ((hswapped.2.2.2.1 (by decide)).1 [] "Y" hfirst).2 .left (by decide) (by decide)
  · exact (hunused.2.2.2.1 (by decide)).2 (not_inTurn_iff.not.mp (not_not.mpr hin))
      ⟨.right, "Y", by decide, by decide⟩

end Discontinuous.Script
