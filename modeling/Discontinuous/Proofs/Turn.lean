import Discontinuous.Proofs.Binding
import Mathlib

/-!
Variables in turn. The variables of a clause are used one by one, each as the next one of the child
that binds it. To keep the variables that are left and a count for each child comes to the same as
to look at all that stand before.
-/
namespace Discontinuous.Script

section Turns

variable (vs : Side → List String)

/-- Those of some variables that a child binds. -/
def ofSide (xs : List String) (side : Side) : List String := xs.filter (· ∈ vs side)

/-- The next variable of its child, after some have been used. -/
def IsNext (before : List String) (x : String) : Prop :=
  ∃ side, (vs side)[(ofSide vs before side).length]? = some x

/-- Every variable is the next one of its child where it stands. -/
def InTurn (xs : List String) : Prop :=
  ∀ before x after, xs = before ++ x :: after → IsNext vs before x

/-- The first variable that is not the next one of its child, after those before it. -/
structure FirstOut (xs before : List String) (x : String) : Prop where
  occurs : ∃ after, xs = before ++ x :: after
  inTurn : InTurn vs before
  out : ¬ IsNext vs before x

instance (before : List String) (x : String) : Decidable (IsNext vs before x) :=
  inferInstanceAs (Decidable (∃ side, (vs side)[(ofSide vs before side).length]? = some x))

variable {vs} {xs : List String} {x : String}

/-- A variable has one place among those of the children. -/
theorem place_unique (hvs : (vs .left ++ vs .right).Nodup) {s s' : Side} {i j : Nat}
    (h : (vs s)[i]? = some x) (h' : (vs s')[j]? = some x) : s = s' ∧ i = j := by
  obtain ⟨hleft, hright, hapart⟩ := List.nodup_append.mp hvs
  have hmem := List.mem_of_getElem? h
  have hmem' := List.mem_of_getElem? h'
  have hlt := (List.getElem?_eq_some_iff.mp h).1
  cases s <;> cases s'
  · exact ⟨rfl, (List.getElem?_inj hlt hleft).mp (h.trans h'.symm)⟩
  · exact absurd rfl (hapart x hmem x hmem')
  · exact absurd rfl (hapart x hmem' x hmem)
  · exact ⟨rfl, (List.getElem?_inj hlt hright).mp (h.trans h'.symm)⟩

theorem side_unique (hvs : (vs .left ++ vs .right).Nodup) {s s' : Side} (h : x ∈ vs s)
    (h' : x ∈ vs s') : s = s' := by
  obtain ⟨i, hi⟩ := List.getElem?_of_mem h
  obtain ⟨j, hj⟩ := List.getElem?_of_mem h'
  exact (place_unique hvs hi hj).1

theorem nodup_side (hvs : (vs .left ++ vs .right).Nodup) (side : Side) : (vs side).Nodup := by
  obtain ⟨hleft, hright, -⟩ := List.nodup_append.mp hvs
  cases side
  · exact hleft
  · exact hright

theorem inTurn_nil : InTurn vs [] := by
  intro before x after heq
  cases before <;> cases heq

theorem inTurn_concat : InTurn vs (xs ++ [x]) ↔ InTurn vs xs ∧ IsNext vs xs x := by
  constructor
  · intro h
    refine ⟨?_, h xs x [] rfl⟩
    intro before y after heq
    exact h before y (after ++ [x]) (by rw [heq, List.append_assoc, List.cons_append])
  · rintro ⟨hxs, hx⟩ before y after heq
    rcases List.eq_nil_or_concat after with rfl | ⟨after, z, rfl⟩
    · obtain ⟨rfl, hlast⟩ := List.append_inj' heq rfl
      cases hlast
      exact hx
    · rw [List.concat_eq_append, ← List.cons_append, ← List.append_assoc] at heq
      exact hxs before y after (List.append_inj' heq rfl).1

theorem FirstOut.append {before : List String} (h : FirstOut vs xs before x) (ys : List String) :
    FirstOut vs (xs ++ ys) before x := by
  obtain ⟨⟨after, rfl⟩, hin, hout⟩ := h
  exact ⟨⟨after ++ ys, by rw [List.append_assoc, List.cons_append]⟩, hin, hout⟩

theorem not_inTurn_iff : ¬ InTurn vs xs ↔ ∃ before x, FirstOut vs xs before x := by
  constructor
  · intro hnot
    induction xs using List.reverseRecOn with
    | nil => exact absurd inTurn_nil hnot
    | append_singleton xs x ih =>
        by_cases hxs : InTurn vs xs
        · exact ⟨xs, x, ⟨[], rfl⟩, hxs, fun hx => hnot (inTurn_concat.mpr ⟨hxs, hx⟩)⟩
        · obtain ⟨before, y, hfirst⟩ := ih hxs
          exact ⟨before, y, hfirst.append [x]⟩
  · rintro ⟨before, x, ⟨after, heq⟩, -, hout⟩ hin
    exact hout (hin before x after heq)

theorem FirstOut.unique {before before' : List String} {y : String} (h : FirstOut vs xs before x)
    (h' : FirstOut vs xs before' y) : before = before' ∧ x = y := by
  obtain ⟨⟨after, heq⟩, hin, hout⟩ := h
  obtain ⟨⟨after', heq'⟩, hin', hout'⟩ := h'
  -- were one of them longer, the other one would be refused within it
  rcases List.append_eq_append_iff.mp (heq.symm.trans heq') with
    ⟨- | ⟨z, more⟩, hbefore, hrest⟩ | ⟨- | ⟨z, more⟩, hbefore, hrest⟩
  · rw [List.append_nil] at hbefore
    exact ⟨hbefore.symm, (List.cons.inj hrest).1⟩
  · obtain ⟨rfl, -⟩ := List.cons.inj hrest
    exact absurd (hin' before x more hbefore) hout
  · rw [List.append_nil] at hbefore
    exact ⟨hbefore, (List.cons.inj hrest).1.symm⟩
  · obtain ⟨rfl, -⟩ := List.cons.inj hrest
    exact absurd (hin before' y more hbefore) hout'

theorem InTurn.exists_side (h : InTurn vs xs) (hx : x ∈ xs) : ∃ side, x ∈ vs side := by
  obtain ⟨before, after, rfl⟩ := List.append_of_mem hx
  obtain ⟨side, hside⟩ := h before x after rfl
  exact ⟨side, List.mem_of_getElem? hside⟩

theorem mem_ofSide {side : Side} : x ∈ ofSide vs xs side ↔ x ∈ xs ∧ x ∈ vs side := by
  simp [ofSide]

theorem ofSide_concat (xs : List String) (x : String) (side : Side) :
    ofSide vs (xs ++ [x]) side = ofSide vs xs side ++ if x ∈ vs side then [x] else [] := by
  unfold ofSide
  rw [List.filter_append]
  by_cases hx : x ∈ vs side <;> simp [hx]

theorem ofSide_append_cons (xs : List String) {side : Side} (hx : x ∈ vs side)
    (ys : List String) :
    ofSide vs (xs ++ x :: ys) side = ofSide vs xs side ++ x :: ofSide vs ys side := by
  simp [ofSide, hx]

theorem count_ofSide (xs : List String) {side : Side} (hx : x ∈ vs side) :
    (ofSide vs xs side).count x = xs.count x :=
  List.count_filter (p := fun y => decide (y ∈ vs side)) (decide_eq_true hx)

/-- Those used of a child are its first ones. -/
theorem InTurn.ofSide_eq_take (hvs : (vs .left ++ vs .right).Nodup) (h : InTurn vs xs)
    (side : Side) : ofSide vs xs side = (vs side).take (ofSide vs xs side).length := by
  induction xs using List.reverseRecOn with
  | nil => rfl
  | append_singleton xs x ih =>
      obtain ⟨hxs, s, hs⟩ := inTurn_concat.mp h
      rw [ofSide_concat]
      by_cases hx : x ∈ vs side
      · obtain rfl := side_unique hvs (List.mem_of_getElem? hs) hx
        rw [if_pos hx, List.length_append, List.length_singleton, List.take_add_one, hs, ← ih hxs]
        rfl
      · rw [if_neg hx, List.append_nil]
        exact ih hxs

/-- What has been used is not the next variable. -/
theorem InTurn.not_isNext (hvs : (vs .left ++ vs .right).Nodup) (h : InTurn vs xs) (hx : x ∈ xs) :
    ¬ IsNext vs xs x := by
  rintro ⟨side, hside⟩
  -- it would have a second place among those used of its child, before the next one
  have hmem : x ∈ (vs side).take (ofSide vs xs side).length := by
    rw [← h.ofSide_eq_take hvs]
    exact mem_ofSide.mpr ⟨hx, List.mem_of_getElem? hside⟩
  obtain ⟨j, hj⟩ := List.getElem?_of_mem hmem
  rw [List.getElem?_take] at hj
  split at hj
  next hlt => exact absurd (place_unique hvs hside hj).2 (Nat.ne_of_gt hlt)
  next => cases hj

/-- The child that a variable comes from. -/
def sideOf (vs : Side → List String) (x : String) : Side := if x ∈ vs .right then .right else .left

theorem sideOf_eq (hvs : (vs .left ++ vs .right).Nodup) {side : Side} (h : x ∈ vs side) :
    sideOf vs x = side := by
  unfold sideOf
  split
  next hright => exact side_unique hvs hright h
  next hright =>
    cases side
    · rfl
    · exact absurd h hright

/-- Why a variable that is out of turn is refused. -/
inductive Stray (vs : Side → List String) (label : Side → String) (before : List String)
    (x : String) : BindingError → Prop
  | unbound (h : (∀ side, x ∉ vs side) ∨ x ∈ before) : Stray vs label before x (.unbound x)
  | outOfOrder (side : Side) (hx : x ∈ vs side) (hnew : x ∉ before) :
      Stray vs label before x (.outOfOrder (label side))

theorem Stray.eq_unbound {label : Side → String} {before : List String} {e : BindingError}
    (h : Stray vs label before x e) (hx : (∀ side, x ∉ vs side) ∨ x ∈ before) :
    e = .unbound x := by
  cases h with
  | unbound => rfl
  | outOfOrder side hside hnew =>
      rcases hx with hx | hx
      · exact absurd hside (hx side)
      · exact absurd hx hnew

theorem Stray.eq_outOfOrder {label : Side → String} {before : List String} {e : BindingError}
    {side : Side} (hvs : (vs .left ++ vs .right).Nodup) (h : Stray vs label before x e)
    (hx : x ∈ vs side) (hnew : x ∉ before) : e = .outOfOrder (label side) := by
  cases h with
  | unbound h =>
      rcases h with h | h
      · exact absurd hx (h side)
      · exact absurd h hnew
  | outOfOrder side' hside _ => rw [side_unique hvs hx hside]

/-- What is known of the variables still to be used. -/
structure Keeps (vs : Side → List String) (u : Unused) (before : List String) : Prop where
  bound : ∀ b, b ∈ u.bound ↔ (vs b.side)[b.index]? = some b.name ∧ b.name ∉ before
  next : ∀ side, u.next side = (ofSide vs before side).length

variable {u : Unused} {before : List String} {label : Side → String}

/-- A variable that is found has not been used, and has its place in a child. -/
theorem Keeps.found (h : Keeps vs u before) {b : Binding}
    (hb : u.bound.find? (fun b => b.name == x) = some b) :
    b.name = x ∧ (vs b.side)[b.index]? = some x ∧ x ∉ before := by
  have hname : b.name = x := beq_iff_eq.mp (List.find?_some hb :)
  obtain ⟨hplace, hnew⟩ := (h.bound b).mp (List.mem_of_find?_eq_some hb)
  rw [hname] at hplace hnew
  exact ⟨hname, hplace, hnew⟩

theorem Keeps.not_found (h : Keeps vs u before)
    (hx : u.bound.find? (fun b => b.name == x) = none) : (∀ side, x ∉ vs side) ∨ x ∈ before := by
  by_contra hnot
  obtain ⟨hbound, hnew⟩ := not_or.mp hnot
  obtain ⟨side, hside⟩ := not_forall_not.mp hbound
  obtain ⟨i, hi⟩ := List.getElem?_of_mem hside
  have hb := (h.bound ⟨x, side, i⟩).mpr ⟨hi, hnew⟩
  exact List.find?_eq_none.mp hx _ hb (beq_self_eq_true x)

/-- One more is used. -/
theorem Keeps.without (h : Keeps vs u before) {l r : Nat}
    (hl : l = u.left + (if x ∈ vs .left then [x] else []).length)
    (hr : r = u.right + (if x ∈ vs .right then [x] else []).length) :
    Keeps vs ⟨u.bound.filter fun b => b.name != x, l, r⟩ (before ++ [x]) := by
  constructor
  · intro b
    rw [List.mem_filter, h.bound, bne_iff_ne, List.mem_append, List.mem_singleton, not_or,
      and_assoc]
  · intro side
    rw [ofSide_concat, List.length_append, ← h.next]
    cases side
    · exact hl
    · exact hr

theorem Keeps.use (label : Side → String) (hvs : (vs .left ++ vs .right).Nodup)
    (h : Keeps vs u before) (hin : InTurn vs before) (hx : IsNext vs before x) :
    ∃ u', u.use label x = .ok (sideOf vs x, u') ∧ Keeps vs u' (before ++ [x]) := by
  obtain ⟨s, hs⟩ := hx
  have hmem : x ∈ vs s := List.mem_of_getElem? hs
  have hnew : x ∉ before := fun hmem => hin.not_isNext hvs hmem ⟨s, hs⟩
  unfold Unused.use
  cases hfind : u.bound.find? fun b => b.name == x with
  | none =>
      rcases h.not_found hfind with hnone | hmem'
      · exact absurd hmem (hnone s)
      · exact absurd hmem' hnew
  | some b =>
      obtain ⟨-, hplace, -⟩ := h.found hfind
      obtain ⟨rfl, hindex⟩ := place_unique hvs hs hplace
      dsimp only
      have hother : ∀ side, x ∈ vs side ↔ side = b.side := fun side =>
        ⟨fun hside => side_unique hvs hside hmem, fun hside => hside ▸ hmem⟩
      have hturn : ¬ b.index ≠ u.next b.side := by
        rw [h.next, hindex]
        exact not_not.mpr rfl
      rw [if_neg hturn, sideOf_eq hvs hmem]
      cases hb : b.side with
      | left => exact ⟨_, rfl, h.without (by simp [hother, hb]) (by simp [hother, hb])⟩
      | right => exact ⟨_, rfl, h.without (by simp [hother, hb]) (by simp [hother, hb])⟩

theorem Keeps.use_stray (label : Side → String) (h : Keeps vs u before)
    (hx : ¬ IsNext vs before x) : ∃ e, u.use label x = .error e ∧ Stray vs label before x e := by
  unfold Unused.use
  cases hfind : u.bound.find? fun b => b.name == x with
  | none => exact ⟨_, rfl, .unbound (h.not_found hfind)⟩
  | some b =>
      obtain ⟨-, hplace, hnew⟩ := h.found hfind
      have hindex : b.index ≠ u.next b.side := by
        intro heq
        rw [heq, h.next] at hplace
        exact hx ⟨b.side, hplace⟩
      dsimp only
      rw [if_pos hindex]
      exact ⟨_, rfl, .outOfOrder b.side (List.mem_of_getElem? hplace) hnew⟩

/-- How it ends to use variables: all of them are used, or the first one that is out of turn is
refused. -/
inductive Ends {β : Type} (vs : Side → List String) (label : Side → String) (xs : List String)
    (value : β) : Except BindingError (β × Unused) → Prop
  | used {u : Unused} (hin : InTurn vs xs) (hu : Keeps vs u xs) :
      Ends vs label xs value (.ok (value, u))
  | stray {before : List String} {x : String} {e : BindingError} (hfirst : FirstOut vs xs before x)
      (he : Stray vs label before x e) : Ends vs label xs value (.error e)

/-- A variable out of turn settles whatever follows. -/
theorem Ends.append {β γ : Type} {value : β} {value' : γ} {e : BindingError}
    (h : Ends vs label xs value (.error e)) (ys : List String) :
    Ends vs label (xs ++ ys) value' (.error e) := by
  cases h with
  | stray hfirst he => exact .stray (hfirst.append ys) he

theorem ends_useArg (label : Side → String) (hvs : (vs .left ++ vs .right).Nodup)
    (hu : Keeps vs u before) (hin : InTurn vs before) (xs : List String) :
    Ends vs label (before ++ xs) (xs.map (sideOf vs)) (u.useArg label xs) := by
  induction xs generalizing u before with
  | nil =>
      rw [List.append_nil]
      exact .used hin hu
  | cons x xs ih =>
      rw [Unused.useArg]
      by_cases hx : IsNext vs before x
      · obtain ⟨u', huse, hu'⟩ := hu.use label hvs hin hx
        have hrest := ih hu' (inTurn_concat.mpr ⟨hin, hx⟩)
        rw [List.append_assoc, List.singleton_append] at hrest
        rw [huse]
        dsimp only
        cases hr : u'.useArg label xs with
        | error e =>
            rw [hr] at hrest
            cases hrest with
            | stray hfirst he => exact .stray hfirst he
        | ok r =>
            rw [hr] at hrest
            cases hrest with
            | used hin hu => exact .used hin hu
      · obtain ⟨e, huse, he⟩ := hu.use_stray label hx
        rw [huse]
        exact .stray ⟨⟨xs, rfl⟩, hin, hx⟩ he

theorem ends_useArgs (label : Side → String) (hvs : (vs .left ++ vs .right).Nodup)
    (hu : Keeps vs u before) (hin : InTurn vs before) (args : List (List String)) :
    Ends vs label (before ++ args.flatten) (args.map fun arg => arg.map (sideOf vs))
      (u.useArgs label args) := by
  induction args generalizing u before with
  | nil =>
      rw [List.flatten_nil, List.append_nil]
      exact .used hin hu
  | cons arg args ih =>
      have hfirst := ends_useArg label hvs hu hin arg
      rw [Unused.useArgs, List.flatten_cons, ← List.append_assoc]
      cases harg : u.useArg label arg with
      | error e =>
          rw [harg] at hfirst
          exact hfirst.append args.flatten
      | ok r =>
          rw [harg] at hfirst
          cases hfirst with
          | used hin' hu' =>
              have hrest := ih hu' hin'
              dsimp only
              split
              next hr =>
                rw [hr] at hrest
                cases hrest with
                | stray hfirst he => exact .stray hfirst he
              next hr =>
                rw [hr] at hrest
                cases hrest with
                | used hin hu => exact .used hin hu

theorem keeps_numbered (vs : Side → List String) :
    Keeps vs ⟨Binding.numbered .left 0 (vs .left) ++ Binding.numbered .right 0 (vs .right), 0, 0⟩
      [] := by
  constructor
  · rintro ⟨x, side, i⟩
    rw [List.mem_append, Binding.mem_numbered, Binding.mem_numbered]
    cases side <;> simp
  · intro side
    cases side <;> rfl

end Turns

/-! Other names for the variables. -/

def Unused.rename (f : String → String) (u : Unused) : Unused :=
  { u with bound := u.bound.map (Binding.rename f) }

section Renaming

variable {f : String → String} {names : Set String}

namespace Unused

theorem next_rename (f : String → String) (u : Unused) (side : Side) :
    (u.rename f).next side = u.next side := by
  cases side <;> rfl

theorem use_rename (hf : names.InjOn f) (label : Side → String) {u : Unused} {x : String}
    (hu : ∀ b ∈ u.bound, b.name ∈ names) (hx : x ∈ names) :
    (u.rename f).use label (f x) = ((u.use label x).map (Prod.map id (Unused.rename f))).mapError
      (BindingError.rename f) := by
  have hfilter : (u.rename f).bound.filter (fun b => b.name != f x) =
      (u.bound.filter fun b => b.name != x).map (Binding.rename f) := by
    rw [Unused.rename, List.filter_map]
    refine congrArg _ (List.filter_congr fun b hb => ?_)
    exact congrArg (!·) (name_rename_beq hf (hu b hb) hx)
  have hfind : (u.rename f).bound.find? (fun b => b.name == f x) =
      (u.bound.find? fun b => b.name == x).map (Binding.rename f) := find?_rename hf hu hx
  unfold use
  rw [hfilter, hfind]
  cases u.bound.find? fun b => b.name == x with
  | none => rfl
  | some b =>
      simp only [Option.map_some, next_rename, Binding.rename]
      split
      · rfl
      · cases b.side <;> rfl

/-- Nothing is bound anew. -/
theorem bound_of_use {label : Side → String} {u u' : Unused} {x : String} {side : Side}
    (h : u.use label x = .ok (side, u')) : ∀ b ∈ u'.bound, b ∈ u.bound := by
  unfold use at h
  split at h
  · cases h
  · split at h
    · cases h
    · split at h
      all_goals
        cases h
        exact fun b hb => (List.mem_filter.mp hb).1

theorem bound_of_useArg {label : Side → String} {u u' : Unused} {xs : List String}
    {sides : List Side} (h : u.useArg label xs = .ok (sides, u')) :
    ∀ b ∈ u'.bound, b ∈ u.bound := by
  induction xs generalizing u sides with
  | nil =>
      cases h
      exact fun b hb => hb
  | cons x xs ih =>
      rw [useArg] at h
      split at h
      · cases h
      next huse =>
        split at h
        · cases h
        next hrest =>
          cases h
          exact fun b hb => bound_of_use huse b (ih hrest b hb)

theorem useArg_rename (hf : names.InjOn f) (label : Side → String) {u : Unused}
    {xs : List String} (hu : ∀ b ∈ u.bound, b.name ∈ names) (hxs : ∀ x ∈ xs, x ∈ names) :
    (u.rename f).useArg label (xs.map f) =
      ((u.useArg label xs).map (Prod.map id (Unused.rename f))).mapError
        (BindingError.rename f) := by
  induction xs generalizing u with
  | nil => rfl
  | cons x xs ih =>
      rw [List.map_cons, useArg, useArg, use_rename hf label hu (hxs x List.mem_cons_self)]
      cases huse : u.use label x with
      | error e => rfl
      | ok r =>
          have hrest := ih (u := r.2) (fun b hb => hu b (bound_of_use huse b hb))
            (fun y hy => hxs y (List.mem_cons_of_mem _ hy))
          dsimp only [Except.map, Except.mapError, Prod.map]
          rw [hrest]
          cases r.2.useArg label xs <;> rfl

theorem useArgs_rename (hf : names.InjOn f) (label : Side → String) {u : Unused}
    {args : List (List String)} (hu : ∀ b ∈ u.bound, b.name ∈ names)
    (hargs : ∀ x ∈ args.flatten, x ∈ names) :
    (u.rename f).useArgs label (args.map fun arg => arg.map f) =
      ((u.useArgs label args).map (Prod.map id (Unused.rename f))).mapError
        (BindingError.rename f) := by
  induction args generalizing u with
  | nil => rfl
  | cons arg args ih =>
      rw [List.flatten_cons] at hargs
      rw [List.map_cons, useArgs, useArgs,
        useArg_rename hf label hu fun x hx => hargs x (List.mem_append_left _ hx)]
      cases harg : u.useArg label arg with
      | error e => rfl
      | ok r =>
          have hrest := ih (u := r.2) (fun b hb => hu b (bound_of_useArg harg b hb))
            (fun x hx => hargs x (List.mem_append_right _ hx))
          dsimp only [Except.map, Except.mapError, Prod.map]
          rw [hrest]
          cases r.2.useArgs label args <;> rfl

end Unused

end Renaming

end Discontinuous.Script
