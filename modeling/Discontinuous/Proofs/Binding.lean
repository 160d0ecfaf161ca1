import Discontinuous.Script.Binding
import Mathlib

/-!
What the children of a clause bind. Each argument is to be a variable of its own, and variables are
told apart by their names only.
-/
namespace Discontinuous.Script

/-- The arguments of a child. There are none of a child that is missing. -/
def childArgs (left : Predicate) (right : Option Predicate) : Side → List (List String)
  | .left => left.args
  | .right => (right.map Predicate.args).getD []

def childLabel (left : Predicate) (right : Option Predicate) : Side → String
  | .left => left.label
  | .right => (right.map Predicate.label).getD ""

def childVars (left : Predicate) (right : Option Predicate) (side : Side) : List String :=
  (childArgs left right side).flatten

/-- The children tell their variables apart, one for each argument. -/
structure Separate (left : Predicate) (right : Option Predicate) : Prop where
  single : ∀ side, ∀ arg ∈ childArgs left right side, ∃ x, arg = [x]
  distinct : (childVars left right .left ++ childVars left right .right).Nodup

instance : Fintype Side := ⟨{.left, .right}, fun side => by cases side <;> decide⟩

instance {left : Predicate} {right : Option Predicate} : Decidable (Separate left right) :=
  decidable_of_iff
    ((∀ side, ∀ arg ∈ childArgs left right side, arg.length = 1) ∧
      (childVars left right .left ++ childVars left right .right).Nodup)
    ⟨fun h => ⟨fun side arg harg => List.length_eq_one_iff.mp (h.1 side arg harg), h.2⟩,
      fun h => ⟨fun side arg harg => List.length_eq_one_iff.mpr (h.single side arg harg),
        h.distinct⟩⟩

/-- The error is one of syntax, as its text says. -/
def BindingError.OfSyntax (e : BindingError) : Prop := ∃ text, e.message = text ++ ": syntax error"

/-- The clause is well written, and of a shape that is not supported. -/
def BindingError.OfShape (e : BindingError) : Prop :=
  ∃ text, e.message = text ++ ": unsupported grammar shape"

namespace BindingError

theorem ofShape_outOfOrder (label : String) : (outOfOrder label).OfShape :=
  ⟨"variables of " ++ label ++ " out of order", by rw [String.append_assoc]; rfl⟩

/-- All other errors are of syntax. -/
theorem ofSyntax_of_ne {e : BindingError} (h : ∀ label, e ≠ outOfOrder label) : e.OfSyntax := by
  cases e with
  | notSingle position label =>
      refine ⟨"argument " ++ toString position ++ " of " ++ label ++
        " is not a single variable", ?_⟩
      rw [String.append_assoc]
      rfl
  | usedTwice name => exact ⟨"variable " ++ name ++ " used twice", by rw [String.append_assoc]; rfl⟩
  | unbound name =>
      exact ⟨"variable " ++ name ++ " not bound by a child", by rw [String.append_assoc]; rfl⟩
  | outOfOrder label => exact absurd rfl (h label)
  | unused name => exact ⟨"variable " ++ name ++ " unused", by rw [String.append_assoc]; rfl⟩

theorem not_ofShape_of_ofSyntax {e : BindingError} (h : e.OfSyntax) : ¬ e.OfShape := by
  obtain ⟨text, htext⟩ := h
  rintro ⟨text', htext'⟩
  have hlast := congrArg (fun s : String => s.toList.getLast?) (htext.symm.trans htext')
  simp [String.toList_append] at hlast

/-- An error is of one of the two kinds, and only the order of variables makes it one of shape. -/
theorem ofShape_iff (e : BindingError) :
    (e.OfShape ↔ ∃ label, e = outOfOrder label) ∧ (e.OfSyntax ↔ ¬ e.OfShape) := by
  by_cases he : ∃ label, e = outOfOrder label
  · have hshape : e.OfShape := by
      obtain ⟨label, rfl⟩ := he
      exact ofShape_outOfOrder label
    exact ⟨iff_of_true hshape he,
      iff_of_false (fun h => not_ofShape_of_ofSyntax h hshape) (not_not.mpr hshape)⟩
  · have hsyntax : e.OfSyntax := ofSyntax_of_ne fun label heq => he ⟨label, heq⟩
    have hshape := not_ofShape_of_ofSyntax hsyntax
    exact ⟨iff_of_false hshape he, iff_of_true hsyntax hshape⟩

end BindingError

/-! The variables of the children. -/

namespace Binding

/-- Variables with the numbers of their arguments. -/
def numbered (side : Side) (index : Nat) (xs : List String) : List Binding :=
  (xs.zipIdx index).map fun (x, i) => ⟨x, side, i⟩

theorem mem_numbered {side : Side} {xs : List String} {b : Binding} :
    b ∈ numbered side 0 xs ↔ b.side = side ∧ xs[b.index]? = some b.name := by
  unfold numbered
  rw [List.mem_map]
  constructor
  · rintro ⟨⟨x, i⟩, hmem, rfl⟩
    exact ⟨rfl, List.mem_zipIdx_iff_getElem?.mp hmem⟩
  · rintro ⟨rfl, hmem⟩
    exact ⟨(b.name, b.index), List.mem_zipIdx_iff_getElem?.mpr hmem, rfl⟩

theorem mem_of_mem_numbered {side : Side} {xs : List String} {b : Binding}
    (h : b ∈ numbered side 0 xs) : b.name ∈ xs :=
  List.mem_of_getElem? (mem_numbered.mp h).2

theorem any_name_iff {bound : List Binding} {x : String} :
    (bound.any fun b => b.name == x) = true ↔ x ∈ bound.map Binding.name := by
  simp [List.any_eq_true]

theorem ofArgs_of_distinct (label : String) (side : Side) (bound : List Binding) (index : Nat)
    {args : List (List String)} (hsingle : ∀ arg ∈ args, ∃ x, arg = [x])
    (hdistinct : (bound.map Binding.name ++ args.flatten).Nodup) :
    ofArgs label side bound index args = .ok (bound ++ numbered side index args.flatten) := by
  induction args generalizing bound index with
  | nil => simp [ofArgs, numbered]
  | cons arg args ih =>
      obtain ⟨x, rfl⟩ := hsingle arg List.mem_cons_self
      have hnew : x ∉ bound.map Binding.name := fun hx =>
        (List.nodup_append.mp hdistinct).2.2 x hx x List.mem_cons_self rfl
      rw [ofArgs, if_neg (fun h => hnew (any_name_iff.mp h)), ih]
      · simp [numbered]
      · exact fun arg harg => hsingle arg (List.mem_cons_of_mem _ harg)
      · simpa using hdistinct

theorem distinct_of_ofArgs {label : String} {side : Side} {bound bound' : List Binding}
    {index : Nat} {args : List (List String)} (hbound : (bound.map Binding.name).Nodup)
    (h : ofArgs label side bound index args = .ok bound') :
    (∀ arg ∈ args, ∃ x, arg = [x]) ∧ (bound.map Binding.name ++ args.flatten).Nodup := by
  fun_induction ofArgs label side bound index args with
  | case1 bound index => simpa using hbound
  | case2 => cases h
  | case3 bound index x args hnew ih =>
      have hx : x ∉ bound.map Binding.name := fun hx => hnew (any_name_iff.mpr hx)
      have hnames : ((bound ++ [Binding.mk x side index]).map Binding.name).Nodup := by
        rw [List.map_append]
        exact hbound.append (List.nodup_singleton x) (List.disjoint_singleton.mpr hx)
      obtain ⟨hsingle, hdistinct⟩ := ih hnames h
      refine ⟨?_, by simpa using hdistinct⟩
      intro arg harg
      rcases List.mem_cons.mp harg with rfl | harg
      · exact ⟨x, rfl⟩
      · exact hsingle arg harg
  | case4 => cases h

theorem eq_of_ofArgs {label : String} {side : Side} {bound bound' : List Binding} {index : Nat}
    {args : List (List String)} (hbound : (bound.map Binding.name).Nodup)
    (h : ofArgs label side bound index args = .ok bound') :
    bound' = bound ++ numbered side index args.flatten := by
  obtain ⟨hsingle, hdistinct⟩ := distinct_of_ofArgs hbound h
  rw [ofArgs_of_distinct label side bound index hsingle hdistinct] at h
  cases h
  rfl

theorem ofSyntax_of_ofArgs {label : String} {side : Side} {bound : List Binding}
    {index : Nat} {args : List (List String)} {e : BindingError}
    (h : ofArgs label side bound index args = .error e) : e.OfSyntax := by
  fun_induction ofArgs label side bound index args with
  | case1 => cases h
  | case2 =>
      cases h
      exact BindingError.ofSyntax_of_ne nofun
  | case3 bound index x args hnew ih => exact ih h
  | case4 =>
      cases h
      exact BindingError.ofSyntax_of_ne nofun

variable {left : Predicate} {right : Option Predicate}

theorem ofChildren_eq (left : Predicate) (right : Option Predicate) : ofChildren left right =
    (ofArgs left.label .left [] 0 (childArgs left right .left)).bind fun bound =>
      ofArgs (childLabel left right .right) .right bound 0 (childArgs left right .right) := by
  unfold ofChildren
  cases hleft : ofArgs left.label .left [] 0 left.args <;> cases right <;>
    simp [childArgs, ofArgs, Except.bind, childLabel, hleft]

theorem names_numbered (side : Side) (index : Nat) (xs : List String) :
    (numbered side index xs).map Binding.name = xs := by
  simp [numbered, Function.comp_def]

theorem ofChildren_of_separate (h : Separate left right) : ofChildren left right =
    .ok (numbered .left 0 (childVars left right .left) ++
      numbered .right 0 (childVars left right .right)) := by
  have hleft := ofArgs_of_distinct left.label .left [] 0 (h.single .left)
    (List.nodup_append.mp h.distinct).1
  have hright := ofArgs_of_distinct (childLabel left right .right) .right
    (numbered .left 0 (childVars left right .left)) 0 (h.single .right) (by
      rw [names_numbered]
      exact h.distinct)
  rw [ofChildren_eq, hleft]
  exact hright

theorem separate_of_ofChildren {bound : List Binding} (h : ofChildren left right = .ok bound) :
    Separate left right := by
  rw [ofChildren_eq] at h
  cases hleft : ofArgs left.label .left [] 0 (childArgs left right .left) with
  | error e =>
      rw [hleft] at h
      cases h
  | ok first =>
      have hnil : (([] : List Binding).map Binding.name).Nodup := List.nodup_nil
      -- what the left child binds is told apart, and the right child goes on from there
      obtain ⟨hsingle, hdistinct⟩ := distinct_of_ofArgs hnil hleft
      rw [ofArgs_of_distinct left.label .left [] 0 hsingle hdistinct] at h
      obtain ⟨hsingle', hdistinct'⟩ := distinct_of_ofArgs (by
        rw [List.nil_append, names_numbered]
        exact hdistinct) h
      rw [List.nil_append, names_numbered] at hdistinct'
      refine ⟨?_, hdistinct'⟩
      intro side
      cases side with
      | left => exact hsingle
      | right => exact hsingle'

theorem exists_side_of_ofChildren {bound : List Binding} {b : Binding}
    (h : ofChildren left right = .ok bound) (hb : b ∈ bound) :
    ∃ side, b.name ∈ childVars left right side := by
  rw [ofChildren_of_separate (separate_of_ofChildren h)] at h
  cases h
  rcases List.mem_append.mp hb with hb | hb
  · exact ⟨.left, mem_of_mem_numbered hb⟩
  · exact ⟨.right, mem_of_mem_numbered hb⟩

theorem ofSyntax_of_ofChildren {e : BindingError} (h : ofChildren left right = .error e) :
    e.OfSyntax := by
  unfold ofChildren at h
  split at h
  next hleft =>
    cases h
    exact ofSyntax_of_ofArgs hleft
  next => cases h
  next => exact ofSyntax_of_ofArgs h

end Binding

/-! Other names for the variables. -/

def Predicate.rename (f : String → String) (p : Predicate) : Predicate :=
  ⟨p.label, p.args.map fun arg => arg.map f⟩

def BindingError.rename (f : String → String) : BindingError → BindingError
  | notSingle position label => notSingle position label
  | usedTwice name => usedTwice (f name)
  | unbound name => unbound (f name)
  | outOfOrder label => outOfOrder label
  | unused name => unused (f name)

theorem BindingError.ofShape_rename (f : String → String) (e : BindingError) :
    (e.rename f).OfShape ↔ e.OfShape := by
  rw [(ofShape_iff _).1, (ofShape_iff e).1]
  cases e <;> simp [rename]

def Binding.rename (f : String → String) (b : Binding) : Binding := { b with name := f b.name }

section Renaming

variable {f : String → String} {names : Set String}

theorem name_rename_beq (hf : names.InjOn f) {b : Binding} {x : String} (hb : b.name ∈ names)
    (hx : x ∈ names) : ((b.rename f).name == f x) = (b.name == x) := by
  rw [Bool.eq_iff_iff, beq_iff_eq, beq_iff_eq]
  exact hf.eq_iff hb hx

/-- A renamed variable is found where it was. -/
theorem find?_rename (hf : names.InjOn f) {bound : List Binding} {x : String}
    (hbound : ∀ b ∈ bound, b.name ∈ names) (hx : x ∈ names) :
    (bound.map (Binding.rename f)).find? (fun b => b.name == f x) =
      (bound.find? fun b => b.name == x).map (Binding.rename f) := by
  rw [List.find?_map]
  exact congrArg _ (List.find?_congr fun b hb => name_rename_beq hf (hbound b hb) hx)

theorem Binding.ofArgs_rename (hf : names.InjOn f) (label : String) (side : Side)
    (bound : List Binding) (index : Nat) {args : List (List String)}
    (hbound : ∀ b ∈ bound, b.name ∈ names) (hargs : ∀ x ∈ args.flatten, x ∈ names) :
    ofArgs label side (bound.map (Binding.rename f)) index (args.map fun arg => arg.map f) =
      ((ofArgs label side bound index args).map (List.map (Binding.rename f))).mapError
        (BindingError.rename f) := by
  have hany : ∀ {bound : List Binding} {x : String}, (∀ b ∈ bound, b.name ∈ names) → x ∈ names →
      ((bound.map (Binding.rename f)).any fun b => b.name == f x) =
        bound.any fun b => b.name == x := by
    intro bound x hbound hx
    rw [← List.isSome_find?, ← List.isSome_find?, find?_rename hf hbound hx, Option.isSome_map]
  fun_induction ofArgs label side bound index args with
  | case1 => rfl
  | case2 bound index x args hdup =>
      have hx : x ∈ names := hargs x List.mem_cons_self
      rw [List.map_cons, List.map_singleton, ofArgs, hany hbound hx, if_pos hdup]
      rfl
  | case3 bound index x args hnew ih =>
      have hx : x ∈ names := hargs x List.mem_cons_self
      rw [List.map_cons, List.map_singleton, ofArgs, hany hbound hx, if_neg hnew, ← ih]
      · rw [List.map_append]
        rfl
      · intro b hb
        rcases List.mem_append.mp hb with hb | hb
        · exact hbound b hb
        · rw [List.mem_singleton.mp hb]
          exact hx
      · exact fun y hy => hargs y (List.mem_cons_of_mem _ hy)
  | case4 bound index arg args hnot =>
      rcases arg with - | ⟨x, - | ⟨y, ys⟩⟩
      · rfl
      · exact absurd rfl (hnot x)
      · rfl

theorem childArgs_rename (f : String → String) (left : Predicate) (right : Option Predicate)
    (side : Side) : childArgs (left.rename f) (right.map (Predicate.rename f)) side =
      (childArgs left right side).map fun arg => arg.map f := by
  cases side with
  | left => rfl
  | right => cases right <;> rfl

theorem childLabel_rename (f : String → String) (left : Predicate) (right : Option Predicate) :
    childLabel (left.rename f) (right.map (Predicate.rename f)) = childLabel left right := by
  funext side
  cases side with
  | left => rfl
  | right => cases right <;> rfl

theorem Binding.ofChildren_rename (left : Predicate) (right : Option Predicate)
    (hf : names.InjOn f) (hnames : ∀ side, ∀ x ∈ childVars left right side, x ∈ names) :
    ofChildren (left.rename f) (right.map (Predicate.rename f)) =
      ((ofChildren left right).map (List.map (Binding.rename f))).mapError
        (BindingError.rename f) := by
  have hnil : (([] : List Binding).map Binding.name).Nodup := List.nodup_nil
  have hfirst := ofArgs_rename hf left.label .left [] 0 nofun (hnames .left)
  rw [ofChildren_eq, ofChildren_eq, childArgs_rename, childArgs_rename, childLabel_rename]
  refine (congrArg (Except.bind · _) hfirst).trans ?_
  cases hleft : ofArgs left.label .left [] 0 (childArgs left right .left) with
  | error e => rfl
  | ok bound =>
      refine ofArgs_rename hf _ .right bound 0 ?_ (hnames .right)
      intro b hb
      rw [eq_of_ofArgs hnil hleft, List.nil_append] at hb
      exact hnames .left b.name (mem_of_mem_numbered hb)

end Renaming

end Discontinuous.Script
