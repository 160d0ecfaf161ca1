import Discontinuous.Proofs.Representation

/-!
Which yield functions clauses may have. The table of join types lists a closed set: one or two
arguments that are not empty, at most two variables of each child, the first one of the left child,
and no two neighbours in an argument from the same child, since these could be one variable.
-/
namespace Discontinuous

def Side.other : Side → Side
  | left => right
  | right => left

theorem Side.eq_other_of_ne {side side' : Side} (h : side ≠ side') : side' = side.other := by
  revert h
  cases side <;> cases side' <;> decide

namespace Yield

/-- What is asked of the yield function of a clause with a single child, or with two. -/
structure Closed (y : Yield) (unary : Bool) : Prop where
  args : y.arity = 1 ∨ y.arity = 2
  filled : ∀ arg ∈ y, arg ≠ []
  first : y.flatten.head? = some .left
  left : y.childArity .left ≤ 2
  right : if unary then y.childArity .right = 0
    else 1 ≤ y.childArity .right ∧ y.childArity .right ≤ 2
  apart : ∀ arg ∈ y, arg.IsChain (· ≠ ·)

theorem closed_iff_and (y : Yield) (unary : Bool) : y.Closed unary ↔
    (y.arity = 1 ∨ y.arity = 2) ∧ (∀ arg ∈ y, arg ≠ []) ∧ y.flatten.head? = some .left ∧
      y.childArity .left ≤ 2 ∧ (if unary then y.childArity .right = 0
        else 1 ≤ y.childArity .right ∧ y.childArity .right ≤ 2) ∧
      ∀ arg ∈ y, arg.IsChain (· ≠ ·) :=
  ⟨fun ⟨h1, h2, h3, h4, h5, h6⟩ => ⟨h1, h2, h3, h4, h5, h6⟩,
    fun ⟨h1, h2, h3, h4, h5, h6⟩ => ⟨h1, h2, h3, h4, h5, h6⟩⟩

instance (y : Yield) (unary : Bool) : Decidable (y.Closed unary) :=
  decidable_of_iff' _ (closed_iff_and y unary)

/-- Variables of the two children in turn, `n` of them, one of `side` first. -/
def inTurn : Side → Nat → List Side
  | _, 0 => []
  | side, n + 1 => side :: inTurn side.other n

/-- Where no two neighbours come from the same child, the first variable settles the others. -/
theorem eq_inTurn (side : Side) (arg : List Side) (h : (side :: arg).IsChain (· ≠ ·)) :
    side :: arg = inTurn side (arg.length + 1) := by
  induction arg generalizing side with
  | nil => rfl
  | cons side' arg ih =>
      obtain ⟨hne, hrest⟩ := List.isChain_cons_cons.mp h
      obtain rfl := Side.eq_other_of_ne hne
      exact congrArg (side :: ·) (ih _ hrest)

theorem count_inTurn (side : Side) (n : Nat) : (inTurn side n).count side = (n + 1) / 2 ∧
    (inTurn side n).count side.other = n / 2 := by
  induction n generalizing side with
  | zero => exact ⟨rfl, rfl⟩
  | succ n ih =>
      have hback : side.other.other = side := by cases side <;> rfl
      have hne : side ≠ side.other := by cases side <;> decide
      obtain ⟨hfirst, hsecond⟩ := ih side.other
      rw [hback] at hsecond
      rw [inTurn, List.count_cons_self, List.count_cons_of_ne hne, hfirst, hsecond]
      omega

/-- Two variables of each child leave room for four of them in an argument. -/
theorem length_le_of_inTurn {side : Side} {n : Nat} (hleft : (inTurn side n).count .left ≤ 2)
    (hright : (inTurn side n).count .right ≤ 2) : n < 5 := by
  obtain ⟨hfirst, hsecond⟩ := count_inTurn side n
  cases side with
  | left =>
      rw [hfirst] at hleft
      rw [show Side.right = Side.left.other from rfl, hsecond] at hright
      omega
  | right =>
      rw [hfirst] at hright
      rw [show Side.left = Side.right.other from rfl, hsecond] at hleft
      omega

theorem Closed.childArity_le {y : Yield} {unary : Bool} (h : y.Closed unary) (side : Side) :
    y.childArity side ≤ 2 := by
  cases side with
  | left => exact h.left
  | right =>
      have hright := h.right
      split at hright <;> omega

/-- An argument is settled by its first variable and its length, which is less than five. -/
theorem Closed.exists_inTurn {y : Yield} {unary : Bool} (h : y.Closed unary) {arg : List Side}
    (harg : arg ∈ y) :
    ∃ (side : Side) (n : Fin 5), arg = inTurn side n ∧ arg.head? = some side := by
  cases arg with
  | nil => exact absurd rfl (h.filled [] harg)
  | cons side rest =>
      have heq := eq_inTurn side rest (h.apart _ harg)
      have hle : ∀ child, (inTurn side (rest.length + 1)).count child ≤ 2 := by
        intro child
        rw [← heq]
        exact (List.Sublist.count_le child (List.sublist_flatten_of_mem harg)).trans
          (h.childArity_le child)
      exact ⟨side, ⟨rest.length + 1, length_le_of_inTurn (hle .left) (hle .right)⟩, heq, rfl⟩

theorem exists_joinType_of_one (n : Fin 5) (unary : Bool) (h : Closed [inTurn .left n] unary) :
    ∃ jt ∈ JoinType.all, jt.yield = [inTurn .left n] ∧ jt.isUnary = unary := by
  revert n unary
  decide

theorem exists_joinType_of_two (side : Side) (n m : Fin 5) (unary : Bool)
    (h : Closed [inTurn .left n, inTurn side m] unary) :
    ∃ jt ∈ JoinType.all, jt.yield = [inTurn .left n, inTurn side m] ∧ jt.isUnary = unary := by
  revert n m unary
  cases side <;> decide

/-- The closed yield functions are those of the join types. -/
theorem closed_iff_exists_joinType (y : Yield) (unary : Bool) :
    y.Closed unary ↔ ∃ jt : JoinType, jt.yield = y ∧ jt.isUnary = unary := by
  constructor
  · intro h
    have hfirst := h.first
    rcases h.args with hone | htwo
    · obtain ⟨arg, rfl⟩ := List.length_eq_one_iff.mp hone
      obtain ⟨side, n, rfl, hhead⟩ := h.exists_inTurn List.mem_cons_self
      obtain rfl : side = .left := by simpa [hhead] using hfirst
      obtain ⟨jt, -, hjt⟩ := exists_joinType_of_one n unary h
      exact ⟨jt, hjt⟩
    · obtain ⟨arg, arg', rfl⟩ := List.length_eq_two.mp htwo
      obtain ⟨side, n, rfl, hhead⟩ := h.exists_inTurn List.mem_cons_self
      obtain ⟨side', m, rfl, -⟩ := h.exists_inTurn (List.mem_cons_of_mem _ List.mem_cons_self)
      obtain rfl : side = .left := by simpa [hhead] using hfirst
      obtain ⟨jt, -, hjt⟩ := exists_joinType_of_two side' n m unary h
      exact ⟨jt, hjt⟩
  · rintro ⟨jt, rfl, rfl⟩
    cases jt <;> decide

/-- Why a yield function that is not closed is refused: the clause should have another number of
children, or there is no such shape at all. -/
def refusal (y : Yield) (unary : Bool) : ShapeError :=
  if y.Closed !unary then if unary then .binaryShape y else .unaryShape y else .unknown y

theorem classify_of_joinType (jt : JoinType) (unary : Bool) : jt.yield.classify unary =
    if jt.isUnary = unary then .ok jt
    else if unary then .error (.binaryShape jt.yield) else .error (.unaryShape jt.yield) := by
  cases jt <;> cases unary <;> rfl

theorem classify_of_not_closed {y : Yield} {unary : Bool} (h : ¬ y.Closed unary) :
    y.classify unary = .error (y.refusal unary) := by
  have hnot : ∀ jt : JoinType, jt.yield = y → jt.isUnary ≠ unary := fun jt hy hu =>
    h ((closed_iff_exists_joinType y unary).mpr ⟨jt, hy, hu⟩)
  unfold refusal
  by_cases hother : y.Closed !unary
  · rw [if_pos hother]
    obtain ⟨jt, rfl, -⟩ := (closed_iff_exists_joinType y _).mp hother
    rw [classify_of_joinType, if_neg (hnot jt rfl)]
    cases unary <;> rfl
  · rw [if_neg hother]
    have hnone : JoinType.all.find? (fun jt => jt.yield == y) = none := by
      apply List.find?_eq_none.mpr
      intro jt _ hjt
      have hy : jt.yield = y := by simpa using hjt
      apply hother
      refine (closed_iff_exists_joinType y _).mpr ⟨jt, hy, ?_⟩
      have hne := hnot jt hy
      cases hu : jt.isUnary <;> cases unary <;> simp_all
    unfold classify
    rw [hnone]

/-- Exactly the closed yield functions have a join type. It tells the arities and the number of
children, and no other yield function has it; all else is refused as an unsupported shape. -/
theorem classify_closed (y : Yield) (unary : Bool) :
    ((∃ jt, y.classify unary = .ok jt) ↔ y.Closed unary) ∧
      (¬ y.Closed unary → y.classify unary = .error (y.refusal unary) ∧
        ∃ text, (y.refusal unary).message = text ++ ": unsupported grammar shape") ∧
      ∀ jt, y.classify unary = .ok jt →
        jt.arity = y.arity ∧ (∀ side, jt.childArity side = y.childArity side) ∧
          jt.isUnary = unary ∧
          ∀ y' unary', y'.classify unary' = .ok jt → y' = y ∧ unary' = unary := by
  refine ⟨⟨?_, ?_⟩, ?_, ?_⟩
  · rintro ⟨jt, h⟩
    exact (closed_iff_exists_joinType y unary).mpr ⟨jt, classify_ok h⟩
  · intro h
    obtain ⟨jt, rfl, rfl⟩ := (closed_iff_exists_joinType y unary).mp h
    exact ⟨jt, jt.classify_yield⟩
  · intro h
    exact ⟨classify_of_not_closed h, _, rfl⟩
  · intro jt h
    obtain ⟨rfl, rfl⟩ := classify_ok h
    refine ⟨rfl, fun _ => rfl, rfl, ?_⟩
    intro y' unary' h'
    obtain ⟨rfl, rfl⟩ := classify_ok h'
    exact ⟨rfl, rfl⟩

/-- A shape that fits, the same one for a single child, and one with the right child in front. -/
theorem classify_closed_wrapped :
    Closed [[.left], [.right, .left, .right]] false ∧
      classify [[.left], [.right, .left, .right]] false = .ok .wrapSecond ∧
      (∀ y unary, classify y unary = .ok .wrapSecond →
        y = [[.left], [.right, .left, .right]] ∧ unary = false) ∧
      classify [[.left], [.right, .left, .right]] true =
        .error (.binaryShape [[.left], [.right, .left, .right]]) ∧
      ¬ Closed [[.right, .left]] false ∧
      classify [[.right, .left]] false = .error (.unknown [[.right, .left]]) := by
  refine ⟨by decide, rfl, ?_, ?_, by decide, ?_⟩
  · exact ((classify_closed [[.left], [.right, .left, .right]] false).2.2 _ rfl).2.2.2
  · exact ((classify_closed [[.left], [.right, .left, .right]] true).2.1 (by decide)).1
  · exact ((classify_closed [[.right, .left]] false).2.1 (by decide)).1

end Yield

end Discontinuous
