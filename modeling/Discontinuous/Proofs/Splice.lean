import Discontinuous.Proofs.Grammar
import Discontinuous.Proofs.Join

/-!
Splicing: what a yield function says about the ranges of children, whatever its shape. The ranges
of each child are dealt out in order, those of one argument have to meet, and the arguments have to
make up a span. Every join type does what splicing by its yield function does.
-/
namespace Discontinuous

namespace Span

/-- The ranges in order, each by its two ends. -/
def ranges (s : Span) : List (Int × Int) :=
  if s.l2 = unset then [(s.l1, s.r1)] else [(s.l1, s.r1), (s.l2, s.r2)]

/-- The span of one or two ranges, not necessarily a valid one. -/
def ofRanges? : List (Int × Int) → Option Span
  | [x] => some (one x.1 x.2)
  | [x, y] => some (two x.1 x.2 y.1 y.2)
  | _ => none

theorem length_ranges (s : Span) : s.ranges.length = s.arity := by
  simp only [ranges, arity]
  split <;> rfl

theorem ofRanges?_ranges {s : Span} (hs : s.Valid) : ofRanges? s.ranges = some s := by
  obtain ⟨-, -, hs⟩ := hs
  simp only [ranges]
  split
  next hl =>
    rw [if_pos hl] at hs
    obtain ⟨l1, r1, l2, r2⟩ := s
    cases hl
    cases hs
    rfl
  next => rfl

end Span

namespace Yield

/-- The ranges of the two children that no variable has taken so far. -/
structure Supply where
  left : List (Int × Int)
  right : List (Int × Int)
deriving DecidableEq

namespace Supply

/-- The ranges of one of the children. -/
def of (supply : Supply) : Side → List (Int × Int)
  | .left => supply.left
  | .right => supply.right

/-- A variable takes the next range of its child. -/
def take (supply : Supply) : Side → Option ((Int × Int) × Supply)
  | .left =>
    match supply.left with
    | [] => none
    | x :: left => some (x, { supply with left })
  | .right =>
    match supply.right with
    | [] => none
    | x :: right => some (x, { supply with right })

theorem length_take {supply rest : Supply} {side : Side} {x : Int × Int}
    (h : supply.take side = some (x, rest)) (child : Side) :
    (supply.of child).length = [side].count child + (rest.of child).length := by
  obtain ⟨left, right⟩ := supply
  cases side with
  | left =>
      cases left with
      | nil => cases h
      | cons y left =>
          cases h
          cases child with
          | left => simp [of, Nat.add_comm]
          | right => simp [of]
  | right =>
      cases right with
      | nil => cases h
      | cons y right =>
          cases h
          cases child with
          | left => simp [of]
          | right => simp [of, Nat.add_comm]

end Supply

/-- The ranges that the variables of an argument take, and what they leave. -/
def dealArgument : List Side → Supply → Option (List (Int × Int) × Supply)
  | [], supply => some ([], supply)
  | side :: arg, supply => do
    let (x, supply) ← supply.take side
    let (xs, supply) ← dealArgument arg supply
    return (x :: xs, supply)

def deal : Yield → Supply → Option (List (List (Int × Int)) × Supply)
  | [], supply => some ([], supply)
  | arg :: y, supply => do
    let (xs, supply) ← dealArgument arg supply
    let (xss, supply) ← deal y supply
    return (xs :: xss, supply)

/-- Each range starts where the one before it stops. -/
def Meet (arg : List (Int × Int)) : Prop := arg.IsChain fun x y => y.1 = x.2

instance (arg : List (Int × Int)) : Decidable (Meet arg) := by
  unfold Meet
  infer_instance

/-- From the start of the first range to the stop of the last. Without any it is empty. -/
def hull (arg : List (Int × Int)) : Int × Int := ((arg.headD (0, 0)).1, (arg.getLastD (0, 0)).2)

/-- The parent's span by a yield function, given the spans of one or two children. All of their
ranges have to be used up. -/
def splice (y : Yield) (b : Span) (c : Option Span) : Option Span := do
  let (args, rest) ← y.deal ⟨b.ranges, (c.map Span.ranges).getD []⟩
  let s ← Span.ofRanges? (args.map hull)
  if rest = ⟨[], []⟩ ∧ (∀ arg ∈ args, Meet arg) ∧ s.Valid then some s else none

theorem length_dealArgument {arg : List Side} {supply rest : Supply} {xs : List (Int × Int)}
    (h : dealArgument arg supply = some (xs, rest)) (child : Side) :
    (supply.of child).length = arg.count child + (rest.of child).length := by
  induction arg generalizing supply xs with
  | nil =>
      cases h
      simp
  | cons side arg ih =>
      obtain ⟨⟨x, supply'⟩, htake, h⟩ := Option.bind_eq_some_iff.mp h
      obtain ⟨⟨ys, rest'⟩, hys, heq⟩ := Option.bind_eq_some_iff.mp h
      cases heq
      have hfirst := Supply.length_take htake child
      have hothers := ih hys
      rw [← List.singleton_append, List.count_append]
      omega

/-- Every variable takes one range. -/
theorem length_deal {y : Yield} {supply rest : Supply} {xss : List (List (Int × Int))}
    (h : y.deal supply = some (xss, rest)) (child : Side) :
    (supply.of child).length = y.childArity child + (rest.of child).length := by
  induction y generalizing supply xss with
  | nil =>
      cases h
      simp [childArity]
  | cons arg y ih =>
      obtain ⟨⟨xs, supply'⟩, harg, h⟩ := Option.bind_eq_some_iff.mp h
      obtain ⟨⟨yss, rest'⟩, hyss, heq⟩ := Option.bind_eq_some_iff.mp h
      cases heq
      have hfirst := length_dealArgument harg child
      have hothers := ih hyss
      simp only [childArity, List.flatten_cons, List.count_append] at hothers ⊢
      omega

theorem splice_eq_some_iff {y : Yield} {b s : Span} {c : Option Span} :
    y.splice b c = some s ↔ ∃ args, y.deal ⟨b.ranges, (c.map Span.ranges).getD []⟩ =
      some (args, ⟨[], []⟩) ∧ (∀ arg ∈ args, Meet arg) ∧ Span.ofRanges? (args.map hull) = some s ∧
        s.Valid := by
  constructor
  · intro h
    obtain ⟨⟨args, rest⟩, hargs, h⟩ := Option.bind_eq_some_iff.mp h
    obtain ⟨s', hs', h⟩ := Option.bind_eq_some_iff.mp h
    obtain ⟨⟨hrest, hmeet, hvalid⟩, heq⟩ := Option.ite_none_right_eq_some.mp h
    cases heq
    cases hrest
    exact ⟨args, hargs, hmeet, hs', hvalid⟩
  · rintro ⟨args, hargs, hmeet, hs, hvalid⟩
    simp only [splice, hargs, hs, Option.bind_eq_bind, Option.bind_some]
    exact if_pos ⟨trivial, hmeet, hvalid⟩

/-- Children that are spliced have as many ranges as there are variables of theirs. -/
theorem arity_of_splice {y : Yield} {b s : Span} {c : Option Span} (h : y.splice b c = some s) :
    b.arity = y.childArity .left ∧ (c.map Span.arity).getD 0 = y.childArity .right := by
  obtain ⟨args, hargs, -⟩ := splice_eq_some_iff.mp h
  have hleft := length_deal hargs .left
  have hright := length_deal hargs .right
  refine ⟨?_, ?_⟩
  · simpa [Supply.of, Span.length_ranges] using hleft
  · cases c with
    | none => simpa [Supply.of] using hright
    | some c => simpa [Supply.of, Span.length_ranges] using hright

end Yield

namespace JoinType

variable {jt : JoinType} {b c : Span}

/-- The only child is passed on as it is. -/
theorem splice_unary (hu : jt.isUnary = true) (hb : b.Valid)
    (harity : b.arity = jt.childArity .left) : jt.yield.splice b none = some b := by
  have hwhole := Span.ofRanges?_ranges hb
  cases jt
  case copyOne =>
    have hl := (Span.arity_eq_one_iff b).mp harity
    simp only [Span.ranges, if_pos hl] at hwhole
    refine Yield.splice_eq_some_iff.mpr ⟨[[(b.l1, b.r1)]], ?_, by simp [Yield.Meet], hwhole, hb⟩
    simp only [Span.ranges, if_pos hl]
    rfl
  case copyTwo =>
    have hl := (Span.arity_eq_two_iff b).mp harity
    simp only [Span.ranges, if_neg hl] at hwhole
    refine Yield.splice_eq_some_iff.mpr ⟨[[(b.l1, b.r1)], [(b.l2, b.r2)]], ?_, by simp [Yield.Meet],
      hwhole, hb⟩
    simp only [Span.ranges, if_neg hl]
    rfl
  all_goals cases hu

theorem join_of_isUnary (hu : jt.isUnary = true) (harity : b.arity = jt.childArity .left) :
    jt.join b c = some b := by
  cases jt
  case copyOne | copyTwo => simp_all [join, childArity, yield, Yield.childArity]
  all_goals cases hu

theorem splice_binary (hu : jt.isUnary = false) (hb : b.Valid) (hc : c.Valid)
    (hleft : b.arity = jt.childArity .left) (hright : c.arity = jt.childArity .right) :
    jt.yield.splice b (some c) = jt.join b c := by
  unfold join Yield.splice
  rw [if_neg (by simp [hleft, hright])]
  cases jt
  case copyOne | copyTwo => cases hu
  all_goals
    simp [childArity, yield, Yield.childArity, Span.arity_eq_one_iff, Span.arity_eq_two_iff]
      at hleft hright
    simp only [yield, Yield.deal, Yield.dealArgument, Yield.Supply.take, Span.ranges, Yield.hull,
      Yield.Meet, Span.ofRanges?, hleft, hright, ↓reduceIte, Option.map_some, Option.getD_some,
      Option.pure_def, Option.bind_eq_bind, Option.bind_some, List.map_cons, List.map_nil,
      List.headD_eq_head?_getD, List.head?_cons, List.getLastD_eq_getLast?,
      List.getLast?_cons_cons, List.getLast?_singleton, List.mem_cons, List.not_mem_nil, or_false,
      forall_eq_or_imp, forall_eq, List.isChain_cons_cons, List.IsChain.singleton, and_true,
      true_and, and_self, gt_iff_lt]
    refine if_congr ?_ rfl rfl
    simp only [Span.Valid, Span.one, Span.two, Span.unset] at *
    grind

theorem join_eq_splice (hb : b.Valid) (hc : jt.isUnary = false → c.Valid) :
    jt.join b c = jt.yield.splice b (if jt.isUnary then none else some c) := by
  by_cases hfits : b.arity = jt.childArity .left ∧
      (jt.isUnary = false → c.arity = jt.childArity .right)
  · cases hu : jt.isUnary with
    | true =>
        rw [if_pos rfl, splice_unary hu hb hfits.1]
        exact join_of_isUnary hu hfits.1
    | false => exact (splice_binary hu hb (hc hu) hfits.1 (hfits.2 hu)).symm
  · -- the wrong numbers of ranges, which neither side accepts
    have hjoin : jt.join b c = none := by
      refine Option.eq_none_iff_forall_ne_some.mpr fun s h => hfits ?_
      obtain ⟨hleft, hright⟩ := arity_of_join h
      exact ⟨hleft, fun hu => hright (childArity_right_ne_zero hu)⟩
    rw [hjoin, eq_comm]
    refine Option.eq_none_iff_forall_ne_some.mpr fun s h => hfits ?_
    obtain ⟨hleft, hright⟩ := Yield.arity_of_splice h
    refine ⟨hleft, fun hu => ?_⟩
    rw [hu] at hright
    exact hright

/-- A classified clause joins its children as its yield function says. Where they join, their parent
covers what they cover, and they cover nothing in common. -/
theorem join_agrees_with_splice (y : Yield) (unary : Bool) (jt : JoinType)
    (h : y.classify unary = .ok jt) (b c : Span) (hb : b.Valid) (hc : unary = false → c.Valid) :
    jt.join b c = y.splice b (if unary then none else some c) ∧
      ∀ s, jt.join b c = some s → s.Valid ∧
        s.positions.Perm (b.positions ++ if unary then [] else c.positions) ∧
        (unary = false → b.positions.Disjoint c.positions) := by
  obtain ⟨rfl, rfl⟩ := Yield.classify_ok h
  refine ⟨join_eq_splice hb hc, ?_⟩
  intro s hs
  cases hu : jt.isUnary with
  | true =>
      rw [join_unary hu hs]
      simpa using hb
  | false =>
      have hjoined := joined_of_join hu hs hb (hc hu)
      refine ⟨hjoined.valid, hjoined.positions_perm hb (hc hu), ?_⟩
      intro _ x hx hx'
      exact hjoined.disjoint x ⟨(b.mem_positions x).mp hx, (c.mem_positions x).mp hx'⟩

/-- The right child stands in the gap of the left one, at its far end. -/
theorem join_agrees_with_splice_gapped :
    Yield.classify [[.left], [.right, .left]] false = .ok prependSecond ∧
      (Span.two 0 1 5 7).Valid ∧ (Span.one 3 5).Valid ∧
      prependSecond.join (.two 0 1 5 7) (.one 3 5) = some (.two 0 1 3 7) ∧
      Yield.splice [[.left], [.right, .left]] (.two 0 1 5 7) (some (.one 3 5)) =
        some (.two 0 1 3 7) ∧
      (Span.two 0 1 3 7).positions.Perm
        ((Span.two 0 1 5 7).positions ++ (Span.one 3 5).positions) := by
  obtain ⟨heq, hspan⟩ := join_agrees_with_splice [[.left], [.right, .left]] false prependSecond rfl
    (.two 0 1 5 7) (.one 3 5) (by decide) (by decide)
  have hjoin : prependSecond.join (.two 0 1 5 7) (.one 3 5) = some (.two 0 1 3 7) := by decide
  exact ⟨rfl, by decide, by decide, hjoin, heq.symm.trans hjoin, (hspan _ hjoin).2.1⟩

end JoinType

end Discontinuous
