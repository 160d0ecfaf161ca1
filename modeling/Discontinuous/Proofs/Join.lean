import Discontinuous.Chart

/-!
The geometry of joins. Whatever the join type, the parent covers what its children cover, each
position once; it is well formed if they are, and each child can be found from the other one.
-/
namespace Discontinuous

namespace Span

/-- The position lies in one of the ranges. -/
def Covers (s : Span) (x : Int) : Prop :=
  (s.l1 ≤ x ∧ x < s.r1) ∨ (s.l2 ≠ unset ∧ s.l2 ≤ x ∧ x < s.r2)

/-- Well formed, and ending at `n` or before. -/
def Within (n : Int) (s : Span) : Prop := s.Valid ∧ s.r1 ≤ n ∧ s.r2 ≤ n

/-- The number of positions, however many. -/
def extent (s : Span) : Int := if s.l2 = unset then s.r1 - s.l1 else s.r1 - s.l1 + s.r2 - s.l2

theorem arity_eq_one_or_two (s : Span) : s.arity = 1 ∨ s.arity = 2 := by
  simp only [arity]
  split
  · exact .inl rfl
  · exact .inr rfl

theorem arity_eq_one_iff (s : Span) : s.arity = 1 ↔ s.l2 = unset := by
  simp only [arity]
  split <;> simp_all

theorem arity_eq_two_iff (s : Span) : s.arity = 2 ↔ s.l2 ≠ unset := by
  simp only [arity]
  split <;> simp_all

theorem Valid.arity_le_extent {s : Span} (hs : s.Valid) : (s.arity : Int) ≤ s.extent := by
  obtain ⟨h0, h1, h2⟩ := hs
  simp only [arity, extent]
  split
  · omega
  · rw [if_neg (by assumption)] at h2
    omega

theorem Within.extent_le {n : Int} {s : Span} (hs : s.Within n) : s.extent ≤ n := by
  obtain ⟨⟨h0, h1, h2⟩, h3, h4⟩ := hs
  simp only [extent]
  split
  · omega
  · rw [if_neg (by assumption)] at h2
    omega

theorem len_eq_wrap (s : Span) : s.len = Word.wrap s.extent := by
  simp only [len, extent]
  split <;> rfl

/-- Lengths of spans within a sentence are too small to wrap. -/
theorem Within.len_eq {n : Int} {s : Span} (hs : s.Within n) (hn : n < Word.bound) :
    s.len = s.extent := by
  have hle := hs.extent_le
  have hlow := hs.1.arity_le_extent
  rw [len_eq_wrap]
  exact Word.wrap_of_bounds (by omega) (by omega)

theorem mem_range (l r x : Int) : x ∈ range l r ↔ l ≤ x ∧ x < r := by
  simp only [range, List.mem_map, List.mem_range]
  constructor
  · rintro ⟨k, hk, rfl⟩
    omega
  · rintro ⟨hl, hr⟩
    exact ⟨(x - l).toNat, by omega, by omega⟩

theorem nodup_range (l r : Int) : (range l r).Nodup := by
  simp only [range]
  refine List.pairwise_map.mpr (List.nodup_range.imp fun hne heq => hne ?_)
  omega

theorem mem_positions (s : Span) (x : Int) : x ∈ s.positions ↔ s.Covers x := by
  simp only [positions, Covers]
  split <;> simp_all [mem_range]

theorem Valid.nodup_positions {s : Span} (hs : s.Valid) : s.positions.Nodup := by
  obtain ⟨h0, h1, h2⟩ := hs
  simp only [positions]
  split
  · exact nodup_range _ _
  · rw [if_neg (by assumption)] at h2
    refine List.nodup_append.mpr ⟨nodup_range _ _, nodup_range _ _, ?_⟩
    intro x hx y hy
    rw [mem_range] at hx hy
    omega

end Span

namespace JoinType

variable {jt : JoinType} {b c s : Span}

theorem join_unary (hu : jt.isUnary = true) (h : jt.join b c = some s) : s = b := by
  simp only [join] at h
  split at h
  · cases h
  · cases jt <;> simp_all [isUnary]

/-- A successful join has children of the right numbers of ranges. -/
theorem arity_of_join (h : jt.join b c = some s) :
    b.arity = jt.childArity .left ∧
      (jt.childArity .right ≠ 0 → c.arity = jt.childArity .right) := by
  simp only [join] at h
  split at h
  · cases h
  · simp_all

theorem childArity_right_ne_zero (hu : jt.isUnary = false) : jt.childArity .right ≠ 0 := by
  cases jt <;> first | decide | cases hu

theorem arity_bounds (jt : JoinType) : jt.arity = 1 ∨ jt.arity = 2 := by
  cases jt <;> decide

theorem childArity_left_bounds (jt : JoinType) :
    jt.childArity .left = 1 ∨ jt.childArity .left = 2 := by
  cases jt <;> decide

theorem childArity_right_bounds (hu : jt.isUnary = false) :
    jt.childArity .right = 1 ∨ jt.childArity .right = 2 := by
  revert hu
  cases jt <;> decide

/-- What the spans of two children and of their parent have to do with one another. -/
structure Joined (b c s : Span) : Prop where
  valid : s.Valid
  ends : ∀ n, b.r1 ≤ n → b.r2 ≤ n → c.r1 ≤ n → c.r2 ≤ n → s.r1 ≤ n ∧ s.r2 ≤ n
  extent : s.extent = b.extent + c.extent
  covers : ∀ x, s.Covers x ↔ b.Covers x ∨ c.Covers x
  disjoint : ∀ x, ¬ (b.Covers x ∧ c.Covers x)

theorem joined_of_join (hu : jt.isUnary = false) (h : jt.join b c = some s) (hb : b.Valid)
    (hc : c.Valid) : Joined b c s := by
  -- the conditions of each join type are inequalities between boundaries, and so are the fields
  simp only [join] at h
  split at h
  · cases h
  next har =>
    obtain ⟨bl1, br1, bl2, br2⟩ := b
    obtain ⟨cl1, cr1, cl2, cr2⟩ := c
    cases jt
    case copyOne | copyTwo => cases hu
    all_goals
      simp [childArity, yield, Yield.childArity, Span.arity, Span.Valid, Span.unset] at h har hb hc
      obtain ⟨hmeet, rfl⟩ := h
      constructor <;>
        simp only [Span.Valid, Span.extent, Span.Covers, Span.one, Span.two, Span.unset] <;> grind

/-- Parents of well formed children have as many ranges as the join type says. -/
theorem arity_eq_of_join (h : jt.join b c = some s) (hb : b.Valid)
    (hc : jt.isUnary = false → c.Valid) : s.arity = jt.arity := by
  cases hu : jt.isUnary with
  | true =>
      rw [join_unary hu h, (arity_of_join h).1]
      cases jt
      case copyOne | copyTwo => rfl
      all_goals cases hu
  | false =>
      have hc := hc hu
      simp only [join] at h
      split at h
      · cases h
      next har =>
        cases jt
        case copyOne | copyTwo => cases hu
        all_goals
          simp [childArity, yield, Yield.childArity, Span.arity, Span.Valid, Span.unset]
            at h har hb hc
          obtain ⟨hmeet, rfl⟩ := h
          simp only [Span.arity, Span.one, Span.two, Span.unset, arity, yield, Yield.arity]
          grind

theorem join_within {n : Int} (h : jt.join b c = some s) (hb : b.Within n)
    (hc : jt.isUnary = false → c.Within n) : s.Within n := by
  cases hu : jt.isUnary with
  | true => rwa [join_unary hu h]
  | false =>
      have hc := hc hu
      have hj := joined_of_join hu h hb.1 hc.1
      exact ⟨hj.valid, hj.ends n hb.2.1 hb.2.2 hc.2.1 hc.2.2⟩

theorem Joined.positions_perm (hj : Joined b c s) (hb : b.Valid) (hc : c.Valid) :
    s.positions.Perm (b.positions ++ c.positions) := by
  have hnodup : (b.positions ++ c.positions).Nodup := by
    refine List.nodup_append.mpr ⟨hb.nodup_positions, hc.nodup_positions, ?_⟩
    rintro x hx y hy rfl
    exact hj.disjoint x ⟨(b.mem_positions x).mp hx, (c.mem_positions x).mp hy⟩
  refine (List.perm_ext_iff_of_nodup hj.valid.nodup_positions hnodup).mpr ?_
  intro x
  rw [List.mem_append, Span.mem_positions, Span.mem_positions, Span.mem_positions]
  exact hj.covers x

end JoinType

/-- A span that a query asks for. -/
def Query.Asks (q : Query) (s : Span) : Prop :=
  s.arity = q.arity ∧ q.boundary ∈ Chart.boundariesOf s ∧
    (q.boundary = .any ∨ q.boundary.of s = q.pos)

namespace JoinType

variable {jt : JoinType} {b c s : Span}

/-- Whoever joins on the right is among those that the left child asks for, and conversely. -/
theorem siblings_of_join (hu : jt.isUnary = false) (h : jt.join b c = some s) :
    (∃ q, jt.rightSibling b = some q ∧ q.Asks c) ∧ ∃ q, jt.leftSibling c = some q ∧ q.Asks b := by
  obtain ⟨hb, hc⟩ := arity_of_join h
  have hc := hc (childArity_right_ne_zero hu)
  simp only [join] at h
  rw [if_neg (by simp [hb, hc])] at h
  cases jt
  case copyOne | copyTwo => cases hu
  all_goals
    simp [childArity, yield, Yield.childArity] at h hb hc
    obtain ⟨hmeet, -⟩ := h
    simp [rightSibling, leftSibling, Query.Asks, Chart.boundariesOf, Boundary.of, hb, hc, hmeet]
end JoinType

end Discontinuous
