import Discontinuous.Proofs.Exactness
import Discontinuous.Proofs.Splice

/-!
Derivations on spans. A derivation apart from any sentence can be laid on every span whose ranges
are as long as its arguments, wherever they start and however wide the gap between them is. So a
table by patterns, which know nothing but these lengths, is exact on spans as well.
-/
namespace Discontinuous

namespace Span

/-- The span of ranges of these lengths, the first of which starts at `l` and the second at `k`. -/
def laid (l k : Int) : List Nat → Span
  | [n] => one l (l + n)
  | [n, n'] => two l (l + n) k (k + n')
  | _ => one l l

theorem laid_lengths {s : Span} (hs : s.Valid) : laid s.l1 s.l2 s.lengths = s := by
  obtain ⟨l1, r1, l2, r2⟩ := s
  obtain ⟨h0, h1, h2⟩ := hs
  unfold lengths
  dsimp only at h0 h1 h2 ⊢
  split at h2
  next hone =>
    rw [if_pos hone, laid, one, hone, h2]
    congr
    omega
  next htwo =>
    rw [if_neg htwo, laid, two]
    congr
    · omega
    · omega

theorem gap_of_lengths {s : Span} (hs : s.Valid) (h : 2 ≤ s.lengths.length) :
    s.l1 + s.lengths.headD 0 < s.l2 := by
  rw [length_lengths] at h
  have htwo : s.l2 ≠ unset := by
    intro hone
    rw [(arity_eq_one_iff s).mpr hone] at h
    omega
  obtain ⟨h0, h1, h2⟩ := hs
  rw [if_neg htwo] at h2
  unfold lengths
  rw [if_neg htwo, List.headD_cons]
  omega

theorem valid_one {l : Int} {n : Nat} (hl : 0 ≤ l) (hn : 1 ≤ n) : (one l (l + n)).Valid := by
  refine ⟨hl, ?_, rfl⟩
  change l < l + n
  omega

theorem valid_two {l k : Int} {n n' : Nat} (hl : 0 ≤ l) (hn : 1 ≤ n) (hk : l + n < k)
    (hn' : 1 ≤ n') : (two l (l + n) k (k + n')).Valid := by
  unfold Valid two unset
  dsimp only
  rw [if_neg (by omega)]
  omega

theorem lengths_one (l : Int) (n : Nat) : (one l (l + n)).lengths = [n] := by
  unfold lengths one
  rw [if_pos rfl]
  simp

theorem lengths_two (l : Int) {k : Int} (hk : 0 ≤ k) (n n' : Nat) :
    (two l (l + n) k (k + n')).lengths = [n, n'] := by
  unfold lengths two unset
  dsimp only
  rw [if_neg (by omega)]
  simp

theorem Within.ofInt_len {n : Int} {s : Span} (hs : s.Within n) (hn : n < Word.bound) :
    UInt64.ofInt s.len = UInt64.ofNat s.extent.toNat := by
  have hbounds := hs.extent_bounds
  apply UInt64.toNat_inj.mp
  rw [hs.len_eq hn, Key.toNat_ofInt (by omega) (by omega), Word.toNat_ofNat (by omega)]

end Span

namespace JoinType

/-- Where the children lie that join to ranges which start at `l` and `k`, given the lengths of
their own ranges. -/
def cut (jt : JoinType) (l k : Int) (left right : List Nat) : Span × Span :=
  match jt, left, right with
  | concat, [m], [n] => (.one l (l + m), .one (l + m) (l + m + n))
  | juxtapose, [m], [n] => (.one l (l + m), .one k (k + n))
  | fillGap, [m, m'], [n] =>
    (.two l (l + m) (l + m + n) (l + m + n + m'), .one (l + m) (l + m + n))
  | appendSecond, [m, m'], [n] => (.two l (l + m) k (k + m'), .one (k + m') (k + m' + n))
  | prependSecond, [m, m'], [n] => (.two l (l + m) (k + n) (k + n + m'), .one k (k + n))
  | appendFirst, [m, m'], [n] => (.two l (l + m) k (k + m'), .one (l + m) (l + m + n))
  | prependFirst, [m], [n, n'] => (.one l (l + m), .two (l + m) (l + m + n) k (k + n'))
  | zip, [m, m'], [n, n'] =>
    (.two l (l + m) k (k + m'), .two (l + m) (l + m + n) (k + m') (k + m' + n'))
  | nest, [m, m'], [n, n'] =>
    (.two l (l + m) (k + n') (k + n' + m'), .two (l + m) (l + m + n) k (k + n'))
  | wrapSecond, [m, m'], [n, n'] =>
    (.two l (l + m) (k + n) (k + n + m'), .two k (k + n) (k + n + m') (k + n + m' + n'))
  | wrapFirst, [m, m'], [n, n'] =>
    (.two l (l + m) (l + m + n) (l + m + n + m'), .two (l + m) (l + m + n) k (k + n'))
  | interlock, [m, m'], [n, n'] =>
    (.two l (l + m) (l + m + n) (l + m + n + m'),
      .two (l + m) (l + m + n) (l + m + n + m') (l + m + n + m' + n'))
  | _, _, _ => (.one l l, .one l l)

/-- The children are spans of the lengths that were asked for, and they meet. -/
structure Cuts (jt : JoinType) (l k : Int) (ls rs cs : List Nat) : Prop where
  left : (jt.cut l k ls rs).1.Valid
  right : (jt.cut l k ls rs).2.Valid
  leftLengths : (jt.cut l k ls rs).1.lengths = ls
  rightLengths : (jt.cut l k ls rs).2.lengths = rs
  meet : (jt.cut l k ls rs).1.arity = jt.childArity .left →
    (jt.cut l k ls rs).2.arity = jt.childArity .right →
      jt.join (jt.cut l k ls rs).1 (jt.cut l k ls rs).2 = some (.laid l k cs)

theorem exists_take_eq {ls : List Nat} {n : Nat} (h : ls.length = n) (hn : n = 1 ∨ n = 2) :
    ∃ a b, ls = [a, b].take n := by
  subst h
  rcases hn with hone | htwo
  · obtain ⟨a, rfl⟩ := List.length_eq_one_iff.mp hone
    exact ⟨a, 0, rfl⟩
  · obtain ⟨a, b, rfl⟩ := List.length_eq_two.mp htwo
    exact ⟨a, b, rfl⟩

variable {jt : JoinType} {ls rs : List Nat}

theorem cuts {l k : Int} {cs : List Nat} (hu : jt.isUnary = false)
    (hl : ls.length = jt.childArity .left) (hr : rs.length = jt.childArity .right)
    (hlpos : ∀ n ∈ ls, 1 ≤ n) (hrpos : ∀ n ∈ rs, 1 ≤ n)
    (h : Scheme.splice jt.yield ls rs = some cs) (h0 : 0 ≤ l)
    (hgap : 2 ≤ cs.length → l + cs.headD 0 < k) : Cuts jt l k ls rs cs := by
  obtain ⟨m, m', rfl⟩ := exists_take_eq hl jt.childArity_left_bounds
  obtain ⟨n, n', rfl⟩ := exists_take_eq hr (childArity_right_bounds hu)
  cases jt
  case copyOne | copyTwo => cases hu
  all_goals
    cases h
    simp [childArity, yield, Yield.childArity] at hlpos hrpos hgap ⊢
    constructor
    case meet =>
      intro hb hc
      rw [join, if_neg (by simp [hb, hc])]
      simp [cut, Span.one, Span.two, Span.laid, Int.add_assoc, hgap]
    all_goals
      simp (disch := omega) only [cut, Span.valid_one, Span.valid_two, Span.lengths_one,
        Span.lengths_two]

/-- Any lengths that make up those of a span can be laid out in it. -/
theorem exists_join (hu : jt.isUnary = false) {s : Span} (hs : s.Valid)
    (hl : ls.length = jt.childArity .left) (hr : rs.length = jt.childArity .right)
    (hlpos : ∀ n ∈ ls, 1 ≤ n) (hrpos : ∀ n ∈ rs, 1 ≤ n)
    (h : Scheme.splice jt.yield ls rs = some s.lengths) :
    ∃ b c, (b.Valid ∧ b.lengths = ls) ∧ (c.Valid ∧ c.lengths = rs) ∧ jt.join b c = some s := by
  have hcuts := cuts hu hl hr hlpos hrpos h hs.1 (Span.gap_of_lengths hs)
  refine ⟨_, _, ⟨hcuts.left, hcuts.leftLengths⟩, ⟨hcuts.right, hcuts.rightLengths⟩, ?_⟩
  rw [hcuts.meet, Span.laid_lengths hs]
  · rw [← Span.length_lengths, hcuts.leftLengths, hl]
  · rw [← Span.length_lengths, hcuts.rightLengths, hr]

end JoinType

variable {α : Type}

namespace Outline

/-- A derivation on a span: its leaves stand on single positions, and its inner nodes where their
children join. -/
inductive Lies : Outline α → Span → Prop where
  | leaf {l : Label} (i : Nat) : Lies (leaf l) (.one i (i + 1))
  | unary {c : Clause α} {t : Outline α} {b s : Span} : Lies t b →
      c.join.join b ⟨0, 0, 0, 0⟩ = some s → Lies (unary c t) s
  | binary {c : Clause α} {t t' : Outline α} {b b' s : Span} : Lies t b → Lies t' b' →
      c.join.join b b' = some s → Lies (binary c t t') s

variable [Cost α] {g : Grammar α} {t : Outline α} {s : Span}

/-- The ranges of the span are as long as the arguments. -/
theorem Lies.deals (hg : g.WellFormed) (ht : t.Proper g) (h : t.Lies s) :
    s.Valid ∧ t.Deals g s.lengths := by
  induction h with
  | leaf i =>
      cases ht with
      | leaf hl =>
          have hlengths : (Span.one i (i + 1)).lengths = [1] := Span.lengths_one i 1
          refine ⟨Span.valid_one (Int.natCast_nonneg i) (Nat.le_refl 1), ?_⟩
          rw [hlengths]
          exact ⟨rfl, (hg.arity_preterminal hl).symm, by simp, rfl⟩
  | unary _ hjoin ih =>
      cases ht with
      | unary hc hr ht hl =>
          obtain ⟨hvalid, hdeals⟩ := ih ht
          rw [JoinType.join_unary (hg.isUnary_eq_true hc hr) hjoin]
          exact ⟨hvalid, hdeals.unary hg hc hr hl⟩
  | binary _ _ hjoin ih ih' =>
      cases ht with
      | binary hc hr ht hl ht' hl' =>
          obtain ⟨hvalid, hdeals⟩ := ih ht
          obtain ⟨hvalid', hdeals'⟩ := ih' ht'
          have hu := hg.isUnary_eq_false hc hr
          obtain ⟨cs, hcs, hparent⟩ := hdeals.binary hg hdeals' hc hr hl hl'
          cases hcs.symm.trans (Scheme.splice_join hu hjoin hvalid hvalid')
          exact ⟨(JoinType.joined_of_join hu hjoin hvalid hvalid').valid, hparent⟩

/-- Wherever the ranges are, and however wide the gap is, a derivation with arguments of their
lengths can be laid on them. -/
theorem Proper.lies (hg : g.WellFormed) (ht : t.Proper g) (hs : s.Valid)
    (h : t.Deals g s.lengths) : t.Lies s := by
  induction ht generalizing s with
  | leaf hl =>
      have hlengths : s.lengths = [1] := (Option.some.inj h.args).symm
      have hlaid := Span.laid_lengths hs
      obtain ⟨i, hi⟩ := Int.eq_ofNat_of_zero_le hs.1
      rw [hlengths, hi] at hlaid
      rw [← hlaid]
      exact .leaf i
  | unary hc hr ht hl ih =>
      obtain ⟨ls, hls⟩ := ht.exists_deals hg
      cases (hls.unary hg hc hr hl).args.symm.trans h.args
      refine .unary (ih hs hls) (JoinType.join_of_isUnary (hg.isUnary_eq_true hc hr) ?_)
      rw [← Span.length_lengths, hls.length_left hg hc hl]
  | binary hc hr ht hl ht' hl' ih ih' =>
      obtain ⟨ls, hls⟩ := ht.exists_deals hg
      obtain ⟨rs, hrs⟩ := ht'.exists_deals hg
      obtain ⟨cs, hsplice, hcs⟩ := hls.binary hg hrs hc hr hl hl'
      cases hcs.args.symm.trans h.args
      obtain ⟨b, b', ⟨hb, rfl⟩, ⟨hb', rfl⟩, hjoin⟩ :=
        JoinType.exists_join (hg.isUnary_eq_false hc hr) hs (hls.length_left hg hc hl)
          (hrs.length_right hg hc hr hl') hls.pos hrs.pos hsplice
      exact .binary (ih hb hls) (ih' hb' hrs) hjoin

/-- The fewer derivations are asked for, the dearer the least of them is. -/
theorem Least.le_of_imp [BoundedCost α] {p p' : Outline α → Prop} {x y : α} (hx : Least p x)
    (hy : Least p' y) (himp : ∀ t, p' t → p t) : Cost.le x y = true := by
  rcases hy with ⟨⟨t, ht, rfl⟩, -⟩ | ⟨-, rfl⟩
  · rcases hx with ⟨-, hleast⟩ | ⟨hnone, -⟩
    · exact hleast t (himp t ht)
    · exact absurd (himp t ht) (hnone t)
  · exact BoundedCost.le_infinity x

end Outline

namespace Table

variable [Cost α] {g : Grammar α} {maxlen : Nat} {l : Label} {s : Span} {n : Int}

/-- The derivations behind an entry by pattern are those that lie on any one span of the pattern. -/
theorem stands_patterns_iff (hg : g.WellFormed) (hmax : maxlen ≤ 60) (hn : n < Word.bound)
    (hs : s.Within n) (hle : s.extent ≤ maxlen) (t : Outline α) :
    Stands g (.patterns maxlen) (fun t => t.pattern.bits) ⟨l, s.pattern.bits⟩ t ↔
      t.Proper g ∧ t.label = l ∧ t.Lies s := by
  have hspan : s.pattern = .ofLengths (s.lengths.map Int.ofNat) := Span.pattern_eq hn hs
  constructor
  · rintro ⟨hproper, hhorizon, hlabel, hbits⟩
    refine ⟨hproper, hlabel, hproper.lies hg hs.1 ?_⟩
    obtain ⟨ls, hls⟩ := hproper.exists_deals hg
    have hpattern : t.pattern = s.pattern := congrArg Pattern.mk hbits
    rw [hls.pattern_eq, hspan] at hpattern
    have hfits := hls.fits (hproper.arity hg) hhorizon
    rw [← (Scheme.fits_lengths hs.1 hle).args_eq hmax, ← hpattern, hfits.args_eq hmax]
    exact hls
  · rintro ⟨hproper, hlabel, hlies⟩
    obtain ⟨-, hdeals⟩ := hlies.deals hg hproper
    refine ⟨hproper, ?_, hlabel, ?_⟩
    · rw [← hdeals.sum]
      exact (Scheme.fits_lengths hs.1 hle).sum_le
    · rw [hdeals.pattern_eq, hspan]

theorem stands_lengths_of_lies (hg : g.WellFormed) (hn : n < Word.bound) (hs : s.Within n)
    (hle : s.extent ≤ maxlen) {t : Outline α} (hproper : t.Proper g) (hlabel : t.label = l)
    (hlies : t.Lies s) :
    Stands g (.lengths maxlen) (fun t => UInt64.ofNat t.leaves) ⟨l, UInt64.ofInt s.len⟩ t := by
  obtain ⟨-, hdeals⟩ := hlies.deals hg hproper
  have hleaves : (t.leaves : Int) = s.extent := by
    rw [← hdeals.sum]
    exact Span.sum_lengths hs.1
  refine ⟨hproper, ?_, hlabel, ?_⟩
  · change t.leaves ≤ maxlen
    omega
  · rw [hs.ofInt_len hn, ← hleaves, Int.toNat_natCast]

theorem kind_fill (g : Grammar α) (scheme : Scheme) : (fill g scheme).1.kind = scheme.kind := by
  apply Closure.settled_run (P := fun f : Filling α => f.table.kind = scheme.kind)
  · intro f key cost hkind
    exact hkind
  · rfl

/-- On every span within the horizon a table by patterns tells the least cost of the derivations
that lie on it, and a table by lengths tells no more. Boundaries of spans are words. -/
theorem lookupSpan_least [BoundedCost α] (g : Grammar α) (maxlen : Int) (hg : g.Built)
    (hpos : 1 ≤ maxlen) (hmax : maxlen ≤ 60) :
    ∃ bits len effort effort', byPatterns g maxlen = .ok (bits, effort) ∧
      byLengths g maxlen = .ok (len, effort') ∧
      ∀ (l : Label) (s : Span), s.Within (Word.bound - 1) → s.len ≤ maxlen →
        Outline.Least (fun t => t.Proper g ∧ t.label = l ∧ t.Lies s) (bits.lookupSpan l s) ∧
          Cost.le (len.lookupSpan l s) (bits.lookupSpan l s) = true := by
  have hg := hg.wellFormed
  have hpos' : 1 ≤ maxlen.toNat := by omega
  have hmax' : maxlen.toNat ≤ 60 := by omega
  have hbound : maxlen.toNat < Word.bound := by
    unfold Word.bound
    omega
  refine ⟨(fill g (.patterns maxlen.toNat)).1, (fill g (.lengths maxlen.toNat)).1, _, _,
    byPatterns_eq hpos hmax, byLengths_eq hpos, ?_⟩
  intro l s hs hlen
  have hn : (Word.bound - 1 : Int) < Word.bound := by omega
  have hle : s.extent ≤ maxlen.toNat := by
    rw [hs.len_eq hn] at hlen
    omega
  have hbits := (lookup_least hg (Scheme.bounded_patterns hpos' hmax')
    (Scheme.tells_patterns hg hmax') hpos' l s.pattern.bits).congr
      (stands_patterns_iff hg hmax' hn hs hle)
  have hlengths := lookup_least hg (Scheme.bounded_lengths hpos') (Scheme.tells_lengths g hbound)
    hpos' l (UInt64.ofInt s.len)
  unfold lookupSpan signature
  rw [kind_fill, kind_fill]
  refine ⟨hbits, hlengths.le_of_imp hbits ?_⟩
  rintro t ⟨hproper, hlabel, hlies⟩
  exact stands_lengths_of_lies hg hn hs hle hproper hlabel hlies

/-- An `A` and a `C` with a gap of five between them. -/
theorem lookupSpan_least_gapped :
    Parser.gapped.grammar.Built ∧ (Span.two 3 4 9 10).Within (Word.bound - 1) ∧
      ∃ bits effort, byPatterns Parser.gapped.grammar 4 = .ok (bits, effort) ∧
        bits.lookupSpan ⟨4⟩ (.two 3 4 9 10) = 1 ∧
        Outline.Least (fun t => t.Proper Parser.gapped.grammar ∧ t.label = ⟨4⟩ ∧
          t.Lies (.two 3 4 9 10)) (bits.lookupSpan ⟨4⟩ (.two 3 4 9 10)) := by
  obtain ⟨bits, len, effort, effort', hbits, -, hleast⟩ :=
    lookupSpan_least Parser.gapped.grammar 4 gapped_built (by decide) (by decide)
  have hwithin : (Span.two 3 4 9 10).Within (Word.bound - 1) := by
    unfold Span.Within
    decide
  refine ⟨gapped_built, hwithin, bits, effort, hbits, ?_, (hleast ⟨4⟩ _ hwithin (by decide)).1⟩
  cases (byPatterns_eq (g := Parser.gapped.grammar) (by decide) (by decide)).symm.trans hbits
  decide +kernel

end Table

end Discontinuous
