import Discontinuous.Proofs.Placement
import Discontinuous.Proofs.Width

/-!
Signatures of joins. What two signatures join to is the signature of what their spans join to, or
nothing if that is beyond the horizon. And wherever patterns join, every span of the joint pattern
is the join of one pair of spans with these patterns, since a parent and the lengths of its
children's ranges settle where the children lie.
-/
namespace Discontinuous

namespace Span

variable {n : Int} {b s : Span}

theorem Within.lt_of_covers (hs : s.Within n) {x : Int} (hx : s.Covers x) : x < n := by
  obtain ⟨-, h1, h2⟩ := hs
  rcases hx with hx | hx <;> omega

/-- What covers no more ends no later. -/
theorem Within.of_covers (hs : s.Within n) (hb : b.Valid) (h : ∀ x, b.Covers x → s.Covers x) :
    b.Within n := by
  have ⟨h0, h1, h2⟩ := hb
  have hfirst : b.r1 - 1 < n := hs.lt_of_covers (h _ (.inl ⟨by omega, by omega⟩))
  refine ⟨hb, by omega, ?_⟩
  split at h2
  next =>
    rw [h2, unset]
    omega
  next hset =>
    have hsecond : b.r2 - 1 < n := hs.lt_of_covers (h _ (.inr ⟨hset, by omega, by omega⟩))
    omega

end Span

namespace JoinType

variable {jt : JoinType} {b c s : Span} {ls rs : List Nat}

/-- Children that join are those that the parent is cut into. -/
theorem cut_of_laid {l k l' k' : Int} (hu : jt.isUnary = false)
    (hl : ls.length = jt.childArity .left) (hr : rs.length = jt.childArity .right)
    (h : jt.join (.laid l k ls) (.laid l' k' rs) = some s) :
    jt.cut s.l1 s.l2 ls rs = (.laid l k ls, .laid l' k' rs) := by
  obtain ⟨hb, hc⟩ := arity_of_join h
  have hc := hc (childArity_right_ne_zero hu)
  simp only [join] at h
  rw [if_neg (by simp [hb, hc])] at h
  obtain ⟨m, m', rfl⟩ := exists_take_eq hl jt.childArity_left_bounds
  obtain ⟨n, n', rfl⟩ := exists_take_eq hr (childArity_right_bounds hu)
  cases jt
  case copyOne | copyTwo => cases hu
  all_goals
    simp [childArity, yield, Yield.childArity, Span.laid, Span.one, Span.two] at h ⊢
    obtain ⟨hmeet, rfl⟩ := h
    simp [cut, Span.one, Span.two, hmeet] <;> omega

theorem cut_of_join (hu : jt.isUnary = false) (hb : b.Valid) (hc : c.Valid)
    (h : jt.join b c = some s) : jt.cut s.l1 s.l2 b.lengths c.lengths = (b, c) := by
  obtain ⟨hbarity, hcarity⟩ := arity_of_join h
  have hcarity := hcarity (childArity_right_ne_zero hu)
  rw [← Span.laid_lengths hb, ← Span.laid_lengths hc] at h
  rw [cut_of_laid hu (b.length_lengths.trans hbarity) (c.length_lengths.trans hcarity) h,
    Span.laid_lengths hb, Span.laid_lengths hc]

theorem within_of_join {n : Int} (hu : jt.isUnary = false) (hb : b.Valid) (hc : c.Valid)
    (h : jt.join b c = some s) (hs : s.Within n) : b.Within n ∧ c.Within n := by
  have hcovers := (joined_of_join hu h hb hc).covers
  exact ⟨hs.of_covers hb fun x hx => (hcovers x).mpr (.inl hx),
    hs.of_covers hc fun x hx => (hcovers x).mpr (.inr hx)⟩

end JoinType

namespace Scheme

variable {jt : JoinType} {maxlen : Nat} {b c s : Span}

/-- A span has the lengths that its pattern stands for. -/
theorem lengths_eq_of_pattern (hmax : maxlen ≤ 60) (hs : s.Within (Word.bound - 1)) {ls : List Nat}
    (hls : Fits maxlen ls)
    (h : s.pattern = Pattern.ofLengths (ls.map Int.ofNat)) : s.lengths = ls := by
  have hpresent : s.pattern ≠ .absent := by
    rw [h]
    exact Pattern.ofLengths_ne_absent ls (hls.width_le hmax)
  rw [← Span.args_pattern hs hpresent, h, hls.args_eq hmax]

/-- Where patterns join, a span of the joint pattern is the join of spans of these patterns, and of
no two others. -/
theorem existsUnique_join (hmax : maxlen ≤ 60) (hu : jt.isUnary = false)
    (hb : b.Within (Word.bound - 1)) (hc : c.Within (Word.bound - 1)) (hbl : b.extent ≤ maxlen)
    (hcl : c.extent ≤ maxlen) (hs : s.Within (Word.bound - 1))
    (h : (patterns maxlen).join jt.yield jt b.pattern.bits c.pattern.bits = some s.pattern.bits) :
    ∃! x : Span × Span, (x.1.Within (Word.bound - 1) ∧ x.1.pattern = b.pattern) ∧
      (x.2.Within (Word.bound - 1) ∧ x.2.pattern = c.pattern) ∧ jt.join x.1 x.2 = some s := by
  have hn : (Word.bound - 1 : Int) < Word.bound := by omega
  have hbfits := fits_lengths hb.1 hbl
  have hcfits := fits_lengths hc.1 hcl
  have hbp := Span.pattern_eq hn hb
  have hcp := Span.pattern_eq hn hc
  rw [hbp, hcp] at h
  obtain ⟨⟨hleft, hright⟩, cs, hsplice, hfits, hbits⟩ := splice_of_joinPatterns hmax hbfits hcfits h
  have hlengths : s.lengths = cs :=
    lengths_eq_of_pattern hmax hs hfits (congrArg Pattern.mk hbits).symm
  rw [← hlengths] at hsplice
  obtain ⟨x, y, ⟨hx, hxl⟩, ⟨hy, hyl⟩, hjoin⟩ := JoinType.exists_join hu hs.1 hleft hright
    hbfits.pos hcfits.pos hsplice
  obtain ⟨hxn, hyn⟩ := JoinType.within_of_join hu hx hy hjoin hs
  refine ⟨(x, y), ⟨⟨hxn, ?_⟩, ⟨hyn, ?_⟩, hjoin⟩, ?_⟩
  · rw [Span.pattern_eq hn hxn, hxl, hbp]
  · rw [Span.pattern_eq hn hyn, hyl, hcp]
  · -- any two that join to the span are cut out of it by the same lengths
    rintro ⟨x', y'⟩ ⟨⟨hx', hxp⟩, ⟨hy', hyp⟩, hjoin'⟩
    have hxl' := lengths_eq_of_pattern hmax hx' hbfits (hxp.trans hbp)
    have hyl' := lengths_eq_of_pattern hmax hy' hcfits (hyp.trans hcp)
    rw [← JoinType.cut_of_join hu hx'.1 hy'.1 hjoin', ← JoinType.cut_of_join hu hx hy hjoin, hxl,
      hyl, hxl', hyl']

variable {α : Type} [Cost α]

/-- Signatures mirror joins, whatever the clause. Within the horizon two spans that join have
signatures that join to that of their parent, and beyond it they have none. And patterns that join
do so for spans: every span of the joint pattern is the join of just one pair of spans with these
patterns. Boundaries of spans are words. -/
theorem signatures_mirror_joins (g : Grammar α) (hg : g.Built) (x : Clause α) (hx : x ∈ g.clauses)
    (hu : x.isUnary = false) (maxlen : Nat) (hmax : maxlen ≤ 60) (b c : Span)
    (hb : b.Within (Word.bound - 1)) (hc : c.Within (Word.bound - 1)) (hbl : b.len ≤ maxlen)
    (hcl : c.len ≤ maxlen) :
    (∀ s, x.join.join b c = some s →
      (s.len ≤ maxlen →
        (patterns maxlen).join x.yield x.join b.pattern.bits c.pattern.bits = some s.pattern.bits ∧
          (lengths maxlen).join x.yield x.join (UInt64.ofInt b.len) (UInt64.ofInt c.len) =
            some (UInt64.ofInt s.len)) ∧
      (maxlen < s.len →
        (patterns maxlen).join x.yield x.join b.pattern.bits c.pattern.bits = none ∧
          (lengths maxlen).join x.yield x.join (UInt64.ofInt b.len) (UInt64.ofInt c.len) = none)) ∧
      ∀ s, s.Within (Word.bound - 1) →
        (patterns maxlen).join x.yield x.join b.pattern.bits c.pattern.bits = some s.pattern.bits →
          ∃! y : Span × Span, (y.1.Within (Word.bound - 1) ∧ y.1.pattern = b.pattern) ∧
            (y.2.Within (Word.bound - 1) ∧ y.2.pattern = c.pattern) ∧
              x.join.join y.1 y.2 = some s := by
  have hn : (Word.bound - 1 : Int) < Word.bound := by omega
  have hu : x.join.isUnary = false := (hg.wellFormed.isUnary_join hx).trans hu
  have hbextent : b.extent ≤ maxlen := hb.len_eq hn ▸ hbl
  have hcextent : c.extent ≤ maxlen := hc.len_eq hn ▸ hcl
  rw [hg.wellFormed.yield_eq hx]
  refine ⟨?_, fun s hs h => existsUnique_join hmax hu hb hc hbextent hcextent hs h⟩
  intro s hjoin
  have hs := JoinType.join_within hjoin hb fun _ => hc
  rw [patterns_join hmax hn hu hb hc hbextent hcextent hjoin, hb.ofInt_len hn, hc.ofInt_len hn,
    hs.ofInt_len hn, lengths_join hn hu hb hc hjoin, hs.len_eq hn]
  refine ⟨fun hle => ?_, fun hlt => ?_⟩
  · rw [if_pos hle, if_pos hle]
    exact ⟨rfl, rfl⟩
  · rw [if_neg (Int.not_le.mpr hlt), if_neg (Int.not_le.mpr hlt)]
    exact ⟨rfl, rfl⟩

/-- A constituent with a gap of two is filled, once within the horizon and once beyond it. The same
patterns are those of one pair of spans further on. -/
theorem signatures_mirror_joins_gapped :
    ∃ x ∈ Parser.gapped.grammar.clauses, x.isUnary = false ∧
      x.join.join (.two 3 4 6 8) (.one 4 6) = some (.one 3 8) ∧
      (patterns 5).join x.yield x.join (Span.two 3 4 6 8).pattern.bits (Span.one 4 6).pattern.bits =
        some (Span.one 3 8).pattern.bits ∧
      (lengths 4).join x.yield x.join (UInt64.ofInt (Span.two 3 4 6 8).len)
        (UInt64.ofInt (Span.one 4 6).len) = none ∧
      ∃! y : Span × Span, (y.1.Within (Word.bound - 1) ∧ y.1.pattern = (Span.two 3 4 6 8).pattern) ∧
        (y.2.Within (Word.bound - 1) ∧ y.2.pattern = (Span.one 4 6).pattern) ∧
          x.join.join y.1 y.2 = some (.one 90 95) := by
  obtain ⟨x, hx, hu, hfill⟩ : ∃ x ∈ Parser.gapped.grammar.clauses,
      x.isUnary = false ∧ x.join = .fillGap := by decide +kernel
  have hjoins := fun maxlen hmax => signatures_mirror_joins Parser.gapped.grammar Table.gapped_built
    x hx hu maxlen hmax (.two 3 4 6 8) (.one 4 6) ⟨by decide, by decide, by decide⟩
    ⟨by decide, by decide, by decide⟩
  have hjoin : x.join.join (.two 3 4 6 8) (.one 4 6) = some (.one 3 8) := by
    rw [hfill]
    decide
  have hwithin := ((hjoins 5 (by decide) (by decide) (by decide)).1 _ hjoin).1 (by decide)
  have hbeyond := ((hjoins 4 (by decide) (by decide) (by decide)).1 _ hjoin).2 (by decide)
  exact ⟨x, hx, hu, hjoin, hwithin.1, hbeyond.2,
    (hjoins 5 (by decide) (by decide) (by decide)).2 (.one 90 95)
      ⟨by decide, by decide, by decide⟩ hwithin.1⟩

end Scheme

end Discontinuous
