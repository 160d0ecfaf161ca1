import Discontinuous.Estimate.Table
import Discontinuous.Proofs.Join
import Discontinuous.Proofs.Pattern

/-!
Signatures of spans. A scheme keeps to finitely many signatures, and the signature of a span that
comes from a join is the join of its children's signatures, up to the horizon.
-/
namespace Discontinuous

/-- Lengths are too small to wrap. -/
theorem Word.toNat_ofNat {n : Nat} (hn : n < bound) : (UInt64.ofNat n).toNat = n := by
  simp only [bound] at hn
  exact UInt64.toNat_ofNat_of_lt' (by simp [UInt64.size]; omega)

namespace Scheme

/-- All signatures that occur are in the list, which is as long as the scheme says. -/
structure Bounded (scheme : Scheme) (signatures : List UInt64) : Prop where
  seed : scheme.seed ∈ signatures
  join : ∀ {jt : JoinType} {a b c}, a ∈ signatures → b ∈ signatures →
    scheme.join jt.yield jt a b = some c → c ∈ signatures
  length_le : signatures.length ≤ scheme.count

/-- Spans of a sentence of `n` tokens have signatures that follow their joins up to the horizon. -/
structure Follows (scheme : Scheme) (n : Int) (signature : Span → UInt64) : Prop where
  seed : ∀ i : Nat, signature (.one i (i + 1)) = scheme.seed
  join : ∀ {jt b c s}, jt.isUnary = false → b.Within n → c.Within n → jt.join b c = some s →
    s.extent ≤ (scheme.maxlen : Int) →
    scheme.join jt.yield jt (signature b) (signature c) = some (signature s)
  length : ∀ {s}, s.Within n → s.extent ≤ (scheme.maxlen : Int) →
    (scheme.length (signature s) : Int) = s.extent

/-- The lengths from one up to the horizon. -/
def lengthList (maxlen : Nat) : List UInt64 :=
  (List.range maxlen).map fun i => UInt64.ofNat (i + 1)

theorem mem_lengthList {maxlen n : Nat} (hpos : 1 ≤ n) (hle : n ≤ maxlen) :
    UInt64.ofNat n ∈ lengthList maxlen := by
  refine List.mem_map.mpr ⟨n - 1, List.mem_range.mpr (by omega), ?_⟩
  rw [Nat.sub_add_cancel hpos]

theorem bounded_lengths {maxlen : Nat} (h : 1 ≤ maxlen) :
    (lengths maxlen).Bounded (lengthList maxlen) := by
  refine ⟨mem_lengthList (Nat.le_refl 1) h, ?_, ?_⟩
  · intro jt a b c ha hb hc
    simp only [lengths] at hc
    split at hc
    next hle =>
      cases hc
      -- words may wrap to zero if the horizon is beyond them, and then the sum is no new one
      by_cases hzero : a.toNat + b.toNat = 0
      · have hb0 : b = 0 := UInt64.toNat_inj.mp (by simp; omega)
        rwa [hb0, UInt64.add_zero]
      · have hsum : a + b = UInt64.ofNat (a.toNat + b.toNat) := by
          rw [UInt64.ofNat_add, UInt64.ofNat_toNat, UInt64.ofNat_toNat]
        rw [hsum]
        exact mem_lengthList (by omega) hle
    next => cases hc
  · simp [lengthList, lengths]

end Scheme

theorem Span.Within.extent_bounds {n : Int} {s : Span} (hs : s.Within n) :
    1 ≤ s.extent ∧ s.extent ≤ n := by
  have hlow := hs.1.arity_le_extent
  have harity := s.arity_eq_one_or_two
  have hhigh := hs.extent_le
  omega

namespace Scheme

theorem toNat_extent {n : Int} (hn : n < Word.bound) {s : Span} (hs : s.Within n) :
    ((UInt64.ofNat s.extent.toNat).toNat : Int) = s.extent := by
  have hbounds := hs.extent_bounds
  rw [Word.toNat_ofNat (by omega)]
  omega

/-- Lengths of spans that join add up, as long as the sum is within the horizon. -/
theorem lengths_join {maxlen : Nat} {n : Int} (hn : n < Word.bound) {jt : JoinType} {b c s : Span}
    (hu : jt.isUnary = false) (hb : b.Within n) (hc : c.Within n) (h : jt.join b c = some s) :
    (lengths maxlen).join jt.yield jt (UInt64.ofNat b.extent.toNat) (UInt64.ofNat c.extent.toNat) =
      if s.extent ≤ maxlen then some (UInt64.ofNat s.extent.toNat) else none := by
  have hsum := (JoinType.joined_of_join hu h hb.1 hc.1).extent
  have hbb := hb.extent_bounds
  have hcb := hc.extent_bounds
  have hb' := toNat_extent hn hb
  have hc' := toNat_extent hn hc
  simp only [lengths]
  refine if_congr (by omega) ?_ rfl
  rw [← UInt64.ofNat_add]
  congr 2
  omega

theorem follows_lengths (maxlen : Nat) {n : Int} (hn : n < Word.bound) :
    (lengths maxlen).Follows n fun s => UInt64.ofNat s.extent.toNat := by
  refine ⟨?_, ?_, fun hs _ => toNat_extent hn hs⟩
  · intro i
    have hone : (Span.one i (i + 1)).extent = 1 := by
      unfold Span.extent Span.one
      dsimp only
      rw [if_pos rfl]
      omega
    rw [hone]
    rfl
  · intro jt b c s hu hb hc hj hle
    rw [lengths_join hn hu hb hc hj]
    exact if_pos hle

end Scheme

/-- The lengths of the ranges. -/
def Span.lengths (s : Span) : List Nat :=
  if s.l2 = unset then [(s.r1 - s.l1).toNat] else [(s.r1 - s.l1).toNat, (s.r2 - s.l2).toNat]

namespace Span

theorem length_lengths (s : Span) : s.lengths.length = s.arity := by
  simp only [lengths, arity]
  split <;> rfl

theorem sum_lengths {s : Span} (hs : s.Valid) : (s.lengths.sum : Int) = s.extent := by
  obtain ⟨h0, h1, h2⟩ := hs
  simp only [lengths, extent]
  split
  · simp
    omega
  · rw [if_neg (by assumption)] at h2
    simp
    omega

theorem pos_of_mem_lengths {s : Span} (hs : s.Valid) : ∀ n ∈ s.lengths, 1 ≤ n := by
  obtain ⟨h0, h1, h2⟩ := hs
  simp only [lengths]
  split
  · simp
    omega
  · rw [if_neg (by assumption)] at h2
    simp
    omega

theorem pattern_eq {n : Int} (hn : n < Word.bound) {s : Span} (hs : s.Within n) :
    s.pattern = .ofLengths (s.lengths.map Int.ofNat) := by
  obtain ⟨⟨h0, h1, h2⟩, h3, h4⟩ := hs
  simp only [pattern, lengths]
  have hfirst : Word.wrap (s.r1 - s.l1) = ((s.r1 - s.l1).toNat : Int) := by
    rw [Word.wrap_of_bounds (by omega) (by omega)]
    omega
  split
  · rw [hfirst]
    rfl
  · rw [if_neg (by assumption)] at h2
    have hsecond : Word.wrap (s.r2 - s.l2) = ((s.r2 - s.l2).toNat : Int) := by
      rw [Word.wrap_of_bounds (by omega) (by omega)]
      omega
    rw [hfirst, hsecond]
    rfl

end Span

namespace Scheme

/-- The lengths of the parent's ranges are those of its children's, dealt out as the yield function
says. -/
theorem splice_join {jt : JoinType} {b c s : Span} (hu : jt.isUnary = false)
    (h : jt.join b c = some s) (hb : b.Valid) (hc : c.Valid) :
    splice jt.yield b.lengths c.lengths = some s.lengths := by
  obtain ⟨hbarity, hcarity⟩ := JoinType.arity_of_join h
  have hcarity := hcarity (JoinType.childArity_right_ne_zero hu)
  simp only [JoinType.join] at h
  rw [if_neg (by simp [hbarity, hcarity])] at h
  obtain ⟨hb0, hb1, hb2⟩ := hb
  obtain ⟨hc0, hc1, hc2⟩ := hc
  have hset : c.l1 ≠ Span.unset := by
    simp only [Span.unset]
    omega
  cases jt
  case copyOne | copyTwo => cases hu
  all_goals
    simp [JoinType.childArity, JoinType.yield, Yield.childArity, Span.arity_eq_one_iff,
      Span.arity_eq_two_iff] at h hbarity hcarity
    obtain ⟨hmeet, rfl⟩ := h
    simp only [hbarity, hcarity, if_true, if_false] at hb2 hc2
    simp [JoinType.yield, Span.lengths, Span.one, Span.two, splice, splice.take, hbarity, hcarity,
      hset] <;> omega

theorem take_pos {arg : List Side} {ls rs ls' rs' : List Nat} {n : Nat}
    (hl : ∀ x ∈ ls, 1 ≤ x) (hr : ∀ x ∈ rs, 1 ≤ x)
    (h : splice.take arg ls rs = some (n, ls', rs')) :
    arg.length ≤ n ∧ (∀ x ∈ ls', 1 ≤ x) ∧ ∀ x ∈ rs', 1 ≤ x := by
  fun_induction splice.take arg ls rs generalizing n ls' rs' with
  | case1 ls rs =>
      cases h
      exact ⟨Nat.le_refl 0, hl, hr⟩
  | case2 arg a ls rs ih =>
      obtain ⟨⟨m, us, vs⟩, htake, heq⟩ := Option.map_eq_some_iff.mp h
      cases heq
      obtain ⟨hm, hrest⟩ := ih (fun x hx => hl x (List.mem_cons_of_mem _ hx)) hr htake
      have ha := hl a List.mem_cons_self
      refine ⟨?_, hrest⟩
      rw [List.length_cons]
      omega
  | case3 arg ls a rs ih =>
      obtain ⟨⟨m, us, vs⟩, htake, heq⟩ := Option.map_eq_some_iff.mp h
      cases heq
      obtain ⟨hm, hrest⟩ := ih hl (fun x hx => hr x (List.mem_cons_of_mem _ hx)) htake
      have ha := hr a List.mem_cons_self
      refine ⟨?_, hrest⟩
      rw [List.length_cons]
      omega
  | case4 => cases h

theorem splice_pos {y : Yield} {ls rs cs : List Nat} (hy : ∀ arg ∈ y, arg ≠ [])
    (hl : ∀ x ∈ ls, 1 ≤ x) (hr : ∀ x ∈ rs, 1 ≤ x) (h : splice y ls rs = some cs) :
    cs.length = y.length ∧ ∀ x ∈ cs, 1 ≤ x := by
  induction y generalizing ls rs cs with
  | nil =>
      cases h
      exact ⟨rfl, fun x hx => nomatch hx⟩
  | cons arg y ih =>
      rw [splice] at h
      rcases htake : splice.take arg ls rs with _ | ⟨n, ls', rs'⟩
      · rw [htake] at h
        cases h
      · rw [htake] at h
        obtain ⟨cs', hcs', rfl⟩ := Option.map_eq_some_iff.mp h
        obtain ⟨hn, hl', hr'⟩ := take_pos hl hr htake
        obtain ⟨hlen, hpos⟩ := ih (fun a ha => hy a (List.mem_cons_of_mem _ ha)) hl' hr' hcs'
        have hne := List.length_pos_iff.mpr (hy arg List.mem_cons_self)
        refine ⟨?_, ?_⟩
        · rw [List.length_cons, List.length_cons, hlen]
        · intro x hx
          rcases List.mem_cons.mp hx with rfl | hx
          · omega
          · exact hpos x hx

theorem yield_ne_nil (jt : JoinType) : ∀ arg ∈ jt.yield, arg ≠ [] := by
  cases jt <;> decide

/-- An argument can be taken as long as there are ranges left. What it takes is no longer there. -/
theorem take_total {arg : List Side} {ls rs : List Nat} (hl : arg.count .left ≤ ls.length)
    (hr : arg.count .right ≤ rs.length) : ∃ n ls' rs', splice.take arg ls rs = some (n, ls', rs') ∧
      ls'.length + arg.count .left = ls.length ∧ rs'.length + arg.count .right = rs.length ∧
      n + ls'.sum + rs'.sum = ls.sum + rs.sum := by
  fun_induction splice.take arg ls rs with
  | case1 ls rs => exact ⟨0, ls, rs, rfl, by simp, by simp, by omega⟩
  | case2 arg a ls rs ih =>
      simp at hl hr
      obtain ⟨n, ls', rs', htake, hls, hrs, hsum⟩ := ih hl hr
      refine ⟨a + n, ls', rs', by rw [htake]; rfl, ?_, ?_, ?_⟩
      · simp
        omega
      · simpa using hrs
      · simp
        omega
  | case3 arg ls a rs ih =>
      simp at hl hr
      obtain ⟨n, ls', rs', htake, hls, hrs, hsum⟩ := ih hl hr
      refine ⟨a + n, ls', rs', by rw [htake]; rfl, ?_, ?_, ?_⟩
      · simpa using hls
      · simp
        omega
      · simp
        omega
  | case4 arg ls rs hnil hleft hright =>
      rcases arg with _ | ⟨_ | _, arg⟩
      · exact absurd rfl hnil
      · cases ls with
        | nil => simp at hl
        | cons a ls => exact (hleft arg a ls rfl rfl).elim
      · cases rs with
        | nil => simp at hr
        | cons a rs => exact (hright arg a rs rfl rfl).elim

theorem splice_total {y : Yield} {ls rs : List Nat} (hl : y.childArity .left = ls.length)
    (hr : y.childArity .right = rs.length) :
    ∃ cs, splice y ls rs = some cs ∧ cs.sum = ls.sum + rs.sum := by
  induction y generalizing ls rs with
  | nil =>
      obtain rfl := List.length_eq_zero_iff.mp hl.symm
      obtain rfl := List.length_eq_zero_iff.mp hr.symm
      exact ⟨[], rfl, rfl⟩
  | cons arg y ih =>
      simp only [Yield.childArity, List.flatten_cons, List.count_append] at hl hr ih
      have hleft : arg.count .left ≤ ls.length := by omega
      have hright : arg.count .right ≤ rs.length := by omega
      obtain ⟨n, ls', rs', htake, hls, hrs, hsum⟩ := take_total hleft hright
      have hleft' : y.flatten.count .left = ls'.length := by omega
      have hright' : y.flatten.count .right = rs'.length := by omega
      obtain ⟨cs, hcs, hrest⟩ := ih hleft' hright'
      refine ⟨n :: cs, ?_, ?_⟩
      · rw [splice, htake]
        simp [hcs]
      · simp
        omega

theorem childArity_of_isUnary {jt : JoinType} (hu : jt.isUnary = true) :
    jt.childArity .left = jt.arity := by
  cases jt with
  | copyOne => rfl
  | copyTwo => rfl
  | _ => cases hu

/-- The only child of a clause keeps its ranges. -/
theorem splice_unary {jt : JoinType} (hu : jt.isUnary = true) {ls : List Nat}
    (hl : ls.length = jt.childArity .left) : splice jt.yield ls [] = some ls := by
  cases jt with
  | copyOne =>
      obtain ⟨a, rfl⟩ := List.length_eq_one_iff.mp hl
      rfl
  | copyTwo =>
      obtain ⟨a, b, rfl⟩ := List.length_eq_two.mp hl
      rfl
  | _ => cases hu
/-- Lengths of the ranges of a span, the horizon not exceeded. -/
structure Fits (maxlen : Nat) (ls : List Nat) : Prop where
  arity : ls.length = 1 ∨ ls.length = 2
  pos : ∀ n ∈ ls, 1 ≤ n
  sum_le : ls.sum ≤ maxlen

theorem Fits.width_le {maxlen : Nat} {ls : List Nat} (h : Fits maxlen ls) (hmax : maxlen ≤ 60) :
    (Pattern.digitsOf ls).length ≤ 63 := by
  have hsum := h.sum_le
  have harity := h.arity
  cases ls with
  | nil => simp [Pattern.digitsOf]
  | cons n rest =>
      rw [Pattern.length_digitsOf]
      rw [List.length_cons] at harity
      omega

theorem Fits.args_eq {maxlen : Nat} {ls : List Nat} (h : Fits maxlen ls) (hmax : maxlen ≤ 60) :
    (Pattern.ofLengths (ls.map Int.ofNat)).args = ls := by
  have hwidth := h.width_le hmax
  have harity := h.arity
  cases ls with
  | nil => simp at harity
  | cons n rest => exact Pattern.args_ofLengths n rest hwidth

theorem fits_lengths {maxlen : Nat} {s : Span} (hs : s.Valid) (hle : s.extent ≤ maxlen) :
    Fits maxlen s.lengths := by
  refine ⟨?_, Span.pos_of_mem_lengths hs, ?_⟩
  · rw [Span.length_lengths]
    exact s.arity_eq_one_or_two
  · have hsum := Span.sum_lengths hs
    omega

theorem Fits.splice {maxlen : Nat} {jt : JoinType} {as bs cs : List Nat} (ha : Fits maxlen as)
    (hb : Fits maxlen bs) (h : splice jt.yield as bs = some cs) (hsum : cs.sum ≤ maxlen) :
    Fits maxlen cs := by
  obtain ⟨hlen, hpos⟩ := splice_pos (yield_ne_nil jt) ha.pos hb.pos h
  refine ⟨?_, hpos, hsum⟩
  rw [hlen]
  exact jt.arity_bounds

/-- Joining patterns is splicing the lengths that they stand for, up to the horizon. -/
theorem joinPatterns_eq {maxlen : Nat} (hmax : maxlen ≤ 60) {jt : JoinType} {as bs cs : List Nat}
    (ha : Fits maxlen as) (hb : Fits maxlen bs) (halen : as.length = jt.childArity .left)
    (hblen : bs.length = jt.childArity .right) (h : Scheme.splice jt.yield as bs = some cs) :
    joinPatterns maxlen jt.yield jt (Pattern.ofLengths (as.map Int.ofNat)).bits
      (Pattern.ofLengths (bs.map Int.ofNat)).bits =
        if cs.sum ≤ maxlen then some (Pattern.ofLengths (cs.map Int.ofNat)).bits else none := by
  simp only [joinPatterns]
  rw [ha.args_eq hmax, hb.args_eq hmax, if_neg (by simp [halen, hblen]), h]
  dsimp only
  rw [← List.sum_eq_foldl]
  by_cases hsum : cs.sum ≤ maxlen
  · have hc := ha.splice hb h hsum
    rw [if_neg (by omega), if_neg (Pattern.ofLengths_ne_absent cs (hc.width_le hmax)), if_pos hsum]
  · rw [if_pos (by omega), if_neg hsum]

/-- Patterns of spans that join give the pattern of the parent, as long as it is within the
horizon. -/
theorem patterns_join {maxlen : Nat} (hmax : maxlen ≤ 60) {n : Int} (hn : n < Word.bound)
    {jt : JoinType} {b c s : Span} (hu : jt.isUnary = false) (hb : b.Within n) (hc : c.Within n)
    (hble : b.extent ≤ maxlen) (hcle : c.extent ≤ maxlen) (h : jt.join b c = some s) :
    (patterns maxlen).join jt.yield jt b.pattern.bits c.pattern.bits =
      if s.extent ≤ maxlen then some s.pattern.bits else none := by
  have hs := JoinType.join_within h hb fun _ => hc
  have hsum := Span.sum_lengths hs.1
  obtain ⟨hbarity, hcarity⟩ := JoinType.arity_of_join h
  have hcarity := hcarity (JoinType.childArity_right_ne_zero hu)
  rw [Span.pattern_eq hn hb, Span.pattern_eq hn hc, Span.pattern_eq hn hs]
  change joinPatterns maxlen jt.yield jt _ _ = _
  rw [joinPatterns_eq hmax (fits_lengths hb.1 hble) (fits_lengths hc.1 hcle)
    (b.length_lengths.trans hbarity) (c.length_lengths.trans hcarity)
    (splice_join hu h hb.1 hc.1)]
  exact if_congr (by omega) rfl rfl

theorem follows_patterns {maxlen : Nat} (hmax : maxlen ≤ 60) {n : Int} (hn : n < Word.bound) :
    (patterns maxlen).Follows n fun s => s.pattern.bits := by
  refine ⟨?_, ?_, ?_⟩
  · intro i
    have hlength : Word.wrap ((i : Int) + 1 - i) = 1 := by
      rw [show (i : Int) + 1 - i = 1 by omega]
      decide
    unfold Span.pattern Span.one
    dsimp only
    rw [if_pos rfl, hlength]
    rfl
  · intro jt b c s hu hb hc hj hle
    have hjoined := JoinType.joined_of_join hu hj hb.1 hc.1
    have hbb := hb.extent_bounds
    have hcb := hc.extent_bounds
    have hsum := hjoined.extent
    have hle : s.extent ≤ maxlen := hle
    rw [patterns_join hmax hn hu hb hc (by omega) (by omega) hj]
    exact if_pos hle
  · intro s hs hle
    have hfits : Fits maxlen s.lengths := fits_lengths hs.1 hle
    have hwidth := hfits.width_le hmax
    have hsum := Span.sum_lengths hs.1
    have harity := hfits.arity
    have hlen : ∀ p : Pattern, (patterns maxlen).length p.bits = p.len := fun p => rfl
    rw [hlen, Span.pattern_eq hn hs]
    cases hls : s.lengths with
    | nil => simp [hls] at harity
    | cons n rest =>
        rw [hls] at hwidth hsum
        rw [Pattern.len_ofLengths n rest hwidth, hsum]

/-- All lists of lengths that fit. -/
def lengthLists (maxlen : Nat) : List (List Nat) :=
  (((List.range maxlen).map fun i => [i + 1]) ++
    (List.range maxlen).flatMap fun i => (List.range maxlen).map fun j => [i + 1, j + 1]).filter
      fun ls => decide (ls.sum ≤ maxlen)

theorem mem_lengthLists {maxlen : Nat} {ls : List Nat} :
    ls ∈ lengthLists maxlen ↔ Fits maxlen ls := by
  simp only [lengthLists, List.mem_filter, List.mem_append, List.mem_map, List.mem_flatMap,
    List.mem_range, decide_eq_true_eq]
  constructor
  · rintro ⟨⟨i, hi, rfl⟩ | ⟨i, hi, j, hj, rfl⟩, hsum⟩
    · exact ⟨.inl rfl, by simp, hsum⟩
    · exact ⟨.inr rfl, by simp, hsum⟩
  · rintro ⟨harity, hpos, hsum⟩
    refine ⟨?_, hsum⟩
    rcases harity with hone | htwo
    · obtain ⟨a, rfl⟩ := List.length_eq_one_iff.mp hone
      have ha := hpos a (by simp)
      simp at hsum
      exact .inl ⟨a - 1, by omega, by rw [Nat.sub_add_cancel ha]⟩
    · obtain ⟨a, b, rfl⟩ := List.length_eq_two.mp htwo
      have ha := hpos a (by simp)
      have hb := hpos b (by simp)
      simp at hsum
      exact .inr ⟨a - 1, by omega, b - 1, by omega, by
        rw [Nat.sub_add_cancel ha, Nat.sub_add_cancel hb]⟩

def patternList (maxlen : Nat) : List UInt64 :=
  (lengthLists maxlen).map fun ls => (Pattern.ofLengths (ls.map Int.ofNat)).bits

theorem mem_patternList {maxlen : Nat} {p : UInt64} :
    p ∈ patternList maxlen ↔
      ∃ ls, Fits maxlen ls ∧ (Pattern.ofLengths (ls.map Int.ofNat)).bits = p := by
  simp only [patternList]
  rw [List.mem_map]
  simp only [mem_lengthLists]

/-- Patterns that join stand for lengths that can be spliced within the horizon. -/
theorem splice_of_joinPatterns {maxlen : Nat} (hmax : maxlen ≤ 60) {jt : JoinType}
    {as bs : List Nat} (ha : Fits maxlen as) (hb : Fits maxlen bs) {p : UInt64}
    (h : joinPatterns maxlen jt.yield jt (Pattern.ofLengths (as.map Int.ofNat)).bits
      (Pattern.ofLengths (bs.map Int.ofNat)).bits = some p) :
    (as.length = jt.childArity .left ∧ bs.length = jt.childArity .right) ∧
      ∃ cs, splice jt.yield as bs = some cs ∧ Fits maxlen cs ∧
        (Pattern.ofLengths (cs.map Int.ofNat)).bits = p := by
  by_cases harity : as.length = jt.childArity .left ∧ bs.length = jt.childArity .right
  · refine ⟨harity, ?_⟩
    obtain ⟨cs, hsplice, -⟩ := splice_total harity.1.symm harity.2.symm
    rw [joinPatterns_eq hmax ha hb harity.1 harity.2 hsplice] at h
    split at h
    next hsum =>
      cases h
      exact ⟨cs, hsplice, ha.splice hb hsplice hsum, rfl⟩
    next => cases h
  · simp only [joinPatterns] at h
    rw [ha.args_eq hmax, hb.args_eq hmax, if_pos (by omega)] at h
    cases h

theorem bounded_patterns {maxlen : Nat} (hpos : 1 ≤ maxlen) (hmax : maxlen ≤ 60) :
    (patterns maxlen).Bounded (patternList maxlen) := by
  refine ⟨?_, ?_, ?_⟩
  · exact mem_patternList.mpr ⟨[1], ⟨.inl rfl, by simp, by simpa using hpos⟩, rfl⟩
  · intro jt a b c ha hb hc
    obtain ⟨as, has, rfl⟩ := mem_patternList.mp ha
    obtain ⟨bs, hbs, rfl⟩ := mem_patternList.mp hb
    obtain ⟨-, cs, -, hfits, hbits⟩ := splice_of_joinPatterns hmax has hbs hc
    exact mem_patternList.mpr ⟨cs, hfits, hbits⟩
  · simp only [patternList, lengthLists, patterns]
    rw [List.length_map]
    apply Nat.le_trans (List.length_filter_le _ _)
    simp [List.length_flatMap, List.map_const']

end Scheme

end Discontinuous
