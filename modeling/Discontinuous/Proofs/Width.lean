import Discontinuous.Proofs.Scheme

/-!
What patterns have room for. Lengths that are too many for a word have no pattern; all others are
read back from theirs, and every word but the absent one is the pattern of the lengths read from it.
-/
namespace Discontinuous

namespace Pattern

/-! From words to lengths and back. -/

theorem exists_ofDigits {n : Nat} (hn : 0 < n) : ∃ ds, ofDigits ds = n := by
  induction n using Nat.strongRecOn with
  | ind n ih =>
      by_cases hone : n = 1
      · exact ⟨[], hone.symm⟩
      · -- halving takes the last digit away and leaves the sentinel
        obtain ⟨ds, hds⟩ := ih (n / 2) (by omega) (by omega)
        refine ⟨ds ++ [n.testBit 0], ?_⟩
        rw [ofDigits_concat, hds, Nat.toNat_testBit, Nat.pow_zero, Nat.div_one]
        omega

/-- A word is its digits with the sentinel in front of them. -/
theorem ofDigits_digits {p : Pattern} (hp : p ≠ absent) : ofDigits p.digits = p.bits.toNat := by
  have hpos : 0 < p.bits.toNat := by
    apply Nat.pos_of_ne_zero
    intro hzero
    apply hp
    cases p
    exact congrArg Pattern.mk (UInt64.toNat_inj.mp hzero)
  obtain ⟨ds, hds⟩ := exists_ofDigits hpos
  rw [digits_eq hds.symm, hds]

theorem length_digits (p : Pattern) : p.digits.length = p.width := by
  simp [digits]

theorem width_le (p : Pattern) : p.width ≤ 63 := by
  have hword := p.bits.toNat_lt
  by_cases hzero : p.bits.toNat = 0
  · simp [width, hzero]
  · exact Nat.le_of_lt_succ ((Nat.log2_lt hzero).mpr hword)

theorem digitsOf_runLengths (run : Nat) (ds : List Bool) :
    digitsOf (runLengths run ds) = List.replicate run true ++ ds := by
  have hne : ∀ (run : Nat) (ds : List Bool), ∃ n rest, runLengths run ds = n :: rest := by
    intro run ds
    fun_induction runLengths run ds with
    | case1 run => exact ⟨run, [], rfl⟩
    | case2 run ds ih => exact ih
    | case3 run ds ih => exact ⟨run, _, rfl⟩
  fun_induction runLengths run ds with
  | case1 run => rfl
  | case2 run ds ih =>
      rw [ih, List.replicate_succ', List.append_assoc]
      rfl
  | case3 run ds ih =>
      obtain ⟨n, rest, heq⟩ := hne 0 ds
      rw [List.replicate_zero, List.nil_append, heq] at ih
      rw [heq, ← ih]
      rfl

/-- The lengths read from a word are those it stands for. -/
theorem ofLengths_args {p : Pattern} (hp : p ≠ absent) : ofLengths (p.args.map Int.ofNat) = p := by
  have hdigits : digitsOf p.args = p.digits := digitsOf_runLengths 0 p.digits
  have hbits : (ofLengths (p.args.map Int.ofNat)).bits = p.bits := by
    apply UInt64.toNat_inj.mp
    rw [toNat_ofLengths, hdigits, ofDigits_digits hp]
    rw [hdigits, length_digits]
    exact p.width_le
  cases h : ofLengths (p.args.map Int.ofNat)
  rw [h] at hbits
  cases p
  exact congrArg Pattern.mk hbits

/-! How much room there is. -/

/-- The number of positions and gaps in ranges of these lengths. -/
def widthOf (ls : List Nat) : Nat := ls.sum + (ls.length - 1)

theorem length_digitsOf_eq_widthOf {ls : List Nat} (hls : ls ≠ []) :
    (digitsOf ls).length = widthOf ls := by
  cases ls with
  | nil => exact absurd rfl hls
  | cons n rest => exact length_digitsOf n rest

/-- Appending a run fails for want of room alone. -/
theorem appendRun_eq_ite (bits : UInt64) {w n : Nat} (hword : w + n < Word.bound) :
    appendRun bits w n = if 63 < w + n then none
      else some (Word.shiftLeft bits n ||| Word.ones n, ((w + n : Nat) : Int)) := by
  have hwrap : Word.wrap ((w : Int) + n) = ((w + n : Nat) : Int) :=
    Word.wrap_of_bounds (by omega) (by omega)
  unfold appendRun maxWidth
  dsimp only
  rw [hwrap]
  split <;> split <;> first | rfl | omega

theorem appendRuns_eq_none (bits : UInt64) {w : Nat} (rest : List Nat) (hle : w ≤ 63)
    (hw : 63 < w + (rest.sum + rest.length)) (hword : w + (rest.sum + rest.length) < Word.bound) :
    appendRuns bits w (rest.map Int.ofNat) = none := by
  induction rest generalizing bits w with
  | nil =>
      rw [List.sum_nil, List.length_nil] at hw
      omega
  | cons m rest ih =>
      rw [List.sum_cons, List.length_cons] at hw hword
      have hgap : Word.wrap ((w : Int) + 1) = ((w + 1 : Nat) : Int) :=
        Word.wrap_of_bounds (by omega) (by omega)
      rw [List.map_cons, appendRuns_cons, hgap, Int.ofNat_eq_natCast,
        appendRun_eq_ite _ (by omega)]
      split
      next => rfl
      -- this run still fits, so one of those after it does not
      next hm => exact ih _ (by omega) (by omega) (by omega)

theorem ofLengths_eq_absent {ls : List Nat} (hls : ls ≠ []) (hw : 63 < widthOf ls)
    (hword : widthOf ls < Word.bound) : ofLengths (ls.map Int.ofNat) = absent := by
  cases ls with
  | nil => exact absurd rfl hls
  | cons n rest =>
      simp only [widthOf, List.sum_cons, List.length_cons, Nat.add_sub_cancel] at hw hword
      have hfirst := appendRun_eq_ite 1 (w := 0) (n := n) (by omega)
      rw [List.map_cons, ofLengths, Int.ofNat_eq_natCast]
      rw [Int.natCast_zero] at hfirst
      rw [hfirst]
      by_cases hn : 63 < 0 + n
      · rw [if_pos hn]
      · rw [if_neg hn]
        dsimp only
        rw [appendRuns_eq_none _ rest (by omega) (by omega) (by omega)]

/-- Just the lengths that are too many have no pattern, and all others are read back. -/
theorem ofLengths_told {ls : List Nat} (hls : ls ≠ []) (hword : widthOf ls < Word.bound) :
    (ofLengths (ls.map Int.ofNat) = absent ↔ 63 < widthOf ls) ∧
      (widthOf ls ≤ 63 → (ofLengths (ls.map Int.ofNat)).args = ls ∧
        (ofLengths (ls.map Int.ofNat)).width = widthOf ls ∧
        (ofLengths (ls.map Int.ofNat)).len = ls.sum) := by
  have hlength := length_digitsOf_eq_widthOf hls
  refine ⟨⟨?_, fun hw => ofLengths_eq_absent hls hw hword⟩, ?_⟩
  · intro habsent
    by_contra hw
    exact ofLengths_ne_absent ls (by omega) habsent
  · intro hw
    have hdigits : (ofLengths (ls.map Int.ofNat)).digits = digitsOf ls :=
      digits_eq (toNat_ofLengths ls (by omega))
    refine ⟨?_, ?_, ?_⟩
    · cases ls with
      | nil => exact absurd rfl hls
      | cons n rest => exact args_ofLengths n rest (by omega)
    · rw [← length_digits, hdigits, hlength]
    · cases ls with
      | nil => exact absurd rfl hls
      | cons n rest => exact len_ofLengths n rest (by omega)

end Pattern

namespace Span

theorem lengths_ne_nil (s : Span) : s.lengths ≠ [] := by
  unfold lengths
  split <;> exact List.cons_ne_nil _ _

/-- A gap takes up a position at least, so positions and gaps are no more than a word holds. -/
theorem Within.widthOf_lengths_lt {s : Span} (hs : s.Within (Word.bound - 1)) :
    Pattern.widthOf s.lengths < Word.bound := by
  obtain ⟨⟨h0, h1, h2⟩, h3, h4⟩ := hs
  simp only [Pattern.widthOf, lengths]
  split
  next =>
    simp only [List.sum_cons, List.sum_nil, List.length_cons, List.length_nil]
    omega
  next hset =>
    rw [if_neg hset] at h2
    simp only [List.sum_cons, List.sum_nil, List.length_cons, List.length_nil]
    omega

theorem args_pattern {s : Span} (hs : s.Within (Word.bound - 1)) (hp : s.pattern ≠ .absent) :
    s.pattern.args = s.lengths := by
  rw [pattern_eq (by omega) hs] at hp ⊢
  obtain ⟨habsent, htold⟩ := Pattern.ofLengths_told s.lengths_ne_nil hs.widthOf_lengths_lt
  exact (htold (Nat.le_of_not_lt fun hw => hp (habsent.mpr hw))).1

theorem pattern_eq_iff {s t : Span} (hs : s.Within (Word.bound - 1))
    (ht : t.Within (Word.bound - 1)) (hsp : s.pattern ≠ .absent) (htp : t.pattern ≠ .absent) :
    s.pattern = t.pattern ↔ s.arity = t.arity ∧ s.lengths = t.lengths := by
  constructor
  · intro heq
    have hlengths : s.lengths = t.lengths := by
      rw [← args_pattern hs hsp, heq, args_pattern ht htp]
    refine ⟨?_, hlengths⟩
    rw [← s.length_lengths, ← t.length_lengths, hlengths]
  · rintro ⟨-, hlengths⟩
    rw [pattern_eq (by omega) hs, pattern_eq (by omega) ht, hlengths]

end Span

/-- Patterns stand for lengths: they are absent just where there is no room, and read back
otherwise. Every other word is the pattern of what is read from it. So the patterns of two spans
tell their ranges' lengths apart, and their widths are small enough for words. -/
theorem Pattern.lengths_faithful :
    (∀ ls : List Nat, ls ≠ [] → widthOf ls < Word.bound →
      (ofLengths (ls.map Int.ofNat) = absent ↔ 63 < widthOf ls) ∧
        (widthOf ls ≤ 63 → (ofLengths (ls.map Int.ofNat)).args = ls ∧
          (ofLengths (ls.map Int.ofNat)).width = widthOf ls ∧
          (ofLengths (ls.map Int.ofNat)).len = ls.sum)) ∧
      (∀ p : Pattern, p ≠ absent → ofLengths (p.args.map Int.ofNat) = p) ∧
      (∀ s t : Span, s.Within (Word.bound - 1) → t.Within (Word.bound - 1) →
        s.pattern ≠ absent → t.pattern ≠ absent →
        (s.pattern = t.pattern ↔ s.arity = t.arity ∧ s.lengths = t.lengths)) ∧
      ∀ s : Span, s.Within (Word.bound - 1) →
        widthOf s.lengths < Word.bound ∧ s.pattern = ofLengths (s.lengths.map Int.ofNat) := by
  refine ⟨?_, ?_, ?_, ?_⟩
  · intro ls hls hword
    exact ofLengths_told hls hword
  · intro p hp
    exact ofLengths_args hp
  · intro s t hs ht hsp htp
    exact Span.pattern_eq_iff hs ht hsp htp
  · intro s hs
    exact ⟨hs.widthOf_lengths_lt, Span.pattern_eq (by omega) hs⟩

/-- Sixty-three positions and gaps are the most that have a pattern. The last span covers as many
positions as words count. -/
theorem Pattern.lengths_faithful_full :
    (ofLengths [0, 30, 31]).args = [0, 30, 31] ∧ (ofLengths [0, 30, 31]).width = 63 ∧
      ofLengths [0, 31, 31] = absent ∧
      ofLengths ((args ⟨0xbfffffffdfffffff⟩).map Int.ofNat) = ⟨0xbfffffffdfffffff⟩ ∧
      (Span.two 0 31 32 63).pattern = (Span.two 7 38 90 121).pattern ∧
      (Span.two 0 31 32 63).pattern ≠ (Span.two 0 30 32 64).pattern ∧
      widthOf (Span.two 0 1 2 (Word.bound - 1)).lengths < Word.bound := by
  obtain ⟨hlists, hwords, hspans, hwidths⟩ := lengths_faithful
  have hfull := hlists [0, 30, 31] (by decide) (by decide)
  have hwide := hlists [0, 31, 31] (by decide) (by decide)
  have hread := hfull.2 (by decide)
  refine ⟨hread.1, hread.2.1, hwide.1.mpr (by decide), hwords _ (by decide), ?_, ?_, ?_⟩
  · exact (hspans (.two 0 31 32 63) (.two 7 38 90 121) ⟨by decide, by decide, by decide⟩
      ⟨by decide, by decide, by decide⟩ (by decide) (by decide)).mpr (by decide)
  · intro heq
    have hsame := (hspans (.two 0 31 32 63) (.two 0 30 32 64) ⟨by decide, by decide, by decide⟩
      ⟨by decide, by decide, by decide⟩ (by decide) (by decide)).mp heq
    revert hsame
    decide
  · exact (hwidths (.two 0 1 2 (Word.bound - 1)) ⟨by decide, by decide, by decide⟩).1

end Discontinuous
