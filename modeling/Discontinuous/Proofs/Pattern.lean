import Discontinuous.Pattern
import Mathlib

/-!
Patterns, read as strings of digits below a sentinel. Writing the lengths of ranges and reading
them back gives the same lengths, as long as there is room for them.
-/
namespace Discontinuous.Pattern

/-- The number whose binary digits are a leading one and the given ones. -/
def ofDigits (ds : List Bool) : Nat := ds.foldl (fun n d => 2 * n + d.toNat) 1

theorem ofDigits_concat (ds : List Bool) (d : Bool) :
    ofDigits (ds ++ [d]) = 2 * ofDigits ds + d.toNat := by
  simp only [ofDigits]
  rw [List.foldl_append]
  rfl

theorem ofDigits_bounds (ds : List Bool) :
    2 ^ ds.length ≤ ofDigits ds ∧ ofDigits ds < 2 ^ (ds.length + 1) := by
  induction ds using List.reverseRecOn with
  | nil => decide
  | append_singleton ds d ih =>
      rw [ofDigits_concat, List.length_append, List.length_singleton, Nat.pow_succ 2 (_ + 1)]
      have hd := d.toNat_le
      rw [Nat.pow_succ] at ih ⊢
      omega

theorem ofDigits_run (ds : List Bool) (n : Nat) :
    ofDigits (ds ++ List.replicate n true) = ofDigits ds * 2 ^ n + (2 ^ n - 1) := by
  induction n with
  | zero => simp
  | succ n ih =>
      have hpos := Nat.two_pow_pos n
      rw [List.replicate_succ', ← List.append_assoc, ofDigits_concat, ih, Nat.pow_succ,
        Nat.mul_add, ← Nat.mul_assoc, Nat.mul_comm 2 (ofDigits ds), Nat.mul_assoc (ofDigits ds),
        Nat.mul_comm 2]
      simp only [Bool.toNat_true]
      omega

theorem testBit_ofDigits (ds : List Bool) :
    (List.range ds.length).reverse.map (fun i => (ofDigits ds).testBit i) = ds := by
  induction ds using List.reverseRecOn with
  | nil => rfl
  | append_singleton ds d ih =>
      have hzero : (2 * ofDigits ds + d.toNat).testBit 0 = d := by
        rw [Nat.testBit_zero]
        cases d <;> simp
      have hsucc : ∀ i, (2 * ofDigits ds + d.toNat).testBit (i + 1) = (ofDigits ds).testBit i := by
        intro i
        have hd := d.toNat_le
        rw [Nat.testBit_add_one, show (2 * ofDigits ds + d.toNat) / 2 = ofDigits ds from ?_]
        cases d with
        | false => simp
        | true =>
            simp only [Bool.toNat_true]
            omega
      rw [ofDigits_concat, List.length_append, List.length_singleton, List.range_succ_eq_map,
        List.reverse_cons, List.map_append, ← List.map_reverse, List.map_map, List.map_singleton,
        hzero]
      congr 1
      refine Eq.trans ?_ ih
      exact List.map_congr_left fun i _ => hsucc i

theorem digits_eq {p : Pattern} {ds : List Bool} (h : p.bits.toNat = ofDigits ds) :
    p.digits = ds := by
  obtain ⟨hlow, hhigh⟩ := ofDigits_bounds ds
  have hwidth : p.width = ds.length := by
    simp only [width]
    rw [h, Nat.log2_eq_iff (by have := Nat.two_pow_pos ds.length; omega)]
    exact ⟨hlow, hhigh⟩
  simp only [digits]
  rw [hwidth, h]
  exact testBit_ofDigits ds

/-- A run of ones for each length, and a zero in front of all but the first. -/
def digitsOf : List Nat → List Bool
  | [] => []
  | n :: rest => List.replicate n true ++ rest.flatMap fun m => false :: List.replicate m true

theorem runLengths_run (run n : Nat) (ds : List Bool) :
    runLengths run (List.replicate n true ++ ds) = runLengths (run + n) ds := by
  induction n generalizing run with
  | zero => rfl
  | succ n ih =>
      rw [List.replicate_succ, List.cons_append, runLengths, ih, Nat.add_assoc, Nat.add_comm 1]

theorem runLengths_runs (run : Nat) (rest : List Nat) :
    runLengths run (rest.flatMap fun m => false :: List.replicate m true) = run :: rest := by
  induction rest generalizing run with
  | nil => rfl
  | cons m rest ih =>
      rw [List.flatMap_cons, List.cons_append, runLengths, runLengths_run, ih, Nat.zero_add]

theorem runLengths_digitsOf (n : Nat) (rest : List Nat) :
    runLengths 0 (digitsOf (n :: rest)) = n :: rest := by
  rw [digitsOf, runLengths_run, runLengths_runs, Nat.zero_add]

theorem toNat_shiftLeft {bits : UInt64} {n : Nat} (hn : n ≤ 63)
    (hlt : bits.toNat * 2 ^ n < 2 ^ 64) : (Word.shiftLeft bits n).toNat = bits.toNat * 2 ^ n := by
  have hcount : (n.toUInt64).toNat = n := by
    change n % 2 ^ 64 = n
    exact Nat.mod_eq_of_lt (by omega)
  simp only [Word.shiftLeft]
  rw [if_pos (by omega), Int.toNat_natCast, UInt64.toNat_shiftLeft, hcount,
    Nat.mod_eq_of_lt (show n < 64 by omega), Nat.shiftLeft_eq, Nat.mod_eq_of_lt hlt]

theorem toNat_ones {n : Nat} (hn : n ≤ 63) : (Word.ones n).toNat = 2 ^ n - 1 := by
  have hlt : 2 ^ n < 2 ^ 64 := Nat.pow_lt_pow_right (by omega) (by omega)
  have hshift : (Word.shiftLeft 1 n).toNat = 2 ^ n := by
    rw [toNat_shiftLeft hn]
    · simp
    · simpa using hlt
  have hpos := Nat.two_pow_pos n
  simp only [Word.ones]
  rw [UInt64.toNat_sub_of_le, hshift]
  · rfl
  · rw [UInt64.le_iff_toNat_le, hshift]
    exact hpos

theorem ofDigits_lt {ds : List Bool} (h : ds.length ≤ 63) : ofDigits ds < 2 ^ 64 :=
  Nat.lt_of_lt_of_le (ofDigits_bounds ds).2 (Nat.pow_le_pow_right (by omega) (by omega))

variable {bits : UInt64} {ds : List Bool}

theorem appendRun_eq (hb : bits.toNat = ofDigits ds) {n : Nat} (hw : ds.length + n ≤ 63) :
    ∃ bits', appendRun bits ds.length n = some (bits', ((ds.length + n : Nat) : Int)) ∧
      bits'.toNat = ofDigits (ds ++ List.replicate n true) := by
  have hwrap : Word.wrap ((ds.length : Int) + n) = ((ds.length + n : Nat) : Int) := by
    rw [Word.wrap_of_bounds]
    · omega
    · simp only [Word.bound]
      omega
    · simp only [Word.bound]
      omega
  have hrun := ofDigits_run ds n
  have hlt : ofDigits (ds ++ List.replicate n true) < 2 ^ 64 := ofDigits_lt (by simpa using hw)
  refine ⟨Word.shiftLeft bits n ||| Word.ones n, ?_, ?_⟩
  · unfold appendRun maxWidth
    dsimp only
    rw [hwrap, if_neg (by omega)]
  · have hsmall : 2 ^ n - 1 < 2 ^ n := by
      have := Nat.two_pow_pos n
      omega
    rw [UInt64.toNat_or, toNat_shiftLeft (by omega) (by rw [hb]; omega), toNat_ones (by omega), hb,
      hrun, ← Nat.shiftLeft_eq, ← Nat.shiftLeft_add_eq_or_of_lt hsmall]

theorem appendRuns_cons (bits : UInt64) (width length : Int) (rest : List Int) :
    appendRuns bits width (length :: rest) =
      (appendRun (bits <<< 1) (Word.wrap (width + 1)) length).bind fun r =>
        appendRuns r.1 r.2 rest := by
  rw [appendRuns.eq_def]
  dsimp only
  cases appendRun (bits <<< 1) (Word.wrap (width + 1)) length <;> rfl

theorem appendRuns_eq (rest : List Nat) (hb : bits.toNat = ofDigits ds)
    (hw : (ds ++ rest.flatMap fun m => false :: List.replicate m true).length ≤ 63) :
    ∃ bits' width, appendRuns bits ds.length (rest.map Int.ofNat) = some (bits', width) ∧
      bits'.toNat = ofDigits (ds ++ rest.flatMap fun m => false :: List.replicate m true) := by
  induction rest generalizing bits ds with
  | nil => exact ⟨bits, ds.length, rfl, by simpa using hb⟩
  | cons m rest ih =>
      have hw' : ds.length + 1 + m + (rest.flatMap fun m => false :: List.replicate m true).length ≤
          63 := by
        simp only [List.flatMap_cons, List.length_append, List.length_cons,
          List.length_replicate] at hw ⊢
        omega
      have hgap : (bits <<< 1).toNat = ofDigits (ds ++ [false]) := by
        have hlt : ofDigits (ds ++ [false]) < 2 ^ 64 := by
          apply ofDigits_lt
          rw [List.length_append, List.length_singleton]
          omega
        have hone : (1 : UInt64).toNat % 64 = 1 := by decide
        rw [ofDigits_concat, Bool.toNat_false, Nat.add_zero] at hlt ⊢
        rw [UInt64.toNat_shiftLeft, hone, Nat.shiftLeft_eq, hb, Nat.pow_one, Nat.mul_comm]
        exact Nat.mod_eq_of_lt hlt
      have hwrap : Word.wrap ((ds.length : Int) + 1) = ((ds ++ [false]).length : Int) := by
        rw [Word.wrap_of_bounds]
        · simp
        · simp only [Word.bound]
          omega
        · simp only [Word.bound]
          omega
      obtain ⟨bits', hrun, hbits'⟩ := appendRun_eq hgap (n := m) (by
        rw [List.length_append, List.length_singleton]
        omega)
      obtain ⟨bits'', width, hruns, hbits''⟩ := ih hbits' (by
        simp only [List.length_append, List.length_singleton, List.length_replicate] at hw' ⊢
        omega)
      refine ⟨bits'', width, ?_, ?_⟩
      · have hlength : ((ds ++ [false] ++ List.replicate m true).length : Int) =
            (((ds ++ [false]).length + m : Nat) : Int) := by
          rw [List.length_append, List.length_replicate]
        rw [List.map_cons, appendRuns_cons, hwrap, Int.ofNat_eq_natCast, hrun, Option.bind_some,
          ← hlength]
        exact hruns
      · rw [hbits'', List.flatMap_cons]
        simp

/-- Lengths that there is room for are written in full. -/
theorem toNat_ofLengths (ls : List Nat) (hw : (digitsOf ls).length ≤ 63) :
    (ofLengths (ls.map Int.ofNat)).bits.toNat = ofDigits (digitsOf ls) := by
  cases ls with
  | nil => rfl
  | cons n rest =>
      have hn : n ≤ 63 := by
        simp only [digitsOf, List.length_append, List.length_replicate] at hw
        omega
      have hone : (1 : UInt64).toNat = ofDigits [] := rfl
      obtain ⟨bits, hrun, hbits⟩ := appendRun_eq hone (n := n) (by simpa using hn)
      rw [List.nil_append] at hbits
      obtain ⟨bits', width, hruns, hbits'⟩ := appendRuns_eq rest hbits hw
      simp only [List.length_nil, Nat.zero_add, List.length_replicate] at hrun hruns
      rw [List.map_cons, ofLengths]
      have hrun' : appendRun 1 0 (Int.ofNat n) = some (bits, (n : Int)) := hrun
      rw [hrun']
      dsimp only
      rw [hruns]
      exact hbits'

theorem args_ofLengths (n : Nat) (rest : List Nat) (hw : (digitsOf (n :: rest)).length ≤ 63) :
    (ofLengths ((n :: rest).map Int.ofNat)).args = n :: rest := by
  simp only [args]
  rw [digits_eq (toNat_ofLengths _ hw), runLengths_digitsOf]

theorem ofLengths_ne_absent (ls : List Nat) (hw : (digitsOf ls).length ≤ 63) :
    ofLengths (ls.map Int.ofNat) ≠ absent := by
  intro heq
  have hbits := toNat_ofLengths ls hw
  have hpos := (ofDigits_bounds (digitsOf ls)).1
  have := Nat.two_pow_pos (digitsOf ls).length
  rw [heq] at hbits
  change 0 = _ at hbits
  omega

theorem length_digitsOf (n : Nat) (rest : List Nat) :
    (digitsOf (n :: rest)).length = (n :: rest).sum + rest.length := by
  have hruns : ∀ ms : List Nat,
      (ms.flatMap fun m => false :: List.replicate m true).length = ms.sum + ms.length := by
    intro ms
    induction ms with
    | nil => rfl
    | cons m ms ih =>
        simp only [List.flatMap_cons, List.length_append, List.length_cons, List.length_replicate,
          List.sum_cons, ih]
        omega
  rw [digitsOf, List.length_append, List.length_replicate, hruns, List.sum_cons]
  omega

theorem count_digitsOf (n : Nat) (rest : List Nat) :
    (digitsOf (n :: rest)).count true = (n :: rest).sum := by
  have hruns : ∀ ms : List Nat,
      (ms.flatMap fun m => false :: List.replicate m true).count true = ms.sum := by
    intro ms
    induction ms with
    | nil => rfl
    | cons m ms ih =>
        rw [List.flatMap_cons, List.count_append, ih, List.sum_cons]
        simp
  rw [digitsOf, List.count_append, hruns, List.sum_cons]
  simp

theorem len_ofLengths (n : Nat) (rest : List Nat) (hw : (digitsOf (n :: rest)).length ≤ 63) :
    (ofLengths ((n :: rest).map Int.ofNat)).len = (n :: rest).sum := by
  simp only [len]
  rw [digits_eq (toNat_ofLengths _ hw), count_digitsOf]

end Discontinuous.Pattern
