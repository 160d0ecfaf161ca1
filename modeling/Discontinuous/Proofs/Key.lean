import Discontinuous.Key
import Mathlib

/-!
Keys tell labels and spans apart as long as both are in range: twenty-four bits for a label, ten
for each boundary. No word is left over, since each of them unpacks to a label and a span in range.
-/
namespace Discontinuous.Key

/-- What ten bits hold of a boundary, the unset one included. -/
def Fits (x : Int) : Prop := -1 ≤ x ∧ x ≤ maxPosition

instance (x : Int) : Decidable (Fits x) := inferInstanceAs (Decidable (_ ∧ _))

/-- The number of labels that keys tell apart. -/
def labelLimit : Nat := 0x1000000

structure InRange (l : Label) (s : Span) : Prop where
  label_nonneg : 0 ≤ l.id
  label_lt : l.id < labelLimit
  l1 : Fits s.l1
  r1 : Fits s.r1
  l2 : Fits s.l2
  r2 : Fits s.r2

theorem inRange_iff_and (l : Label) (s : Span) : InRange l s ↔
    0 ≤ l.id ∧ l.id < labelLimit ∧ Fits s.l1 ∧ Fits s.r1 ∧ Fits s.l2 ∧ Fits s.r2 :=
  ⟨fun ⟨h1, h2, h3, h4, h5, h6⟩ => ⟨h1, h2, h3, h4, h5, h6⟩,
    fun ⟨h1, h2, h3, h4, h5, h6⟩ => ⟨h1, h2, h3, h4, h5, h6⟩⟩

instance (l : Label) (s : Span) : Decidable (InRange l s) :=
  decidable_of_iff' _ (inRange_iff_and l s)

/-- A number that fits into a word is its own residue. -/
theorem toNat_ofInt {x : Int} (hlow : 0 ≤ x) (hhigh : x < Word.bound) :
    (UInt64.ofInt x).toNat = x.toNat := by
  simp only [Word.bound] at hhigh
  simp only [UInt64.ofInt]
  rw [UInt64.toNat_ofNat', Int.emod_eq_of_lt hlow (by omega)]
  omega

theorem Fits.toNat_lt {x : Int} (h : Fits x) : (x + 1).toNat < 1024 := by
  have := h.2
  simp only [maxPosition] at this
  omega

theorem Fits.eq_of_toNat {x y : Int} (hx : Fits x) (hy : Fits y)
    (h : (x + 1).toNat = (y + 1).toNat) : x = y := by
  have := hx.1
  have := hy.1
  omega

theorem toNat_pack (bits : UInt64) {x : Int} (hb : bits.toNat < 0x40000000000000) (hx : Fits x) :
    (pack bits x).toNat = bits.toNat * 1024 + (x + 1).toNat := by
  obtain ⟨hlow, hhigh⟩ := hx
  simp only [maxPosition] at hhigh
  have hsmall : (UInt64.ofInt (x + 1)).toNat = (x + 1).toNat :=
    toNat_ofInt (by omega) (by unfold Word.bound; omega)
  have hlt : (x + 1).toNat < 2 ^ 10 := by omega
  simp only [pack]
  rw [UInt64.toNat_or, UInt64.toNat_shiftLeft, hsmall]
  have hshift : bits.toNat <<< ((10 : UInt64).toNat % 64) % 2 ^ 64 = bits.toNat <<< 10 := by
    change bits.toNat <<< 10 % 2 ^ 64 = bits.toNat <<< 10
    rw [Nat.shiftLeft_eq]
    omega
  rw [hshift, ← Nat.shiftLeft_add_eq_or_of_lt hlt, Nat.shiftLeft_eq]

/-- A key in range is the number with the label and the shifted boundaries as its digits. -/
theorem toNat_of {l : Label} {s : Span} (h : InRange l s) :
    (of l s).bits.toNat = (((l.id.toNat * 1024 + (s.l1 + 1).toNat) * 1024 +
      (s.r1 + 1).toNat) * 1024 + (s.l2 + 1).toNat) * 1024 + (s.r2 + 1).toNat := by
  have hl := h.label_lt
  simp only [labelLimit] at hl
  have h0 : (UInt64.ofInt l.id).toNat = l.id.toNat :=
    toNat_ofInt h.label_nonneg (by unfold Word.bound; omega)
  have h1 := toNat_pack (UInt64.ofInt l.id) (by omega) h.l1
  have hl1 := h.l1.toNat_lt
  have h2 := toNat_pack (pack (UInt64.ofInt l.id) s.l1) (by omega) h.r1
  have hr1 := h.r1.toNat_lt
  have h3 := toNat_pack (pack (pack (UInt64.ofInt l.id) s.l1) s.r1) (by omega) h.l2
  have hl2 := h.l2.toNat_lt
  simp only [of]
  rw [toNat_pack _ (by omega) h.r2, h3, h2, h1, h0]

theorem digits_injective {a b c d : Nat} (hb : b < 1024) (hd : d < 1024)
    (h : a * 1024 + b = c * 1024 + d) : a = c ∧ b = d := by
  omega

theorem of_injective {l l' : Label} {s s' : Span} (h : InRange l s) (h' : InRange l' s')
    (heq : of l s = of l' s') : l = l' ∧ s = s' := by
  have hbits := congrArg (fun k => k.bits.toNat) heq
  simp only [toNat_of h, toNat_of h'] at hbits
  obtain ⟨hbits, hr2⟩ := digits_injective h.r2.toNat_lt h'.r2.toNat_lt hbits
  obtain ⟨hbits, hl2⟩ := digits_injective h.l2.toNat_lt h'.l2.toNat_lt hbits
  obtain ⟨hbits, hr1⟩ := digits_injective h.r1.toNat_lt h'.r1.toNat_lt hbits
  obtain ⟨hlabel, hl1⟩ := digits_injective h.l1.toNat_lt h'.l1.toNat_lt hbits
  have hid : l.id = l'.id := by
    have := h.label_nonneg
    have := h'.label_nonneg
    omega
  cases l
  cases l'
  cases s
  cases s'
  cases hid
  cases h.l1.eq_of_toNat h'.l1 hl1
  cases h.r1.eq_of_toNat h'.r1 hr1
  cases h.l2.eq_of_toNat h'.l2 hl2
  cases h.r2.eq_of_toNat h'.r2 hr2
  exact ⟨rfl, rfl⟩

/-- The bits above the boundaries. -/
theorem label_eq (k : Key) : k.label = ⟨(k.bits.toNat / 0x10000000000 : Nat)⟩ := by
  have hplace : (40 : UInt64).toNat % 64 = 40 := by decide
  simp only [label]
  rw [UInt64.toNat_shiftRight, hplace, Nat.shiftRight_eq_div_pow]

/-- Ten bits from a place on. -/
theorem unpack_eq (k : Key) {place : UInt64} (hplace : place.toNat < 64) :
    k.unpack place = (k.bits.toNat / 2 ^ place.toNat % 1024 : Nat) - 1 := by
  have hmask : (1023 : UInt64).toNat = 2 ^ 10 - 1 := by decide
  simp only [unpack]
  rw [UInt64.toNat_and, UInt64.toNat_shiftRight, Nat.mod_eq_of_lt hplace,
    Nat.shiftRight_eq_div_pow, hmask, Nat.and_two_pow_sub_one_eq_mod]

theorem span_eq (k : Key) : k.span =
    ⟨(k.bits.toNat / 0x40000000 % 1024 : Nat) - 1, (k.bits.toNat / 0x100000 % 1024 : Nat) - 1,
      (k.bits.toNat / 0x400 % 1024 : Nat) - 1, (k.bits.toNat % 1024 : Nat) - 1⟩ := by
  have hlast : k.bits.toNat / 2 ^ (0 : UInt64).toNat = k.bits.toNat := Nat.div_one _
  simp only [span]
  rw [unpack_eq k (by decide), unpack_eq k (by decide), unpack_eq k (by decide),
    unpack_eq k (by decide), hlast]
  rfl

theorem fits_digit (n : Nat) : Fits ((n % 1024 : Nat) - 1) := by
  have hlt := Nat.mod_lt n (show 0 < 1024 by decide)
  unfold Fits maxPosition
  omega

/-- Whatever is unpacked fits. -/
theorem inRange_unpacked (k : Key) : InRange k.label k.span := by
  rw [label_eq, span_eq]
  refine ⟨?_, ?_, fits_digit _, fits_digit _, fits_digit _, fits_digit _⟩
  · exact Int.natCast_nonneg _
  · exact Int.ofNat_lt.mpr (Nat.div_lt_of_lt_mul k.bits.toNat_lt)

theorem of_unpacked (k : Key) : of k.label k.span = k := by
  have hbits : (of k.label k.span).bits = k.bits := by
    apply UInt64.toNat_inj.mp
    have hr1 := Nat.div_div_eq_div_mul k.bits.toNat 0x400 0x400
    have hl1 := Nat.div_div_eq_div_mul k.bits.toNat 0x100000 0x400
    have hlabel := Nat.div_div_eq_div_mul k.bits.toNat 0x40000000 0x400
    rw [toNat_of k.inRange_unpacked, label_eq, span_eq]
    simp only [Int.sub_add_cancel, Int.toNat_natCast]
    -- each digit is put back below those above it
    rw [← hlabel, Nat.div_add_mod', ← hl1, Nat.div_add_mod', ← hr1, Nat.div_add_mod',
      Nat.div_add_mod']
  cases k
  exact congrArg Key.mk hbits

theorem unpacked_of {l : Label} {s : Span} (h : InRange l s) :
    (of l s).label = l ∧ (of l s).span = s :=
  of_injective (of l s).inRange_unpacked h (of l s).of_unpacked

/-- Labels and spans in range are packed one to one, and every word is a key of theirs. -/
theorem of_bijective :
    (∀ l s, InRange l s → (of l s).label = l ∧ (of l s).span = s) ∧
      (∀ l l' s s', InRange l s → InRange l' s' → of l s = of l' s' → l = l' ∧ s = s') ∧
      ∀ k : Key, InRange k.label k.span ∧ of k.label k.span = k :=
  ⟨fun _ _ h => unpacked_of h, fun _ _ _ _ h h' heq => of_injective h h' heq,
    fun k => ⟨k.inRange_unpacked, k.of_unpacked⟩⟩

/-- The largest label, with the last boundaries that fit and with the unset ones. -/
theorem of_bijective_largest :
    InRange ⟨0xffffff⟩ (.two 0 1 1021 1022) ∧ InRange ⟨0xffffff⟩ (.one 0 1022) ∧
      (of ⟨0xffffff⟩ (.two 0 1 1021 1022)).label = ⟨0xffffff⟩ ∧
      (of ⟨0xffffff⟩ (.one 0 1022)).span = .one 0 1022 ∧
      of ⟨0xffffff⟩ (.two 0 1 1021 1022) ≠ of ⟨0xffffff⟩ (.one 0 1022) ∧
      of (label ⟨0xffffffffffffffff⟩) (span ⟨0xffffffffffffffff⟩) = ⟨0xffffffffffffffff⟩ := by
  have htwo : InRange ⟨0xffffff⟩ (.two 0 1 1021 1022) := by decide
  have hone : InRange ⟨0xffffff⟩ (.one 0 1022) := by decide
  refine ⟨htwo, hone, (of_bijective.1 _ _ htwo).1, (of_bijective.1 _ _ hone).2, ?_,
    (of_bijective.2.2 _).2⟩
  intro heq
  have hspan := (of_bijective.2.1 _ _ _ _ htwo hone heq).2
  revert hspan
  decide

end Discontinuous.Key
