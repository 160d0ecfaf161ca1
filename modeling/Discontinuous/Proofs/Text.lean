import Mathlib.Data.List.DropRight
import Discontinuous.Text.Blank
import Discontinuous.Text.Quoted

/-!
Text and its bytes. Reading bytes loses none of them, and where a text is cut before an ASCII
character its parts can be read one by one.
-/
namespace Discontinuous.Text

variable {lead : UInt8} {rest : List UInt8} {c : Char} {n : Nat}

theorem within_eq_some {lo hi b : UInt8} (h : within lo hi b = some n) :
    lo.toNat ≤ b.toNat ∧ b.toNat ≤ hi.toNat ∧ n = b.toNat - lo.toNat := by
  simp only [within] at h
  split at h
  next hb =>
    cases h
    exact ⟨UInt8.le_iff_toNat_le.mp hb.1, UInt8.le_iff_toNat_le.mp hb.2, rfl⟩
  next => cases h

/-- The bytes of a character after its leading byte, as they are told apart when it is read. -/
inductive Encodes (lead : UInt8) : List UInt8 → Char → Prop where
  | one : lead < 0x80 → Encodes lead [] (Char.ofNat lead.toNat)
  | two {b1 : UInt8} {hi lo : Nat} : ¬ lead < 0x80 → within 0xC2 0xDF lead = some hi →
      continuation b1 = some lo → Encodes lead [b1] (Char.ofNat ((hi + 2) * 64 + lo))
  | three {b1 b2 : UInt8} {hi mid lo : Nat} : ¬ lead < 0x80 → within 0xC2 0xDF lead = none →
      within 0xE0 0xEF lead = some hi → second lead b1 = some mid → continuation b2 = some lo →
      Encodes lead [b1, b2] (Char.ofNat (hi * 4096 + mid * 64 + lo))
  | four {b1 b2 b3 : UInt8} {hi up mid lo : Nat} : ¬ lead < 0x80 → within 0xC2 0xDF lead = none →
      within 0xE0 0xEF lead = none → within 0xF0 0xF4 lead = some hi → second lead b1 = some up →
      continuation b2 = some mid → continuation b3 = some lo →
      Encodes lead [b1, b2, b3] (Char.ofNat (hi * 262144 + up * 4096 + mid * 64 + lo))

theorem charAt_of_encodes {bs : List UInt8} (h : Encodes lead bs c) (more : List UInt8) :
    charAt lead (bs ++ more) = some (c, bs.length) := by
  cases h with
  | one hlead => simp [charAt, hlead]
  | two hlead hhi hlo => simp [charAt, hlead, hhi, hlo]
  | three hlead hshort hhi hmid hlo => simp [charAt, hlead, hshort, hhi, hmid, hlo]
  | four hlead hshort hthree hhi hup hmid hlo =>
      simp [charAt, hlead, hshort, hthree, hhi, hup, hmid, hlo]

theorem encodes_of_charAt (h : charAt lead rest = some (c, n)) :
    ∃ bs more, rest = bs ++ more ∧ n = bs.length ∧ Encodes lead bs c := by
  unfold charAt at h
  split at h
  next hlead =>
    cases h
    exact ⟨[], rest, rfl, rfl, .one hlead⟩
  next hlead =>
    split at h
    next hi b1 more hhi =>
      obtain ⟨lo, hlo, heq⟩ := Option.bind_eq_some_iff.mp h
      cases heq
      exact ⟨[b1], more, rfl, rfl, .two hlead hhi hlo⟩
    next b1 b2 more hshort =>
      have hshort : within 0xC2 0xDF lead = none := Option.eq_none_iff_forall_ne_some.mpr hshort
      split at h
      next hi hhi =>
        obtain ⟨mid, hmid, h⟩ := Option.bind_eq_some_iff.mp h
        obtain ⟨lo, hlo, heq⟩ := Option.bind_eq_some_iff.mp h
        cases heq
        exact ⟨[b1, b2], _, rfl, rfl, .three hlead hshort hhi hmid hlo⟩
      next hi b3 more hthree hhi =>
        obtain ⟨up, hup, h⟩ := Option.bind_eq_some_iff.mp h
        obtain ⟨mid, hmid, h⟩ := Option.bind_eq_some_iff.mp h
        obtain ⟨lo, hlo, heq⟩ := Option.bind_eq_some_iff.mp h
        cases heq
        exact ⟨[b1, b2, b3], _, rfl, rfl, .four hlead hshort hthree hhi hup hmid hlo⟩
      next => cases h
    next => cases h

theorem continuation_eq_some {b : UInt8} (h : continuation b = some n) :
    0x80 ≤ b.toNat ∧ b.toNat ≤ 0xBF ∧ n = b.toNat - 0x80 :=
  within_eq_some h

/-- What the ranges of the byte after a leading byte rule out. -/
theorem second_eq_some {b : UInt8} (h : second lead b = some n) :
    0x80 ≤ b.toNat ∧ b.toNat ≤ 0xBF ∧ n = b.toNat - 0x80 ∧
      (lead.toNat = 0xE0 → 0xA0 ≤ b.toNat) ∧ (lead.toNat = 0xED → b.toNat ≤ 0x9F) ∧
      (lead.toNat = 0xF0 → 0x90 ≤ b.toNat) ∧ (lead.toNat = 0xF4 → b.toNat ≤ 0x8F) := by
  simp only [second, Option.map_eq_some_iff] at h
  obtain ⟨k, hk, rfl⟩ := h
  obtain ⟨hlo, hhi, rfl⟩ := within_eq_some hk
  have hlead : ∀ x : UInt8, lead = x ↔ lead.toNat = x.toNat := fun x => UInt8.toNat_inj.symm
  simp only [secondRange, hlead] at hlo hhi ⊢
  split_ifs at hlo hhi ⊢ <;> simp_all <;> omega

theorem toNat_ofNat_of_valid {n : Nat} (h : n.isValidChar) : (Char.ofNat n).val.toNat = n := by
  rw [Char.ofNat, dif_pos h]
  rfl

theorem byte_eq {x : Nat} {b : UInt8} (h : x = b.toNat) : UInt8.ofNat x = b := by
  rw [h, UInt8.ofNat_toNat]

/-- Characters are read where their encodings stand. -/
theorem Encodes.bytes_eq {bs : List UInt8} (h : Encodes lead bs c) :
    String.utf8EncodeChar c = lead :: bs := by
  cases h with
  | one hlead =>
      have hlead : lead.toNat < 0x80 := UInt8.lt_iff_toNat_lt.mp hlead
      have hvalue := toNat_ofNat_of_valid (n := lead.toNat) (.inl (by omega))
      simp only [String.utf8EncodeChar, hvalue]
      rw [if_pos (by omega), byte_eq rfl]
  | @two b1 hi lo _ hhi hlo =>
      have hlead := within_eq_some hhi
      have h1 := continuation_eq_some hlo
      simp only [UInt8.reduceToNat] at hlead
      have hvalue := toNat_ofNat_of_valid (n := (hi + 2) * 64 + lo) (.inl (by omega))
      simp only [String.utf8EncodeChar, hvalue]
      rw [if_neg (by omega), if_pos (by omega)]
      rw [byte_eq (b := lead) (by omega), byte_eq (b := b1) (by omega)]
  | @three b1 b2 hi mid lo _ _ hhi hmid hlo =>
      have hlead := within_eq_some hhi
      have h1 := second_eq_some hmid
      have h2 := continuation_eq_some hlo
      simp only [UInt8.reduceToNat] at hlead
      have hvalue := toNat_ofNat_of_valid (n := hi * 4096 + mid * 64 + lo)
        (by simp only [Nat.isValidChar]; omega)
      simp only [String.utf8EncodeChar, hvalue]
      rw [if_neg (by omega), if_neg (by omega), if_pos (by omega)]
      rw [byte_eq (b := lead) (by omega), byte_eq (b := b1) (by omega),
        byte_eq (b := b2) (by omega)]
  | @four b1 b2 b3 hi up mid lo _ _ _ hhi hup hmid hlo =>
      have hlead := within_eq_some hhi
      have h1 := second_eq_some hup
      have h2 := continuation_eq_some hmid
      have h3 := continuation_eq_some hlo
      simp only [UInt8.reduceToNat] at hlead
      have hvalue := toNat_ofNat_of_valid (n := hi * 262144 + up * 4096 + mid * 64 + lo)
        (by simp only [Nat.isValidChar]; omega)
      simp only [String.utf8EncodeChar, hvalue]
      rw [if_neg (by omega), if_neg (by omega), if_neg (by omega)]
      rw [byte_eq (b := lead) (by omega), byte_eq (b := b1) (by omega),
        byte_eq (b := b2) (by omega), byte_eq (b := b3) (by omega)]

/-- All bytes of a character but the first continue it. -/
theorem Encodes.continues {bs : List UInt8} (h : Encodes lead bs c) :
    ∀ b ∈ bs, 0x80 ≤ b.toNat := by
  cases h with
  | one => simp
  | two _ _ hlo => simpa using (continuation_eq_some hlo).1
  | three _ _ _ hmid hlo => simpa using ⟨(second_eq_some hmid).1, (continuation_eq_some hlo).1⟩
  | four _ _ _ _ hup hmid hlo =>
      simpa using ⟨(second_eq_some hup).1, (continuation_eq_some hmid).1,
        (continuation_eq_some hlo).1⟩

/-- The bytes can follow any others without being taken for a part of a character. -/
def Detached (bytes : List UInt8) : Prop := ∀ b ∈ bytes.head?, b < 0x80

theorem detached_cons (h : lead < 0x80) (rest : List UInt8) : Detached (lead :: rest) := by
  intro b hb
  cases hb
  exact h

theorem charAt_append {more : List UInt8} (h : Detached more) :
    charAt lead (rest ++ more) = charAt lead rest := by
  cases hr : charAt lead rest with
  | some x =>
      obtain ⟨c, n⟩ := x
      obtain ⟨bs, tail, rfl, rfl, henc⟩ := encodes_of_charAt hr
      rw [List.append_assoc]
      exact charAt_of_encodes henc _
  | none =>
      -- a character that ends in `more` would have its first byte there among the continuing ones
      cases hm : charAt lead (rest ++ more) with
      | none => rfl
      | some x =>
          obtain ⟨c, n⟩ := x
          obtain ⟨bs, tail, hsplit, rfl, henc⟩ := encodes_of_charAt hm
          rcases List.append_eq_append_iff.mp hsplit with ⟨more', rfl, hmore⟩ | ⟨tail', rfl, -⟩
          · cases more' with
            | nil =>
                rw [List.append_nil] at henc
                rw [← List.append_nil rest, charAt_of_encodes henc] at hr
                cases hr
            | cons b more' =>
                have hascii := h b (by rw [hmore]; rfl)
                have hbyte := henc.continues b (by simp)
                rw [UInt8.lt_iff_toNat_lt] at hascii
                simp only [UInt8.reduceToNat] at hascii
                omega
          · rw [charAt_of_encodes henc] at hr
            cases hr

theorem ofBytes_of_encodes {bs : List UInt8} (h : Encodes lead bs c) (more : List UInt8) :
    ofBytes (lead :: (bs ++ more)) = .char c :: ofBytes more := by
  rw [ofBytes, charAt_of_encodes h]
  simp

theorem ofBytes_ascii (h : lead < 0x80) (rest : List UInt8) :
    ofBytes (lead :: rest) = .char (Char.ofNat lead.toNat) :: ofBytes rest :=
  ofBytes_of_encodes (.one h) rest

theorem ofBytes_append (bytes : List UInt8) {more : List UInt8} (h : Detached more) :
    ofBytes (bytes ++ more) = ofBytes bytes ++ ofBytes more := by
  fun_induction ofBytes bytes with
  | case1 => rfl
  | case2 lead rest c n hchar ih =>
      obtain ⟨bs, tail, rfl, rfl, henc⟩ := encodes_of_charAt hchar
      rw [List.drop_left] at ih ⊢
      rw [List.cons_append, List.append_assoc, ofBytes_of_encodes henc, ih]
      rfl
  | case3 lead rest hnone ih =>
      rw [List.cons_append, ofBytes, charAt_append h, hnone]
      dsimp only
      rw [ih]
      rfl

theorem bytes_append (t u : Text) : bytes (t ++ u) = bytes t ++ bytes u := List.flatMap_append

/-- Reading loses no byte. -/
theorem bytes_ofBytes (bs : List UInt8) : bytes (ofBytes bs) = bs := by
  fun_induction ofBytes bs with
  | case1 => rfl
  | case2 lead rest c n hchar ih =>
      obtain ⟨bs, tail, rfl, rfl, henc⟩ := encodes_of_charAt hchar
      rw [List.drop_left] at ih
      simp only [bytes, List.flatMap_cons, Glyph.bytes] at ih ⊢
      rw [List.drop_left, ih, henc.bytes_eq]
      rfl
  | case3 lead rest hnone ih =>
      simp only [bytes, List.flatMap_cons, Glyph.bytes] at ih ⊢
      rw [ih]
      rfl

/-- A stray byte is no ASCII character. -/
theorem not_ascii_of_stray {bs : List UInt8} {b : UInt8} (h : .stray b ∈ ofBytes bs) :
    0x80 ≤ b.toNat := by
  fun_induction ofBytes bs with
  | case1 => cases h
  | case2 lead rest c n hchar ih => exact ih (by simpa using h)
  | case3 lead rest hnone ih =>
      rcases List.mem_cons.mp h with heq | hmem
      · cases heq
        by_contra hascii
        have hlead : b < 0x80 := UInt8.lt_iff_toNat_lt.mpr (by simpa using hascii)
        have hchar := charAt_of_encodes (.one hlead) rest
        rw [List.nil_append, hnone] at hchar
        cases hchar
      · exact ih hmem

/-! Characters of one or two bytes. -/

theorem encode_ascii (h : c.toNat < 0x80) : String.utf8EncodeChar c = [UInt8.ofNat c.toNat] := by
  simp only [String.utf8EncodeChar]
  rw [if_pos (by simp only [Char.toNat] at h; omega)]
  rfl

theorem encodes_ascii (h : c.toNat < 0x80) : Encodes (UInt8.ofNat c.toNat) [] c := by
  have hlead : UInt8.ofNat c.toNat < 0x80 := by
    rw [UInt8.lt_iff_toNat_lt]
    simp
    omega
  have henc := Encodes.one hlead
  rwa [show (UInt8.ofNat c.toNat).toNat = c.toNat by simp; omega, Char.ofNat_toNat] at henc

theorem within_of_le {lo hi b : UInt8} (hlo : lo.toNat ≤ b.toNat) (hhi : b.toNat ≤ hi.toNat) :
    within lo hi b = some (b.toNat - lo.toNat) :=
  if_pos ⟨UInt8.le_iff_toNat_le.mpr hlo, UInt8.le_iff_toNat_le.mpr hhi⟩

/-- A character of two bytes. -/
theorem encodes_two (h : 0x80 ≤ c.toNat) (h' : c.toNat < 0x800) : ∃ l k,
    String.utf8EncodeChar c = [l, k] ∧ Encodes l [k] c ∧ 0xC2 ≤ l.toNat ∧ l.toNat ≤ 0xDF ∧
      0x80 ≤ k.toNat ∧ k.toNat ≤ 0xBF := by
  let l := UInt8.ofNat (c.toNat / 64 % 0x20 + 0xC0)
  let k := UInt8.ofNat (c.toNat % 0x40 + 0x80)
  have hl : l.toNat = c.toNat / 64 + 0xC0 := by
    simp only [l, UInt8.toNat_ofNat']
    omega
  have hk : k.toNat = c.toNat % 64 + 0x80 := by
    simp only [k, UInt8.toNat_ofNat']
    omega
  refine ⟨l, k, ?_, ?_, by omega, by omega, by omega, by omega⟩
  · simp only [String.utf8EncodeChar]
    simp only [Char.toNat] at h h'
    rw [if_neg (by omega), if_pos (by omega)]
    rfl
  · have hlead : ¬ l < 0x80 := by
      rw [UInt8.lt_iff_toNat_lt]
      simp only [UInt8.reduceToNat]
      omega
    have hhi : within 0xC2 0xDF l = some (l.toNat - (0xC2 : UInt8).toNat) :=
      within_of_le (by simp only [UInt8.reduceToNat]; omega)
        (by simp only [UInt8.reduceToNat]; omega)
    have hlo : continuation k = some (k.toNat - (0x80 : UInt8).toNat) :=
      within_of_le (by simp only [UInt8.reduceToNat]; omega)
        (by simp only [UInt8.reduceToNat]; omega)
    have henc := Encodes.two hlead hhi hlo
    simp only [UInt8.reduceToNat] at henc
    rwa [show (l.toNat - 194 + 2) * 64 + (k.toNat - 128) = c.toNat by omega,
      Char.ofNat_toNat] at henc

/-- Short characters are read where they are written. -/
theorem ofBytes_encode (h : c.toNat < 0x800) (more : List UInt8) :
    ofBytes (String.utf8EncodeChar c ++ more) = .char c :: ofBytes more := by
  by_cases hascii : c.toNat < 0x80
  · rw [encode_ascii hascii]
    exact ofBytes_of_encodes (encodes_ascii hascii) more
  · obtain ⟨l, k, heq, henc, -⟩ := encodes_two (by omega) h
    rw [heq]
    exact ofBytes_of_encodes henc more

theorem ofBytes_flatMap_encode {cs : List Char} (h : ∀ c ∈ cs, c.toNat < 0x800) :
    ofBytes (cs.flatMap String.utf8EncodeChar) = cs.map .char := by
  induction cs with
  | nil => simp [ofBytes]
  | cons c cs ih =>
      rw [List.flatMap_cons, ofBytes_encode (h c List.mem_cons_self),
        ih fun d hd => h d (List.mem_cons_of_mem c hd)]
      rfl

theorem toString_map_char (cs : List Char) : toString (cs.map .char) = String.ofList cs := by
  simp only [toString, List.map_map]
  exact congrArg String.ofList (List.map_id cs)

/-! Blanks around a text. -/

theorem trim_of_blank {t : Text} (h : ∀ g ∈ t, isBlankGlyph g = true) : trim t = [] := by
  simp only [trim]
  rw [List.dropWhile_eq_nil_iff.mpr h]
  rfl

/-- Blanks in front of a text are dropped, and some of what follows its last glyph that is none. -/
theorem trim_append {lead core : Text} (tail : Text) (hlead : ∀ g ∈ lead, isBlankGlyph g = true)
    (hne : core ≠ []) (hfirst : ∀ g ∈ core.head?, isBlankGlyph g = false)
    (hlast : ∀ g ∈ core.getLast?, isBlankGlyph g = false) :
    ∃ rest, rest <+: tail ∧ trim (lead ++ (core ++ tail)) = core ++ rest := by
  have hdrop : (lead ++ (core ++ tail)).dropWhile isBlankGlyph = core ++ tail := by
    rw [List.dropWhile_append_of_pos hlead]
    cases core with
    | nil => exact absurd rfl hne
    | cons g core => simp [hfirst g rfl]
  have hcore : core.reverse.dropWhile isBlankGlyph = core.reverse := by
    rw [← List.head?_reverse] at hlast
    cases hr : core.reverse with
    | nil => rfl
    | cons g rest =>
        rw [hr] at hlast
        simp [hlast g rfl]
  refine ⟨(tail.reverse.dropWhile isBlankGlyph).reverse, ?_, ?_⟩
  · rw [← List.reverse_suffix, List.reverse_reverse]
    exact List.dropWhile_suffix _
  · simp only [trim]
    rw [hdrop, List.reverse_append, List.dropWhile_append]
    split
    next hempty =>
      rw [hcore, List.isEmpty_iff.mp hempty]
      simp
    next => simp

/-! Quoted text. -/

theorem encode_not_ascii (h : 0x80 ≤ c.toNat) : ∀ b ∈ String.utf8EncodeChar c, 0x80 ≤ b.toNat := by
  simp only [Char.toNat] at h
  simp only [String.utf8EncodeChar]
  rw [if_neg (by omega)]
  split_ifs
  · simp
    omega
  · simp
    omega
  · simp
    omega

/-- Quoted text ends with a quote. -/
theorem getLast?_of_unquoteBody {t : Text} {bs : List UInt8} (h : unquoteBody t = some bs) :
    t.getLast? = some (.char doubleQuote) := by
  fun_induction unquoteBody t generalizing bs with
  | case1 => cases h
  | case2 b rest ih =>
      obtain ⟨bs, hbs, -⟩ := Option.map_eq_some_iff.mp h
      rw [List.getLast?_cons, ih hbs]
      rfl
  | case3 rest hempty =>
      rw [List.isEmpty_iff.mp hempty]
      rfl
  | case4 => cases h
  | case5 => cases h
  | case6 rest bytes n _ _ _ ih =>
      obtain ⟨bs, hbs, -⟩ := Option.map_eq_some_iff.mp h
      have hlast := ih hbs
      rw [List.getLast?_drop] at hlast
      split at hlast
      · cases hlast
      · rw [List.getLast?_cons, hlast]
        rfl
  | case7 => cases h
  | case8 c rest _ _ _ ih =>
      obtain ⟨bs, hbs, -⟩ := Option.map_eq_some_iff.mp h
      rw [List.getLast?_cons, ih hbs]
      rfl

/-- Digits are ASCII characters, and neither quotes nor backslashes. -/
theorem digitValue?_eq_some {base : Nat} {g : Glyph} {d : Nat} (h : digitValue? base g = some d) :
    ∃ c, g = .char c ∧ c.toNat < 0x80 ∧ c.toNat ≠ 0x22 ∧ c.toNat ≠ 0x5C := by
  cases g with
  | stray b => cases h
  | char c =>
      simp only [digitValue?, Option.filter_eq_some_iff] at h
      obtain ⟨h, -⟩ := h
      refine ⟨c, rfl, ?_⟩
      simp only [hexValue?, Char.le_def, UInt32.le_iff_toNat_le, Char.reduceVal,
        UInt32.reduceToNat] at h
      simp only [Char.toNat]
      split_ifs at h <;> omega

theorem digits?_eq_some {base value count : Nat} {t : Text}
    (h : digits? base value count t = some n) :
    ∀ g ∈ t.take count, ∃ d, digitValue? base g = some d := by
  fun_induction digits? base value count t with
  | case1 => simp
  | case2 value count g rest d hd ih =>
      rw [List.take_succ_cons, List.forall_mem_cons]
      exact ⟨⟨d, hd⟩, ih h⟩
  | case3 => cases h
  | case4 => cases h

/-- An escape is an ASCII character, and digits behind it. -/
theorem escape?_eq_some {t : Text} {bs : List UInt8} (h : escape? t = some (bs, n)) :
    ∃ c rest k, t = .char c :: rest ∧ n = k + 1 ∧ c.toNat < 0x80 ∧
      ∀ g ∈ rest.take k, ∃ base d, digitValue? base g = some d := by
  have hdigits : ∀ {base value count : Nat} {f : Nat → Option (List UInt8)} {rest : Text} {k : Nat},
      ((digits? base value count rest).bind f).map (·, k) = some (bs, n) →
        n = k ∧ ∀ g ∈ rest.take count, ∃ base d, digitValue? base g = some d := by
    intro base value count f rest k hsome
    obtain ⟨x, hx, heq⟩ := Option.map_eq_some_iff.mp hsome
    obtain ⟨v, hv, -⟩ := Option.bind_eq_some_iff.mp hx
    cases heq
    exact ⟨rfl, fun g hg => ⟨base, digits?_eq_some hv g hg⟩⟩
  unfold escape? at h
  split at h
  next c rest =>
    split_ifs at h with hquote hx hu hU hoctal
    · cases h
      refine ⟨c, rest, 0, rfl, rfl, ?_, by simp⟩
      rcases hquote with rfl | rfl <;> decide
    · obtain ⟨rfl, hall⟩ := hdigits h
      exact ⟨c, rest, 2, rfl, rfl, by rw [hx]; decide, hall⟩
    · obtain ⟨rfl, hall⟩ := hdigits h
      exact ⟨c, rest, 4, rfl, rfl, by rw [hu]; decide, hall⟩
    · obtain ⟨rfl, hall⟩ := hdigits h
      exact ⟨c, rest, 8, rfl, rfl, by rw [hU]; decide, hall⟩
    · obtain ⟨rfl, hall⟩ := hdigits h
      refine ⟨c, rest, 2, rfl, rfl, ?_, hall⟩
      simp only [Char.le_def, UInt32.le_iff_toNat_le, Char.reduceVal, UInt32.reduceToNat] at hoctal
      simp only [Char.toNat]
      omega
    · obtain ⟨⟨m, letter⟩, hfind, heq⟩ := Option.map_eq_some_iff.mp h
      cases heq
      have hletter : letter = c := by simpa using List.find?_some hfind
      have hmem := List.mem_of_find?_eq_some hfind
      have hascii : ∀ x ∈ letterEscapes, x.2.toNat < 0x80 := by decide
      exact ⟨c, rest, 0, rfl, rfl, hletter ▸ hascii _ hmem, by simp⟩
  next => cases h

end Discontinuous.Text
