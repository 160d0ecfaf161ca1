import Mathlib
import Discontinuous.Proofs.Text
import Discontinuous.Script.Document

/-!
How tokens are written: names, numbers, quoted words and punctuation. Whatever is written as one of
them is read as one lexeme, if a blank, a comment or nothing follows it.
-/
namespace Discontinuous.Script

/-- An ASCII letter, an underscore, or a character of two bytes that is no blank. -/
def IsNameLetter (c : Char) : Prop :=
  c.isAlpha = true ∨ c = '_' ∨ (0x80 ≤ c.toNat ∧ c.toNat < 0x800 ∧ Text.isBlank c = false)

def nameMarks : List Char := ['|', '<', '>', '.', '$', '^', '+', '*', Char.ofNat 0x27, '=', ':']

def IsNameChar (c : Char) : Prop := IsNameLetter c ∨ c.isDigit = true ∨ c ∈ nameMarks

instance : DecidablePred IsNameLetter := fun c =>
  inferInstanceAs (Decidable (c.isAlpha = true ∨ c = '_' ∨
    (0x80 ≤ c.toNat ∧ c.toNat < 0x800 ∧ Text.isBlank c = false)))

instance : DecidablePred IsNameChar := fun c =>
  inferInstanceAs (Decidable (IsNameLetter c ∨ c.isDigit = true ∨ c ∈ nameMarks))

/-- The name of a label or of a variable. An at sign in front makes it an artificial one. -/
structure Name where
  artificial : Bool
  first : Char
  rest : List Char
  letter : IsNameLetter first
  proper : ∀ c ∈ rest, IsNameChar c

/-- The name of these characters, by evaluation. -/
def Name.of (artificial : Bool) (first : Char) (rest : List Char) (letter : IsNameLetter first)
    (proper : rest.all (IsNameChar ·) = true) : Name :=
  ⟨artificial, first, rest, letter, by simpa using proper⟩

def Name.chars (n : Name) : List Char :=
  (if n.artificial then ['@'] else []) ++ n.first :: n.rest

def Name.text (n : Name) : String := String.ofList n.chars

def digitChar (d : Fin 10) : Char := Char.ofNat (0x30 + d)

/-- An exponent with one digit at least. -/
structure Exponent where
  isUpper : Bool
  /-- Whether the exponent is negative, if it has a sign. -/
  sign : Option Bool
  first : Fin 10
  rest : List (Fin 10)

def Exponent.chars (e : Exponent) : List Char :=
  (if e.isUpper then 'E' else 'e') ::
    ((e.sign.map fun negative => if negative then '-' else '+').toList ++
      (e.first :: e.rest).map digitChar)

/-- A number. Its fraction may lack digits, unless there are none in front of it. -/
inductive Numeral where
  | whole (first : Fin 10) (rest : List (Fin 10)) (fraction : Option (List (Fin 10)))
      (exponent : Option Exponent)
  | fractional (first : Fin 10) (rest : List (Fin 10))

def Numeral.chars : Numeral → List Char
  | whole first rest fraction exponent =>
    (first :: rest).map digitChar ++
      ((fraction.map fun digits => '.' :: digits.map digitChar).getD [] ++
        (exponent.map Exponent.chars).getD [])
  | fractional first rest => '.' :: (first :: rest).map digitChar

/-- A quoted word that stands on a line. -/
structure Word where
  bytes : List UInt8
  value : Text
  reads : Text.unquote? (Text.ofBytes bytes) = some value
  oneLine : 0x0A ∉ bytes

inductive Token where
  | name (n : Name)
  | number (n : Numeral)
  | word (w : Word)
  | arrow (isAscii : Bool)
  | openParen
  | closeParen
  | comma
  | atSign
  | percent

namespace Token

def kind : Token → LexemeKind
  | name _ => .ident
  | number _ => .number
  | word _ => .string
  | arrow _ => .arrow
  | openParen => .openParen
  | closeParen => .closeParen
  | comma => .comma
  | atSign => .atSign
  | percent => .percent

def bytes : Token → List UInt8
  | name n => n.chars.flatMap String.utf8EncodeChar
  | number n => n.chars.flatMap String.utf8EncodeChar
  | word w => w.bytes
  | arrow isAscii => if isAscii then [0x2D, 0x3E] else String.utf8EncodeChar '→'
  | openParen => [0x28]
  | closeParen => [0x29]
  | comma => [0x2C]
  | atSign => [0x40]
  | percent => [0x25]

/-- Tokens with a blank between each two. -/
def spaced : List Token → List UInt8
  | [] => []
  | [t] => t.bytes
  | t :: ts => t.bytes ++ 0x20 :: spaced ts

end Token

/-! Classes of bytes. -/

section Bytes

variable {b : UInt8} {rest : List UInt8}

theorem beq_eq_false_of {P : UInt8 → Bool} {x : UInt8} (h : P b = true) (hx : P x = false) :
    (b == x) = false := by
  rw [beq_eq_false_iff_ne]
  rintro rfl
  rw [h] at hx
  cases hx

/-- What may follow a token: a blank, a comment or nothing. -/
def Apart (rest : List UInt8) : Prop :=
  ∀ b ∈ rest.head?, read.isBlank b = true ∨ b = 0x23

theorem isAsciiLetter_iff : isAsciiLetter b = true ↔
    (0x41 ≤ b.toNat ∧ b.toNat ≤ 0x5A) ∨ (0x61 ≤ b.toNat ∧ b.toNat ≤ 0x7A) ∨ b.toNat = 0x5F := by
  simp [isAsciiLetter, UInt8.le_iff_toNat_le, ← UInt8.toNat_inj]
  omega

theorem isDigit_iff : isDigit b = true ↔ 0x30 ≤ b.toNat ∧ b.toNat ≤ 0x39 := by
  simp [isDigit, UInt8.le_iff_toNat_le]

theorem isLead_iff : isLead b = true ↔ 0xC2 ≤ b.toNat ∧ b.toNat ≤ 0xDF := by
  simp [isLead, UInt8.le_iff_toNat_le]

theorem isContinuation_iff : isContinuation b = true ↔ 0x80 ≤ b.toNat ∧ b.toNat ≤ 0xBF := by
  simp [isContinuation, UInt8.le_iff_toNat_le]

theorem isBlank_iff : read.isBlank b = true ↔
    b.toNat = 0x20 ∨ b.toNat = 0x09 ∨ b.toNat = 0x0D := by
  simp [read.isBlank, ← UInt8.toNat_inj, or_assoc]

theorem isLabelMark_iff : isLabelMark b = true ↔ b.toNat = 0x7C ∨ b.toNat = 0x3C ∨
    b.toNat = 0x3E ∨ b.toNat = 0x2E ∨ b.toNat = 0x24 ∨ b.toNat = 0x5E ∨ b.toNat = 0x2B ∨
    b.toNat = 0x2A ∨ b.toNat = 0x27 ∨ b.toNat = 0x3D ∨ b.toNat = 0x3A := by
  simp [isLabelMark, ← UInt8.toNat_inj]

/-- The bytes that go on with a name by themselves. -/
theorem isNameByte_iff : (isAsciiLetter b || isDigit b || isLabelMark b) = true ↔
    ((0x41 ≤ b.toNat ∧ b.toNat ≤ 0x5A) ∨ (0x61 ≤ b.toNat ∧ b.toNat ≤ 0x7A) ∨ b.toNat = 0x5F) ∨
      (0x30 ≤ b.toNat ∧ b.toNat ≤ 0x39) ∨ b.toNat = 0x7C ∨ b.toNat = 0x3C ∨ b.toNat = 0x3E ∨
      b.toNat = 0x2E ∨ b.toNat = 0x24 ∨ b.toNat = 0x5E ∨ b.toNat = 0x2B ∨ b.toNat = 0x2A ∨
      b.toNat = 0x27 ∨ b.toNat = 0x3D ∨ b.toNat = 0x3A := by
  rw [Bool.or_eq_true, Bool.or_eq_true, isAsciiLetter_iff, isDigit_iff, isLabelMark_iff, or_assoc]

theorem Apart.toNat_head (h : Apart rest) (hb : rest.head? = some b) :
    b.toNat = 0x20 ∨ b.toNat = 0x09 ∨ b.toNat = 0x0D ∨ b.toNat = 0x23 := by
  rcases h b hb with hblank | rfl
  · have := isBlank_iff.mp hblank
    omega
  · decide

end Bytes

/-! Names. -/

section Names

variable {c : Char} {rest : List UInt8}

theorem toNat_byte (h : c.toNat < 0x80) : (UInt8.ofNat c.toNat).toNat = c.toNat := by
  simp
  omega

/-- A letter is an ASCII letter, or a character of two bytes. -/
theorem IsNameLetter.cases (h : IsNameLetter c) :
    (c.toNat < 0x80 ∧ isAsciiLetter (UInt8.ofNat c.toNat) = true) ∨
      (0x80 ≤ c.toNat ∧ c.toNat < 0x800 ∧ Text.isBlank c = false) := by
  rcases h with halpha | rfl | htwo
  · left
    simp only [Char.isAlpha, Char.isUpper, Char.isLower, Bool.or_eq_true, Bool.and_eq_true,
      decide_eq_true_eq, ge_iff_le, UInt32.le_iff_toNat_le, Char.reduceVal,
      UInt32.reduceToNat] at halpha
    have hascii : c.toNat < 0x80 := by
      simp only [Char.toNat]
      omega
    refine ⟨hascii, isAsciiLetter_iff.mpr ?_⟩
    rw [toNat_byte hascii]
    simp only [Char.toNat]
    omega
  · exact .inl (by decide)
  · exact .inr htwo

theorem IsNameChar.cases (h : IsNameChar c) :
    (c.toNat < 0x80 ∧ (isAsciiLetter (UInt8.ofNat c.toNat) || isDigit (UInt8.ofNat c.toNat) ||
        isLabelMark (UInt8.ofNat c.toNat)) = true) ∨
      (0x80 ≤ c.toNat ∧ c.toNat < 0x800 ∧ Text.isBlank c = false) := by
  rcases h with hletter | hdigit | hmark
  · exact hletter.cases.imp_left fun ⟨hascii, hb⟩ => ⟨hascii, by simp [hb]⟩
  · left
    simp only [Char.isDigit, Bool.and_eq_true, decide_eq_true_eq, ge_iff_le,
      UInt32.le_iff_toNat_le, Char.reduceVal, UInt32.reduceToNat] at hdigit
    have hascii : c.toNat < 0x80 := by
      simp only [Char.toNat]
      omega
    have hbyte : isDigit (UInt8.ofNat c.toNat) = true := by
      rw [isDigit_iff, toNat_byte hascii]
      simp only [Char.toNat]
      omega
    exact ⟨hascii, by simp [hbyte]⟩
  · left
    have hall : (nameMarks.all fun d =>
        decide (d.toNat < 0x80) && isLabelMark (UInt8.ofNat d.toNat)) = true := by decide
    have hmember := List.all_eq_true.mp hall c hmark
    rw [Bool.and_eq_true, decide_eq_true_eq] at hmember
    exact ⟨hmember.1, by simp [hmember.2]⟩

theorem encode_two (h : 0x80 ≤ c.toNat) (h' : c.toNat < 0x800) : ∃ b k,
    String.utf8EncodeChar c = [b, k] ∧ isLead b = true ∧ isContinuation k = true := by
  obtain ⟨b, k, heq, -, hb, hb', hk, hk'⟩ := Text.encodes_two h h'
  exact ⟨b, k, heq, isLead_iff.mpr ⟨hb, hb'⟩, isContinuation_iff.mpr ⟨hk, hk'⟩⟩

theorem not_label_of_lead {b : UInt8} (h : isLead b = true) :
    (isAsciiLetter b || isDigit b || isLabelMark b) = false := by
  rw [isLead_iff] at h
  rw [Bool.eq_false_iff, ne_eq, isNameByte_iff]
  omega

theorem labelTail_of_apart (h : Apart rest) : labelTail rest = 0 := by
  cases rest with
  | nil => rfl
  | cons b rest =>
      have hb := h.toNat_head rfl
      have hplain : (isAsciiLetter b || isDigit b || isLabelMark b) = false := by
        rw [Bool.eq_false_iff, ne_eq, isNameByte_iff]
        omega
      have hlead : isLead b = false := by
        rw [Bool.eq_false_iff, ne_eq, isLead_iff]
        omega
      cases rest with
      | nil => simp [labelTail, hplain]
      | cons k rest => simp [labelTail, hplain, hlead]

theorem labelTail_cons {b : UInt8} (h : (isAsciiLetter b || isDigit b || isLabelMark b) = true)
    (rest : List UInt8) : labelTail (b :: rest) = 1 + labelTail rest := by
  cases rest with
  | nil => simp [labelTail, h]
  | cons k rest => rw [labelTail, if_pos h]

theorem labelTail_cons_cons {b k : UInt8} (hb : isLead b = true) (hk : isContinuation k = true)
    (rest : List UInt8) : labelTail (b :: k :: rest) = 2 + labelTail rest := by
  rw [labelTail, if_neg (by rw [not_label_of_lead hb]; exact Bool.false_ne_true), if_pos]
  rw [hb, hk]
  rfl

/-- A name goes on as far as its characters do. -/
theorem labelTail_append {cs : List Char} (hcs : ∀ c ∈ cs, IsNameChar c) (h : Apart rest) :
    labelTail (cs.flatMap String.utf8EncodeChar ++ rest) =
      (cs.flatMap String.utf8EncodeChar).length := by
  induction cs with
  | nil => exact labelTail_of_apart h
  | cons c cs ih =>
      have ih := ih fun d hd => hcs d (List.mem_cons_of_mem c hd)
      rw [List.flatMap_cons, List.append_assoc, List.length_append]
      rcases (hcs c List.mem_cons_self).cases with ⟨hascii, hb⟩ | ⟨hlo, hhi, -⟩
      · rw [Text.encode_ascii hascii, List.singleton_append, labelTail_cons hb, ih]
        rfl
      · obtain ⟨b, k, heq, hb, hk⟩ := encode_two hlo hhi
        rw [heq, List.cons_append, List.singleton_append, labelTail_cons_cons hb hk, ih]
        rfl

theorem label?_of_letter {b : UInt8} (h : isAsciiLetter b = true) (rest : List UInt8) :
    label? (b :: rest) = some (1 + labelTail rest) := by
  cases rest with
  | nil => simp [label?, h, labelTail]
  | cons k rest => simp [label?, h]

theorem label?_of_lead {b k : UInt8} (hb : isLead b = true) (hk : isContinuation k = true)
    (rest : List UInt8) : label? (b :: k :: rest) = some (2 + labelTail rest) := by
  have hletter := not_label_of_lead hb
  simp only [Bool.or_eq_false_iff] at hletter
  simp [label?, hletter.1.1, hb, hk]

theorem label?_of_apart (h : Apart rest) : label? rest = none := by
  cases rest with
  | nil => rfl
  | cons b rest =>
      have hb := h.toNat_head rfl
      have hletter : isAsciiLetter b = false := by
        rw [Bool.eq_false_iff, ne_eq, isAsciiLetter_iff]
        omega
      have hlead : isLead b = false := by
        rw [Bool.eq_false_iff, ne_eq, isLead_iff]
        omega
      cases rest with
      | nil => simp [label?, hletter]
      | cons k rest => simp [label?, hletter, hlead]

theorem read_letter {b : UInt8} (h : isAsciiLetter b = true) (rest : List UInt8) :
    read b rest = .lexeme .ident (labelTail rest) := by
  have hblank : read.isBlank b = false := by
    rw [Bool.eq_false_iff, ne_eq, isBlank_iff]
    rw [isAsciiLetter_iff] at h
    omega
  simp [read, beq_eq_false_of h (x := 0x23) rfl, beq_eq_false_of h (x := 0x40) rfl, hblank, h]

theorem read_lead {b k : UInt8} (hb : isLead b = true) (hk : isContinuation k = true)
    (rest : List UInt8) : read b (k :: rest) = .lexeme .ident (1 + labelTail rest) := by
  have hletter := not_label_of_lead hb
  simp only [Bool.or_eq_false_iff] at hletter
  have hblank : read.isBlank b = false := by
    rw [Bool.eq_false_iff, ne_eq, isBlank_iff]
    rw [isLead_iff] at hb
    omega
  simp [read, beq_eq_false_of hb (x := 0x23) rfl, beq_eq_false_of hb (x := 0x40) rfl, hblank,
    hletter.1.1, hb, hk]

theorem read_at (rest : List UInt8) : read 0x40 rest =
    match label? rest with
    | some n => .lexeme .ident n
    | none => .lexeme .atSign 0 := rfl

/-- A name is read up to its end. -/
theorem Name.reads (n : Name) (h : Apart rest) : ∃ b more,
    n.chars.flatMap String.utf8EncodeChar = b :: more ∧
      read b (more ++ rest) = .lexeme .ident more.length := by
  have htail := labelTail_append n.proper h
  simp only [Name.chars]
  cases n.artificial with
  | true =>
      refine ⟨0x40, (n.first :: n.rest).flatMap String.utf8EncodeChar, rfl, ?_⟩
      rw [List.flatMap_cons, List.append_assoc, List.length_append]
      rcases n.letter.cases with ⟨hascii, hb⟩ | ⟨hlo, hhi, -⟩
      · rw [Text.encode_ascii hascii, List.singleton_append, read_at, label?_of_letter hb, htail]
        rfl
      · obtain ⟨b, k, heq, hb, hk⟩ := encode_two hlo hhi
        rw [heq, List.cons_append, List.singleton_append, read_at, label?_of_lead hb hk, htail]
        rfl
  | false =>
      rcases n.letter.cases with ⟨hascii, hb⟩ | ⟨hlo, hhi, -⟩
      · refine ⟨UInt8.ofNat n.first.toNat, n.rest.flatMap String.utf8EncodeChar, ?_, ?_⟩
        · simp [Text.encode_ascii hascii]
        · rw [read_letter hb, htail]
      · obtain ⟨b, k, heq, hb, hk⟩ := encode_two hlo hhi
        refine ⟨b, k :: n.rest.flatMap String.utf8EncodeChar, by simp [heq], ?_⟩
        rw [List.cons_append, read_lead hb hk, htail, List.length_cons, Nat.add_comm]

end Names

/-! Numbers. -/

section Numbers

variable {b : UInt8} {rest : List UInt8} {n : Nat}

def digitBytes (ds : List (Fin 10)) : List UInt8 :=
  (ds.map digitChar).flatMap String.utf8EncodeChar

theorem digitBytes_of_encode {d : Fin 10} (h : String.utf8EncodeChar (digitChar d) = [b])
    (ds : List (Fin 10)) : digitBytes (d :: ds) = b :: digitBytes ds := by
  rw [digitBytes, List.map_cons, List.flatMap_cons, h]
  rfl

theorem digitBytes_cons (d : Fin 10) (ds : List (Fin 10)) :
    ∃ b, isDigit b = true ∧ digitBytes (d :: ds) = b :: digitBytes ds := by
  have hdigit : String.utf8EncodeChar (digitChar d) = [UInt8.ofNat (0x30 + d)] ∧
      isDigit (UInt8.ofNat (0x30 + d)) = true := by
    decide +revert
  exact ⟨_, hdigit.2, digitBytes_of_encode hdigit.1 ds⟩

theorem isDigit_digitBytes (ds : List (Fin 10)) : ∀ b ∈ digitBytes ds, isDigit b = true := by
  induction ds with
  | nil => simp [digitBytes]
  | cons d ds ih =>
      obtain ⟨b, hb, heq⟩ := digitBytes_cons d ds
      rw [heq, List.forall_mem_cons]
      exact ⟨hb, ih⟩

/-- Nothing that follows goes on with the digits of a number. -/
def Digitless (rest : List UInt8) : Prop := ∀ b ∈ rest.head?, isDigit b = false

theorem Apart.digitless (h : Apart rest) : Digitless rest := by
  intro b hb
  have hb := h.toNat_head hb
  rw [Bool.eq_false_iff, ne_eq, isDigit_iff]
  omega

theorem digitCount_append {bs : List UInt8} (hbs : ∀ b ∈ bs, isDigit b = true)
    (h : Digitless rest) : digitCount (bs ++ rest) = bs.length := by
  have hnone : rest.takeWhile isDigit = [] := by
    cases rest with
    | nil => rfl
    | cons b rest => simp [h b rfl]
  simp only [digitCount]
  rw [List.takeWhile_append_of_pos hbs, hnone, List.append_nil]

theorem fractionTail_of_ne (h : ∀ b ∈ rest.head?, b ≠ 0x2E) : fractionTail rest = 0 := by
  unfold fractionTail
  split
  next => exact absurd rfl (h 0x2E rfl)
  next => rfl

theorem signTail_of_digits {bs : List UInt8} (hne : bs ≠ []) (hbs : ∀ b ∈ bs, isDigit b = true) :
    signTail (bs ++ rest) = 0 := by
  cases bs with
  | nil => exact absurd rfl hne
  | cons b bs =>
      have hb := hbs b List.mem_cons_self
      rw [List.cons_append]
      unfold signTail
      split
      next heq =>
        cases heq
        cases hb
      next heq =>
        cases heq
        cases hb
      next => rfl

/-- The bytes of an exponent: its mark, its sign and its digits. -/
theorem Exponent.encode (e : Exponent) : ∃ m sign,
    e.chars.flatMap String.utf8EncodeChar = m :: (sign ++ digitBytes (e.first :: e.rest)) ∧
      (m == 0x45 || m == 0x65) = true ∧ (sign = [] ∨ sign = [0x2B] ∨ sign = [0x2D]) := by
  obtain ⟨isUpper, sign, first, rest⟩ := e
  refine ⟨if isUpper then 0x45 else 0x65, match sign with
    | none => []
    | some negative => if negative then [0x2D] else [0x2B], ?_, ?_, ?_⟩
  · rcases sign with _ | _ | _ <;> cases isUpper <;> rfl
  · cases isUpper <;> rfl
  · rcases sign with _ | _ | _ <;> simp

theorem exponentTail_of_apart (h : Apart rest) : exponentTail rest = 0 := by
  cases rest with
  | nil => rfl
  | cons b rest =>
      have hb := h.toNat_head rfl
      have hmark : (b == 0x45 || b == 0x65) = false := by
        rw [Bool.or_eq_false_iff, beq_eq_false_iff_ne, beq_eq_false_iff_ne, ← UInt8.toNat_inj.ne,
          ← UInt8.toNat_inj.ne]
        simp only [UInt8.reduceToNat]
        omega
      simp [exponentTail, hmark]

theorem exponentTail_append (e : Exponent) (h : Digitless rest) :
    exponentTail (e.chars.flatMap String.utf8EncodeChar ++ rest) =
      (e.chars.flatMap String.utf8EncodeChar).length := by
  obtain ⟨m, sign, heq, hm, hsign⟩ := e.encode
  obtain ⟨b, -, hcons⟩ := digitBytes_cons e.first e.rest
  have hne : digitBytes (e.first :: e.rest) ≠ [] := by simp [hcons]
  have hdigits := isDigit_digitBytes (e.first :: e.rest)
  have hcount := digitCount_append hdigits h
  have hpos := List.length_pos_of_ne_nil hne
  have htail : signTail (sign ++ (digitBytes (e.first :: e.rest) ++ rest)) = sign.length := by
    rcases hsign with rfl | rfl | rfl
    · rw [List.nil_append]
      exact signTail_of_digits hne hdigits
    · rfl
    · rfl
  rw [heq, List.cons_append, List.append_assoc]
  simp only [exponentTail]
  rw [htail, List.drop_left, hcount, if_pos (by simp [hm, hpos])]
  simp only [List.length_cons, List.length_append]
  omega

/-- A number goes on through its digits, its fraction and its exponent. -/
theorem numberTail_append {whole fraction exponent : List UInt8}
    (hwhole : ∀ b ∈ whole, isDigit b = true)
    (hdigitless : Digitless (fraction ++ (exponent ++ rest)))
    (hfraction : fractionTail (fraction ++ (exponent ++ rest)) = fraction.length)
    (hexponent : exponentTail (exponent ++ rest) = exponent.length) :
    numberTail (whole ++ (fraction ++ (exponent ++ rest))) =
      (whole ++ (fraction ++ exponent)).length := by
  simp only [numberTail]
  rw [digitCount_append hwhole hdigitless, List.drop_left, hfraction, ← List.drop_drop,
    List.drop_left, List.drop_left, hexponent]
  simp only [List.length_append]
  omega

theorem read_digit {b : UInt8} (h : isDigit b = true) (rest : List UInt8) :
    read b rest = .lexeme .number (numberTail rest) := by
  have hrange := isDigit_iff.mp h
  have hblank : read.isBlank b = false := by
    rw [Bool.eq_false_iff, ne_eq, isBlank_iff]
    omega
  have hletter : isAsciiLetter b = false := by
    rw [Bool.eq_false_iff, ne_eq, isAsciiLetter_iff]
    omega
  have hlead : isLead b = false := by
    rw [Bool.eq_false_iff, ne_eq, isLead_iff]
    omega
  simp [read, beq_eq_false_of h (x := 0x23) rfl, beq_eq_false_of h (x := 0x40) rfl, hblank,
    hletter, hlead, h]

theorem read_point (rest : List UInt8) : read 0x2E rest =
    match digitCount rest with
    | 0 => .unreadable (Nat.min rest.length 1)
    | n + 1 => .lexeme .number (n + 1) := rfl

/-- The bytes of a fraction that follows other digits. -/
def fractionBytes (fraction : Option (List (Fin 10))) : List UInt8 :=
  (fraction.map fun ds => 0x2E :: digitBytes ds).getD []

def exponentBytes (exponent : Option Exponent) : List UInt8 :=
  (exponent.map fun e => e.chars.flatMap String.utf8EncodeChar).getD []

theorem Numeral.encode_whole (first : Fin 10) (rest : List (Fin 10))
    (fraction : Option (List (Fin 10))) (exponent : Option Exponent) :
    (whole first rest fraction exponent).chars.flatMap String.utf8EncodeChar =
      digitBytes (first :: rest) ++ (fractionBytes fraction ++ exponentBytes exponent) := by
  simp only [chars, List.flatMap_append]
  cases fraction with
  | none => cases exponent <;> rfl
  | some ds => cases exponent <;> rfl

/-- Neither a digit nor a decimal point comes next. -/
def Pointless (rest : List UInt8) : Prop := ∀ b ∈ rest.head?, isDigit b = false ∧ b ≠ 0x2E

theorem Apart.pointless (h : Apart rest) : Pointless rest := by
  intro b hb
  refine ⟨h.digitless b hb, ?_⟩
  rintro rfl
  simpa using h.toNat_head hb

theorem exponentBytes_append (exponent : Option Exponent) (h : Apart rest) :
    exponentTail (exponentBytes exponent ++ rest) = (exponentBytes exponent).length ∧
      Pointless (exponentBytes exponent ++ rest) := by
  cases exponent with
  | none => exact ⟨exponentTail_of_apart h, h.pointless⟩
  | some e =>
      refine ⟨exponentTail_append e h.digitless, ?_⟩
      obtain ⟨m, sign, heq, hm, -⟩ := e.encode
      intro b hb
      rw [exponentBytes, Option.map_some, Option.getD_some, heq] at hb
      cases hb
      rw [Bool.or_eq_true, beq_iff_eq, beq_iff_eq] at hm
      rcases hm with rfl | rfl <;> decide

theorem fractionBytes_append (fraction : Option (List (Fin 10))) (h : Pointless rest) :
    fractionTail (fractionBytes fraction ++ rest) = (fractionBytes fraction).length ∧
      Digitless (fractionBytes fraction ++ rest) := by
  cases fraction with
  | none => exact ⟨fractionTail_of_ne fun b hb => (h b hb).2, fun b hb => (h b hb).1⟩
  | some ds =>
      refine ⟨?_, ?_⟩
      · have hcount := digitCount_append (isDigit_digitBytes ds) fun b hb => (h b hb).1
        exact (congrArg (1 + ·) hcount).trans (Nat.add_comm _ _)
      · intro b hb
        cases hb
        rfl

/-- A number is read up to its end. -/
theorem Numeral.reads (n : Numeral) (h : Apart rest) : ∃ b more,
    n.chars.flatMap String.utf8EncodeChar = b :: more ∧
      read b (more ++ rest) = .lexeme .number more.length := by
  cases n with
  | whole first digits fraction exponent =>
      obtain ⟨b, hb, heq⟩ := digitBytes_cons first digits
      obtain ⟨hexponent, hfollow⟩ := exponentBytes_append exponent h
      obtain ⟨hfraction, hdigitless⟩ := fractionBytes_append fraction hfollow
      refine ⟨b, digitBytes digits ++ (fractionBytes fraction ++ exponentBytes exponent), ?_, ?_⟩
      · rw [encode_whole, heq]
        rfl
      · rw [read_digit hb, List.append_assoc, List.append_assoc,
          numberTail_append (isDigit_digitBytes digits) hdigitless hfraction hexponent]
  | fractional first digits =>
      refine ⟨0x2E, digitBytes (first :: digits), rfl, ?_⟩
      obtain ⟨b, -, heq⟩ := digitBytes_cons first digits
      rw [read_point, digitCount_append (isDigit_digitBytes _) h.digitless, heq]
      rfl

/-! Whatever is read as a number is written as one. -/

theorem exists_encode_digitChar (h : isDigit b = true) :
    ∃ d, String.utf8EncodeChar (digitChar d) = [b] := by
  have hencode : ∀ d : Fin 10, String.utf8EncodeChar (digitChar d) = [UInt8.ofNat (0x30 + d)] := by
    decide
  have hb := isDigit_iff.mp h
  refine ⟨⟨b.toNat - 0x30, by omega⟩, ?_⟩
  rw [hencode, Nat.add_sub_cancel' hb.1, UInt8.ofNat_toNat]

theorem exists_digitBytes {bs : List UInt8} (h : ∀ b ∈ bs, isDigit b = true) :
    ∃ ds, bs = digitBytes ds := by
  induction bs with
  | nil => exact ⟨[], rfl⟩
  | cons b bs ih =>
      rw [List.forall_mem_cons] at h
      obtain ⟨ds, rfl⟩ := ih h.2
      obtain ⟨d, hd⟩ := exists_encode_digitChar h.1
      exact ⟨d :: ds, (digitBytes_of_encode hd ds).symm⟩

theorem take_digitCount (bs : List UInt8) : ∃ ds, bs.take (digitCount bs) = digitBytes ds := by
  have htake : bs.take (digitCount bs) = bs.takeWhile isDigit :=
    (List.prefix_iff_eq_take.mp (List.takeWhile_prefix _)).symm
  rw [htake]
  exact exists_digitBytes fun b hb => List.mem_takeWhile_imp hb

theorem take_digitCount_of_pos {bs : List UInt8} (h : 0 < digitCount bs) :
    ∃ d ds, bs.take (digitCount bs) = digitBytes (d :: ds) := by
  obtain ⟨ds, hds⟩ := take_digitCount bs
  cases ds with
  | nil =>
      rw [digitBytes, List.map_nil, List.flatMap_nil, List.take_eq_nil_iff] at hds
      rcases hds with hcount | rfl
      · exact absurd hcount (Nat.ne_of_gt h)
      · cases h
  | cons d ds => exact ⟨d, ds, hds⟩

theorem take_fractionTail (bs : List UInt8) :
    ∃ fraction, bs.take (fractionTail bs) = fractionBytes fraction := by
  unfold fractionTail
  split
  next bs =>
    obtain ⟨ds, hds⟩ := take_digitCount bs
    refine ⟨some ds, ?_⟩
    rw [Nat.add_comm, List.take_succ_cons, hds]
    rfl
  next => exact ⟨none, rfl⟩

theorem take_signTail (bs : List UInt8) : ∃ sign : Option Bool,
    bs.take (signTail bs) =
      (sign.map fun negative => if negative then (0x2D : UInt8) else 0x2B).toList := by
  unfold signTail
  split
  next => exact ⟨some false, rfl⟩
  next => exact ⟨some true, rfl⟩
  next => exact ⟨none, rfl⟩

theorem take_exponentTail (bs : List UInt8) :
    ∃ exponent, bs.take (exponentTail bs) = exponentBytes exponent := by
  cases bs with
  | nil => exact ⟨none, rfl⟩
  | cons m bs =>
      simp only [exponentTail]
      split
      next h =>
        rw [Bool.and_eq_true, decide_eq_true_eq, Bool.or_eq_true, beq_iff_eq, beq_iff_eq] at h
        obtain ⟨hm, hpos⟩ := h
        obtain ⟨sign, hsign⟩ := take_signTail bs
        obtain ⟨d, ds, hds⟩ := take_digitCount_of_pos hpos
        refine ⟨some ⟨decide (m = 0x45), sign, d, ds⟩, ?_⟩
        rw [Nat.add_assoc, Nat.add_comm, List.take_succ_cons, List.take_add, hsign, hds]
        rcases hm with rfl | rfl <;> rcases sign with _ | _ | _ <;> rfl
      next => exact ⟨none, rfl⟩

theorem take_numberTail (bs : List UInt8) : ∃ ds fraction exponent, bs.take (numberTail bs) =
    digitBytes ds ++ (fractionBytes fraction ++ exponentBytes exponent) := by
  obtain ⟨ds, hds⟩ := take_digitCount bs
  obtain ⟨fraction, hfraction⟩ := take_fractionTail (bs.drop (digitCount bs))
  obtain ⟨exponent, hexponent⟩ := take_exponentTail
    ((bs.drop (digitCount bs)).drop (fractionTail (bs.drop (digitCount bs))))
  refine ⟨ds, fraction, exponent, ?_⟩
  simp only [numberTail]
  rw [Nat.add_assoc, List.take_add, List.take_add, hds, hfraction, ← List.drop_drop, hexponent]

theorem ite_eq_lexeme {c : Prop} [Decidable c] {r r' : Reading} {kind : LexemeKind} {P : Prop}
    (h : c → r = .lexeme kind n → P) (h' : r' = .lexeme kind n → P) :
    (if c then r else r') = .lexeme kind n → P := by
  split
  next hc => exact h hc
  next => exact h'

/-- A number starts with a digit, or with a decimal point and a digit behind it. -/
theorem read_eq_number (h : read b rest = .lexeme .number n) :
    isDigit b = true ∧ n = numberTail rest ∨ b = 0x2E ∧ n = digitCount rest ∧ 0 < n := by
  by_cases hdigit : isDigit b = true
  · rw [read_digit hdigit] at h
    cases h
    exact .inl ⟨hdigit, rfl⟩
  by_cases hpoint : (b == 0x2E) = true
  · cases beq_iff_eq.mp hpoint
    rw [read_point] at h
    split at h
    next => cases h
    next m hm =>
      cases h
      exact .inr ⟨rfl, hm.symm, Nat.succ_pos _⟩
  · -- The other branches read something else, or nothing.
    exfalso
    revert h
    unfold read
    repeat' refine ite_eq_lexeme (fun hb => ?_) ?_
    all_goals intro h
    all_goals repeat' split at h
    all_goals first | contradiction | cases h

end Numbers

/-! Quoted words. -/

section Words

variable {rest : List UInt8}

/-- Bytes that neither end a quoted word nor start an escape. -/
def IsPlain (b : UInt8) : Prop := b ≠ 0x22 ∧ b ≠ 0x5C

theorem IsPlain.of_toNat {b : UInt8} (h : b.toNat ≠ 0x22) (h' : b.toNat ≠ 0x5C) : IsPlain b :=
  ⟨fun heq => h (heq ▸ rfl), fun heq => h' (heq ▸ rfl)⟩

theorem stringTail?_append {bs : List UInt8} (h : ∀ b ∈ bs, IsPlain b) (rest : List UInt8) :
    stringTail? (bs ++ rest) = (stringTail? rest).map (bs.length + ·) := by
  induction bs with
  | nil => simp
  | cons b bs ih =>
      obtain ⟨hquote, hslash⟩ := h b List.mem_cons_self
      have ih := ih fun d hd => h d (List.mem_cons_of_mem b hd)
      have hstep : ∀ more, stringTail? (b :: more) = (stringTail? more).map (1 + ·) := by
        intro more
        cases more with
        | nil => simp [stringTail?, hquote]
        | cons c more => simp [stringTail?, hquote, hslash]
      rw [List.cons_append, hstep, ih, Option.map_map]
      refine congrArg (fun f => (stringTail? rest).map f) ?_
      funext n
      simp only [Function.comp_apply, List.length_cons]
      omega

theorem stringTail?_of_plain {bs more : List UInt8} (h : ∀ b ∈ bs, IsPlain b)
    (hmore : stringTail? (more ++ rest) = some more.length) :
    stringTail? (bs ++ more ++ rest) = some (bs ++ more).length := by
  rw [List.append_assoc, stringTail?_append h, hmore, List.length_append]
  rfl

theorem stringTail?_quote (rest : List UInt8) : stringTail? (0x22 :: rest) = some 1 := by
  cases rest with
  | nil => rfl
  | cons b rest => rfl

theorem stringTail?_escape (b : UInt8) (rest : List UInt8) :
    stringTail? (0x5C :: b :: rest) = (stringTail? rest).map (2 + ·) := rfl

/-- Characters other than quotes and backslashes are written with plain bytes. -/
theorem isPlain_encode {c : Char} (h : c.toNat ≠ 0x22) (h' : c.toNat ≠ 0x5C) :
    ∀ b ∈ String.utf8EncodeChar c, IsPlain b := by
  intro b hb
  by_cases hascii : c.toNat < 0x80
  · rw [Text.encode_ascii hascii, List.mem_singleton] at hb
    subst hb
    refine .of_toNat ?_ ?_
    · rwa [toNat_byte hascii]
    · rwa [toNat_byte hascii]
  · have := Text.encode_not_ascii (by omega) b hb
    exact .of_toNat (by omega) (by omega)

theorem isPlain_digits {t : Text} (h : ∀ g ∈ t, ∃ base d, Text.digitValue? base g = some d) :
    ∀ b ∈ Text.bytes t, IsPlain b := by
  intro b hb
  obtain ⟨g, hg, hb⟩ := List.mem_flatMap.mp hb
  obtain ⟨base, d, hd⟩ := h g hg
  obtain ⟨c, rfl, -, hquote, hslash⟩ := Text.digitValue?_eq_some hd
  exact isPlain_encode hquote hslash b hb

/-- A quoted word is read up to the quote that closes it. -/
theorem stringTail?_of_unquoteBody {t : Text} {value : List UInt8}
    (hstray : ∀ b, .stray b ∈ t → 0x80 ≤ b.toNat) (h : Text.unquoteBody t = some value)
    (rest : List UInt8) :
    stringTail? (Text.bytes t ++ rest) = some (Text.bytes t).length := by
  fun_induction Text.unquoteBody t generalizing value with
  | case1 => cases h
  | case2 b t ih =>
      obtain ⟨v, hv, -⟩ := Option.map_eq_some_iff.mp h
      have := hstray b List.mem_cons_self
      have hplain : ∀ x ∈ [b], IsPlain x := by
        simpa using IsPlain.of_toNat (by omega) (by omega)
      exact stringTail?_of_plain hplain (ih (fun x hx => hstray x (List.mem_cons_of_mem _ hx)) hv)
  | case3 t hempty =>
      rw [List.isEmpty_iff.mp hempty]
      exact stringTail?_quote rest
  | case4 => cases h
  | case5 => cases h
  | case6 t bytes n hescape _ _ ih =>
      obtain ⟨v, hv, -⟩ := Option.map_eq_some_iff.mp h
      obtain ⟨c, t, k, rfl, rfl, hascii, hdigits⟩ := Text.escape?_eq_some hescape
      rw [List.drop_succ_cons] at ih hv
      have ih := ih (fun x hx => hstray x
        (List.mem_cons_of_mem _ (List.mem_cons_of_mem _ (List.mem_of_mem_drop hx)))) hv
      have hbytes : Text.bytes t = Text.bytes (t.take k) ++ Text.bytes (t.drop k) := by
        rw [← Text.bytes_append, List.take_append_drop]
      have hmore := stringTail?_of_plain (isPlain_digits hdigits) ih
      rw [← hbytes] at hmore
      change stringTail? (0x5C :: (String.utf8EncodeChar c ++ Text.bytes t) ++ rest) =
        some (0x5C :: (String.utf8EncodeChar c ++ Text.bytes t)).length
      rw [Text.encode_ascii hascii, List.singleton_append, List.cons_append, List.cons_append,
        stringTail?_escape, hmore]
      simp only [Option.map_some, List.length_cons]
      congr 1
      omega
  | case7 => cases h
  | case8 c t hquote _ hslash ih =>
      obtain ⟨v, hv, -⟩ := Option.map_eq_some_iff.mp h
      have hplain : ∀ b ∈ String.utf8EncodeChar c, IsPlain b := by
        refine isPlain_encode (fun hc => hquote ?_) (fun hc => hslash ?_)
        · exact Char.toNat_inj.mp hc
        · exact Char.toNat_inj.mp hc
      exact stringTail?_of_plain hplain (ih (fun x hx => hstray x (List.mem_cons_of_mem _ hx)) hv)

/-- A word starts with a quote, and its text ends with one. -/
theorem Word.text_eq (w : Word) : ∃ t value, Text.ofBytes w.bytes = .char Text.doubleQuote :: t ∧
    Text.unquoteBody t = some value := by
  have hreads := w.reads
  unfold Text.unquote? at hreads
  split at hreads
  next c t heq =>
    split at hreads
    next hc =>
      obtain ⟨value, hvalue, -⟩ := Option.map_eq_some_iff.mp hreads
      exact ⟨t, value, hc ▸ heq, hvalue⟩
    next => cases hreads
  next => cases hreads

/-- A word is read up to its end. -/
theorem Word.reads_lexeme (w : Word) (rest : List UInt8) : ∃ b more,
    w.bytes = b :: more ∧ read b (more ++ rest) = .lexeme .string more.length := by
  obtain ⟨t, value, htext, hvalue⟩ := w.text_eq
  have hbytes : w.bytes = 0x22 :: Text.bytes t := by
    rw [← Text.bytes_ofBytes w.bytes, htext]
    rfl
  have hstray : ∀ b, .stray b ∈ t → 0x80 ≤ b.toNat := fun b hb =>
    Text.not_ascii_of_stray (htext ▸ List.mem_cons_of_mem _ hb)
  refine ⟨0x22, Text.bytes t, hbytes, ?_⟩
  change (match stringTail? (Text.bytes t ++ rest) with
    | some n => Reading.lexeme .string n
    | none => .unreadable (Text.bytes t ++ rest).length) = _
  rw [stringTail?_of_unquoteBody hstray hvalue]

end Words

/-! Tokens. -/

section Tokens

variable {rest : List UInt8}

/-- Every token is read as one lexeme. -/
theorem Token.reads (t : Token) (h : Apart rest) : ∃ b more,
    t.bytes = b :: more ∧ read b (more ++ rest) = .lexeme t.kind more.length := by
  cases t with
  | name n => exact n.reads h
  | number n => exact n.reads h
  | word w => exact w.reads_lexeme rest
  | arrow isAscii =>
      cases isAscii with
      | true => exact ⟨0x2D, [0x3E], rfl, rfl⟩
      | false => exact ⟨0xE2, [0x86, 0x92], by decide, rfl⟩
  | openParen => exact ⟨0x28, [], rfl, rfl⟩
  | closeParen => exact ⟨0x29, [], rfl, rfl⟩
  | comma => exact ⟨0x2C, [], rfl, rfl⟩
  | atSign =>
      refine ⟨0x40, [], rfl, ?_⟩
      rw [List.nil_append, read_at, label?_of_apart h]
      rfl
  | percent => exact ⟨0x25, [], rfl, rfl⟩

theorem read_blank {b : UInt8} (h : read.isBlank b = true) (rest : List UInt8) :
    read b rest = .skip (rest.takeWhile read.isBlank).length := by
  unfold read
  rw [if_neg (by rw [beq_eq_false_of h rfl]; exact Bool.false_ne_true), if_pos h]

theorem read_comment (rest : List UInt8) :
    read 0x23 rest = .skip (rest.takeWhile (· != 0x0A)).length := rfl

/-- A token starts with neither a blank nor a comment. -/
theorem Token.starts (t : Token) : ∃ b more, t.bytes = b :: more ∧ read.isBlank b = false ∧
    b ≠ 0x23 := by
  have hnothing : Apart [] := by simp [Apart]
  obtain ⟨b, more, heq, hread⟩ := t.reads hnothing
  refine ⟨b, more, heq, ?_, ?_⟩
  · by_contra hblank
    rw [Bool.not_eq_false] at hblank
    rw [read_blank hblank] at hread
    cases hread
  · rintro rfl
    cases hread

end Tokens

end Discontinuous.Script
