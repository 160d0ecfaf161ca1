import Mathlib.Data.List.Forall2
import Discontinuous.Proofs.Token

/-!
Tokens on a line. Those with a blank between them are read one by one, and neither blanks at the
end of a line nor a comment there change what is read.
-/
namespace Discontinuous.Script

variable {rest : List UInt8} {ts : List Token}

/-- What stands behind the last token of a line: blanks, and a comment if there is one. -/
structure Trail where
  blanks : List UInt8
  comment : Option (List UInt8)
  blank : ∀ b ∈ blanks, read.isBlank b = true
  oneLine : ∀ text ∈ comment, 0x0A ∉ text

def Trail.empty : Trail := ⟨[], none, by simp, by simp⟩

def Trail.bytes (t : Trail) : List UInt8 :=
  t.blanks ++ (t.comment.map fun text => 0x23 :: text).getD []

theorem lexemesFrom_of_skip {b : UInt8} {n : Nat} (h : read b rest = .skip n) (column : Nat) :
    lexemesFrom column (b :: rest) =
      lexemesFrom (columnAfter column (b :: rest.take n)) (rest.drop n) := by
  rw [lexemesFrom]
  split
  next m hm =>
    cases h.symm.trans hm
    rfl
  next m hm => cases h.symm.trans hm
  next kind m hm => cases h.symm.trans hm

theorem lexemesFrom_of_lexeme {b : UInt8} {kind : LexemeKind} {n : Nat}
    (h : read b rest = .lexeme kind n) (column : Nat) :
    lexemesFrom column (b :: rest) =
      (lexemesFrom (columnAfter column (b :: rest.take n)) (rest.drop n)).map
        (.ofReading h (if b == 0x0A then 0 else column) :: ·) := by
  rw [lexemesFrom]
  split
  next m hm => cases h.symm.trans hm
  next m hm => cases h.symm.trans hm
  next kind m hm =>
    cases h.symm.trans hm
    dsimp only
    split
    next e he => rw [he]; rfl
    next more he => rw [he]; rfl

/-- The lexeme is the token. -/
def Spells (x : Lexeme) (t : Token) : Prop := x.kind = t.kind ∧ x.text = Text.ofBytes t.bytes

/-- Whatever is read as a number is a numeral: a cost that is refused is out of range, not
malformed. -/
theorem Lexeme.exists_numeral (x : Lexeme) (h : x.kind = .number) :
    ∃ n, Spells x (.number n) := by
  obtain ⟨kind, text, column, b, rest, n, hread, rfl⟩ := x
  subst h
  refine (?_ : ∃ m : Numeral, b :: rest.take n = m.chars.flatMap String.utf8EncodeChar).imp
    fun m hm => ⟨rfl, congrArg Text.ofBytes hm⟩
  rcases read_eq_number hread with ⟨hb, rfl⟩ | ⟨rfl, rfl, hpos⟩
  · obtain ⟨d, hd⟩ := exists_encode_digitChar hb
    obtain ⟨ds, fraction, exponent, htail⟩ := take_numberTail rest
    refine ⟨.whole d ds fraction exponent, ?_⟩
    rw [Numeral.encode_whole, htail, digitBytes_of_encode hd, List.cons_append]
  · obtain ⟨d, ds, hds⟩ := take_digitCount_of_pos hpos
    refine ⟨.fractional d ds, ?_⟩
    rw [hds]
    rfl

/-- The bytes are read as these tokens, in whatever column they stand. -/
def Lexes (bytes : List UInt8) (ts : List Token) : Prop :=
  ∀ column, ∃ xs, lexemesFrom column bytes = .ok xs ∧ List.Forall₂ Spells xs ts

theorem lexes_nil : Lexes [] [] := fun _ => ⟨[], by rw [lexemesFrom], .nil⟩

theorem Lexes.skip {b : UInt8} {bytes more : List UInt8}
    (hread : read b (bytes ++ more) = .skip bytes.length) (h : Lexes more ts) :
    Lexes (b :: (bytes ++ more)) ts := by
  intro column
  obtain ⟨xs, hxs, hspells⟩ := h (columnAfter column (b :: (bytes ++ more).take bytes.length))
  refine ⟨xs, ?_, hspells⟩
  rw [lexemesFrom_of_skip hread, List.drop_left]
  exact hxs

theorem Lexes.token (h : Lexes rest ts) (ha : Apart rest) (t : Token) :
    Lexes (t.bytes ++ rest) (t :: ts) := by
  intro column
  obtain ⟨b, more, heq, hread⟩ := t.reads ha
  obtain ⟨xs, hxs, hspells⟩ := h (columnAfter column (b :: (more ++ rest).take more.length))
  refine ⟨.ofReading hread (if b == 0x0A then 0 else column) :: xs, ?_, .cons ⟨rfl, ?_⟩ hspells⟩
  · rw [heq, List.cons_append, lexemesFrom_of_lexeme hread, List.drop_left, hxs]
    rfl
  · change Text.ofBytes (b :: (more ++ rest).take more.length) = _
    rw [List.take_left, heq]

theorem takeWhile_isBlank_append {blanks more : List UInt8}
    (hblanks : ∀ b ∈ blanks, read.isBlank b = true)
    (hmore : ∀ b ∈ more.head?, read.isBlank b = false) :
    (blanks ++ more).takeWhile read.isBlank = blanks := by
  have hnone : more.takeWhile read.isBlank = [] := by
    cases more with
    | nil => rfl
    | cons b more => simp [hmore b rfl]
  rw [List.takeWhile_append_of_pos hblanks, hnone, List.append_nil]

theorem lexes_comment {text : List UInt8} (h : 0x0A ∉ text) : Lexes (0x23 :: text) [] := by
  have hall : ∀ b ∈ text, (b != 0x0A) = true := by
    intro b hb
    rw [bne_iff_ne]
    rintro rfl
    exact h hb
  have hread : read 0x23 (text ++ []) = .skip text.length := by
    rw [List.append_nil, read_comment, List.takeWhile_eq_self_iff.mpr hall]
  have hlexes := lexes_nil.skip hread
  rwa [List.append_nil] at hlexes

/-- There is no token behind the last one. -/
theorem Trail.lexes (t : Trail) : Lexes t.bytes [] := by
  obtain ⟨blanks, comment, hblank, honeLine⟩ := t
  have hcomment : Lexes ((comment.map fun text => 0x23 :: text).getD []) [] := by
    cases comment with
    | none => exact lexes_nil
    | some text => exact lexes_comment (honeLine text rfl)
  have hhead : ∀ b ∈ ((comment.map fun text => 0x23 :: text).getD []).head?,
      read.isBlank b = false := by
    cases comment with
    | none => simp
    | some text =>
        intro b hb
        cases hb
        rfl
  simp only [bytes]
  cases blanks with
  | nil => exact hcomment
  | cons b blanks =>
      rw [List.forall_mem_cons] at hblank
      refine hcomment.skip ?_
      rw [read_blank hblank.1, takeWhile_isBlank_append hblank.2 hhead]

theorem Trail.apart (t : Trail) : Apart t.bytes := by
  obtain ⟨blanks, comment, hblank, -⟩ := t
  intro b hb
  cases blanks with
  | nil =>
      cases comment with
      | none => cases hb
      | some text =>
          cases hb
          exact .inr rfl
  | cons c blanks =>
      cases hb
      exact .inl (hblank b List.mem_cons_self)

theorem Lexes.space (h : Lexes rest ts) (hhead : ∀ b ∈ rest.head?, read.isBlank b = false) :
    Lexes (0x20 :: rest) ts := by
  have hread : read 0x20 ([] ++ rest) = .skip ([] : List UInt8).length := by
    rw [read_blank rfl, takeWhile_isBlank_append (by simp) hhead]
  exact h.skip hread

theorem Token.spaced_cons (t : Token) (ts : List Token) :
    ∃ more, spaced (t :: ts) = t.bytes ++ more := by
  cases ts with
  | nil => exact ⟨[], (List.append_nil _).symm⟩
  | cons u ts => exact ⟨0x20 :: spaced (u :: ts), rfl⟩

/-- Tokens with a blank between each two are read one by one, and what follows them does not
count. -/
theorem lexes_spaced (ts : List Token) (trail : Trail) :
    Lexes (Token.spaced ts ++ trail.bytes) ts := by
  fun_induction Token.spaced ts with
  | case1 => exact trail.lexes
  | case2 t => exact trail.lexes.token trail.apart t
  | case3 t ts hne ih =>
      have hhead : ∀ b ∈ (Token.spaced ts ++ trail.bytes).head?, read.isBlank b = false := by
        cases ts with
        | nil => exact absurd rfl hne
        | cons u ts =>
            obtain ⟨more, hmore⟩ := Token.spaced_cons u ts
            obtain ⟨b, tail, hbytes, hblank, -⟩ := u.starts
            rw [hmore, hbytes]
            intro c hc
            cases hc
            exact hblank
      rw [List.append_assoc, List.cons_append]
      exact (ih.space hhead).token (by intro b hb; cases hb; exact .inl rfl) t

/-! The text of a line. -/

/-- A character of at most two bytes that is no blank. -/
def IsSolid (c : Char) : Prop := c.toNat < 0x800 ∧ Text.isBlank c = false

instance : DecidablePred IsSolid := fun c =>
  inferInstanceAs (Decidable (c.toNat < 0x800 ∧ Text.isBlank c = false))

theorem IsNameChar.isSolid {c : Char} (h : IsNameChar c) : IsSolid c := by
  rcases h.cases with ⟨hascii, hbyte⟩ | ⟨-, hhi, hblank⟩
  · rw [isNameByte_iff, toNat_byte hascii] at hbyte
    refine ⟨by omega, ?_⟩
    simp [Text.isBlank]
    omega
  · exact ⟨hhi, hblank⟩

theorem Name.isSolid (n : Name) : ∀ c ∈ n.chars, IsSolid c := by
  intro c hc
  rw [Name.chars, List.mem_append, List.mem_cons] at hc
  rcases hc with hc | rfl | hc
  · split at hc
    · cases List.mem_singleton.mp hc
      decide
    · cases hc
  · exact IsNameChar.isSolid (.inl n.letter)
  · exact (n.proper c hc).isSolid

theorem isSolid_digits (ds : List (Fin 10)) : ∀ c ∈ ds.map digitChar, IsSolid c := by
  intro c hc
  obtain ⟨d, -, rfl⟩ := List.mem_map.mp hc
  have hall : ∀ d : Fin 10, IsSolid (digitChar d) := by decide
  exact hall d

theorem Exponent.isSolid (e : Exponent) : ∀ c ∈ e.chars, IsSolid c := by
  obtain ⟨isUpper, sign, first, rest⟩ := e
  refine List.forall_mem_cons.mpr ⟨?_, List.forall_mem_append.mpr ⟨?_, isSolid_digits _⟩⟩
  · have hmark : ∀ isUpper : Bool, IsSolid (if isUpper then 'E' else 'e') := by decide
    exact hmark isUpper
  · have hsign : ∀ negative : Bool, IsSolid (if negative then '-' else '+') := by decide
    cases sign with
    | none => simp
    | some negative => simpa using hsign negative

theorem Numeral.isSolid (n : Numeral) : ∀ c ∈ n.chars, IsSolid c := by
  have hpoint : IsSolid '.' := by decide
  cases n with
  | whole first rest fraction exponent =>
      refine List.forall_mem_append.mpr ⟨isSolid_digits _, List.forall_mem_append.mpr ⟨?_, ?_⟩⟩
      · cases fraction with
        | none => simp
        | some ds => exact List.forall_mem_cons.mpr ⟨hpoint, isSolid_digits ds⟩
      · cases exponent with
        | none => simp
        | some e => exact e.isSolid
  | fractional first rest => exact List.forall_mem_cons.mpr ⟨hpoint, isSolid_digits _⟩

theorem ofBytes_of_solid {cs : List Char} (h : ∀ c ∈ cs, IsSolid c) :
    Text.ofBytes (cs.flatMap String.utf8EncodeChar) = cs.map .char :=
  Text.ofBytes_flatMap_encode fun c hc => (h c hc).1

/-- A text with a blank neither in front nor at the end. -/
structure Firm (t : Text) : Prop where
  ne_nil : t ≠ []
  first : ∀ g ∈ t.head?, Text.isBlankGlyph g = false
  last : ∀ g ∈ t.getLast?, Text.isBlankGlyph g = false

theorem Firm.of_forall {t : Text} (hne : t ≠ []) (h : ∀ g ∈ t, Text.isBlankGlyph g = false) :
    Firm t :=
  ⟨hne, fun g hg => h g (List.mem_of_mem_head? hg), fun g hg => h g (List.mem_of_mem_getLast? hg)⟩

theorem firm_of_solid {cs : List Char} (hne : cs ≠ []) (h : ∀ c ∈ cs, IsSolid c) :
    Firm (Text.ofBytes (cs.flatMap String.utf8EncodeChar)) := by
  rw [ofBytes_of_solid h]
  refine .of_forall (by simpa using hne) ?_
  intro g hg
  obtain ⟨c, hc, rfl⟩ := List.mem_map.mp hg
  exact (h c hc).2

theorem Word.firm (w : Word) : Firm (Text.ofBytes w.bytes) := by
  obtain ⟨t, value, htext, hvalue⟩ := w.text_eq
  have hlast := Text.getLast?_of_unquoteBody hvalue
  rw [htext]
  refine ⟨by simp, ?_, ?_⟩
  · intro g hg
    cases hg
    decide
  · intro g hg
    rw [List.getLast?_cons, hlast] at hg
    cases hg
    decide

theorem Token.firm (t : Token) : Firm (Text.ofBytes t.bytes) := by
  have hpunctuation : ∀ c : Char, IsSolid c → Firm (Text.ofBytes (String.utf8EncodeChar c)) := by
    intro c hc
    have hfirm := firm_of_solid (List.cons_ne_nil c []) (by simpa using hc)
    rwa [List.flatMap_singleton] at hfirm
  cases t with
  | name n => exact firm_of_solid (by simp [Name.chars]) n.isSolid
  | number n => exact firm_of_solid (by cases n <;> simp [Numeral.chars]) n.isSolid
  | word w => exact w.firm
  | arrow isAscii =>
      cases isAscii with
      | true =>
          have hsolid : ∀ c ∈ ['-', '>'], IsSolid c :=
            List.forall_mem_cons.mpr ⟨by decide, List.forall_mem_singleton.mpr (by decide)⟩
          exact firm_of_solid (by simp) hsolid
      | false =>
          have harrow : Text.Encodes 0xE2 [0x86, 0x92] '→' :=
            @Text.Encodes.three 0xE2 0x86 0x92 2 6 18 (by decide) rfl rfl rfl rfl
          have htext : Text.ofBytes (String.utf8EncodeChar '→') = .char '→' :: Text.ofBytes [] :=
            Text.ofBytes_of_encodes harrow []
          refine .of_forall (by simp [bytes, htext]) ?_
          intro g hg
          simp only [bytes] at hg
          rw [if_neg Bool.false_ne_true, htext, Text.ofBytes] at hg
          cases List.mem_singleton.mp hg
          decide
  | openParen => exact hpunctuation '(' (by decide)
  | closeParen => exact hpunctuation ')' (by decide)
  | comma => exact hpunctuation ',' (by decide)
  | atSign => exact hpunctuation '@' (by decide)
  | percent => exact hpunctuation '%' (by decide)

/-- A line of tokens has a blank neither in front nor at the end. -/
theorem firm_spaced (hne : ts ≠ []) : Firm (Text.ofBytes (Token.spaced ts)) := by
  fun_induction Token.spaced ts with
  | case1 => exact absurd rfl hne
  | case2 t => exact t.firm
  | case3 t ts hts ih =>
      have hspace : Text.Detached (0x20 :: Token.spaced ts) := Text.detached_cons (by decide) _
      have htext : Text.ofBytes (0x20 :: Token.spaced ts) =
          .char ' ' :: Text.ofBytes (Token.spaced ts) :=
        Text.ofBytes_ascii (by decide) _
      obtain ⟨hne, -, hlast⟩ := ih fun h => hts h
      rw [Text.ofBytes_append _ hspace, htext]
      refine ⟨by simp, ?_, ?_⟩
      · intro g hg
        rw [List.head?_append_of_ne_nil _ t.firm.ne_nil] at hg
        exact t.firm.first g hg
      · intro g hg
        rw [List.getLast?_append_of_ne_nil _ (by simp), List.getLast?_cons_of_ne_nil hne] at hg
        exact hlast g hg

/-! Where a line ends. -/

theorem Trail.detached (t : Trail) : Text.Detached t.bytes := by
  intro b hb
  have hb := t.apart.toNat_head hb
  rw [UInt8.lt_iff_toNat_lt]
  simp only [UInt8.reduceToNat]
  omega

/-- A part of what stands behind the last token is of the same kind. -/
theorem Trail.exists_of_prefix (t : Trail) {bytes : List UInt8} (h : bytes <+: t.bytes) :
    ∃ t' : Trail, bytes = t'.bytes := by
  obtain ⟨blanks, comment, hblank, honeLine⟩ := t
  obtain ⟨rest, hrest⟩ := h
  rcases List.append_eq_append_iff.mp hrest with ⟨more, rfl, -⟩ | ⟨more, rfl, hmore⟩
  · refine ⟨⟨bytes, none, fun b hb => hblank b (List.mem_append_left _ hb), by simp⟩, ?_⟩
    simp [Trail.bytes]
  · cases more with
    | nil => exact ⟨⟨blanks, none, hblank, by simp⟩, rfl⟩
    | cons b more =>
        cases comment with
        | none => cases hmore
        | some text =>
            obtain ⟨rfl, rfl⟩ := List.cons.inj hmore
            refine ⟨⟨blanks, some more, hblank, ?_⟩, rfl⟩
            intro text htext
            cases htext
            exact fun hmem => honeLine _ rfl (List.mem_append_left _ hmem)

/-- At most the end of a line is dropped. -/
theorem dropReturn_append {core : List UInt8} (tail : List UInt8)
    (h : core.getLast? ≠ some 0x0D) :
    ∃ tail', tail' <+: tail ∧ dropReturn (core ++ tail) = core ++ tail' := by
  simp only [dropReturn]
  split
  next hreturn =>
    cases tail with
    | nil =>
        rw [List.append_nil] at hreturn
        exact absurd hreturn h
    | cons b tail =>
        refine ⟨(b :: tail).dropLast, List.dropLast_prefix _, ?_⟩
        exact List.dropLast_append_of_ne_nil (by simp)
  next => exact ⟨tail, List.prefix_refl tail, rfl⟩

theorem getLast?_ne_of_firm {core : List UInt8} (h : Firm (Text.ofBytes core)) :
    core.getLast? ≠ some 0x0D := by
  intro hlast
  obtain ⟨front, rfl⟩ := List.getLast?_eq_some_iff.mp hlast
  have hreturn : Text.Detached [0x0D] := Text.detached_cons (by decide) []
  have htext : Text.ofBytes [0x0D] = [.char (Char.ofNat 0x0D)] := by
    rw [Text.ofBytes_ascii (by decide), Text.ofBytes]
    rfl
  have hblank := h.last (.char (Char.ofNat 0x0D))
    (by rw [Text.ofBytes_append _ hreturn, htext]; simp)
  exact absurd hblank (by decide)

/-- Of a line of tokens only blanks and comments at its end are trimmed. -/
theorem trim_line {core : List UInt8} (h : Firm (Text.ofBytes core)) (t : Trail) :
    ∃ t' : Trail, (Text.trim (Text.ofBytes (dropReturn (core ++ t.bytes)))).bytes =
      core ++ t'.bytes := by
  obtain ⟨tail, htail, hdrop⟩ := dropReturn_append t.bytes (getLast?_ne_of_firm h)
  obtain ⟨t, rfl⟩ := t.exists_of_prefix htail
  obtain ⟨rest, hrest, htrim⟩ := Text.trim_append (Text.ofBytes t.bytes)
    (List.forall_mem_nil _) h.ne_nil h.first h.last
  have hprefix : Text.bytes rest <+: t.bytes := by
    obtain ⟨more, hmore⟩ := hrest
    refine ⟨Text.bytes more, ?_⟩
    rw [← Text.bytes_append, hmore, Text.bytes_ofBytes]
  obtain ⟨t', ht'⟩ := t.exists_of_prefix hprefix
  refine ⟨t', ?_⟩
  rw [List.nil_append] at htrim
  rw [hdrop, Text.ofBytes_append _ t.detached, htrim, Text.bytes_append, Text.bytes_ofBytes, ht']

end Discontinuous.Script
