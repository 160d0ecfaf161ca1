import Discontinuous.Proofs.Cost
import Discontinuous.Proofs.Line
import Discontinuous.Text.Composed

/-!
Scripts are read as they are written. Whatever statements stand on the rows of a script, with blanks
and comments between them, reading it carries them out one after the other, and stops at the first
that is refused.
-/
namespace Discontinuous.Script

variable {α : Type}

section Additions

variable [Composer] [Cost α]

/-- Adds what a statement says to a grammar and a lexicon. A start symbol is not added: the grammar
has it from the beginning. -/
def Statement.addTo (x : Grammar α × Lexicon α) :
    Statement α → Except LineError (Grammar α × Lexicon α)
  | .start _ => .ok x
  | .entry label word cost =>
    let (lexicon, grammar, result) := x.2.add x.1 word label cost
    (result.mapError .grammar).map fun _ => (grammar, lexicon)
  | .clause lhs left right cost =>
    ((yieldOf lhs left right).mapError .binding).bind fun y =>
      let (grammar, result) :=
        x.1.addClause lhs.label left.label (right.map (·.label)) y cost
      (result.mapError .grammar).map fun _ => (grammar, x.2)

/-- Adds what a statement with a number says. A failure carries the number. -/
def addNumbered (x : Grammar α × Lexicon α) (s : Nat × Statement α) :
    Except ScriptError (Grammar α × Lexicon α) :=
  (s.2.addTo x).mapError (.line s.1)

/-- What comes of carrying out statements. -/
def outcome {ε : Type} : Draft α × Option ε → Except ε (Grammar α × Lexicon α)
  | (d, none) => .ok (d.grammar, d.lexicon)
  | (_, some e) => .error e

theorem outcome_carryOut (d : Draft α) (s : Statement α) :
    outcome (d.carryOut s) = s.addTo (d.grammar, d.lexicon) := by
  cases s with
  | start name => rfl
  | entry label word cost =>
      rw [Draft.carryOut, Statement.addTo]
      rcases d.lexicon.add d.grammar word label cost with ⟨lexicon, grammar, result⟩
      cases result <;> rfl
  | clause lhs left right cost =>
      rw [Draft.carryOut, Statement.addTo]
      cases yieldOf lhs left right with
      | error e => rfl
      | ok y =>
          simp only [addClause, Except.mapError, Except.bind]
          cases (d.grammar.addClause lhs.label left.label (right.map (·.label)) y cost).2 <;> rfl

theorem outcome_carryOutAll (d : Draft α) (statements : List (Nat × Statement α)) :
    outcome (d.carryOutAll statements) =
      statements.foldlM addNumbered (d.grammar, d.lexicon) := by
  induction statements generalizing d with
  | nil => rfl
  | cons numbered statements ih =>
      obtain ⟨n, s⟩ := numbered
      rw [Draft.carryOutAll, List.foldlM_cons, addNumbered, ← outcome_carryOut]
      rcases d.carryOut s with ⟨d, _ | e⟩
      · exact ih d
      · rfl

end Additions

variable [CostLiteral α]

/-- A row of a script: blanks, a comment that blanks may precede, or a statement. -/
inductive Row (α : Type) [CostLiteral α] where
  | blank (bytes : List UInt8) (blank : ∀ g ∈ Text.ofBytes bytes, Text.isBlankGlyph g = true)
      (oneLine : 0x0A ∉ bytes)
  | comment (lead text : List UInt8) (blank : ∀ g ∈ Text.ofBytes lead, Text.isBlankGlyph g = true)
      (oneLine : 0x0A ∉ lead ++ text)
  | statement (s : StatementForm α) (trail : Trail)

namespace Row

def bytes : Row α → List UInt8
  | blank bytes _ _ => bytes
  | comment lead text _ _ => lead ++ 0x23 :: text
  | statement s trail => Token.spaced s.tokens ++ trail.bytes

def statement? [Cost α] : Row α → Option (Statement α)
  | blank _ _ _ => none
  | comment _ _ _ _ => none
  | statement s _ => some s.statement

end Row

/-- Rows with a line feed between each two. A script that ends with a line feed has an empty row at
its end. -/
def script : List (Row α) → List UInt8
  | [] => []
  | [row] => row.bytes
  | row :: rows => row.bytes ++ 0x0A :: script rows

/-! Rows. -/

section Rows

variable [Cost α]

theorem readLine_blank {bytes : List UInt8}
    (h : ∀ g ∈ Text.ofBytes bytes, Text.isBlankGlyph g = true) :
    readLine (α := α) (dropReturn bytes) = .ok none := by
  have hdrop : ∀ g ∈ Text.ofBytes (dropReturn bytes), Text.isBlankGlyph g = true := by
    rw [dropReturn]
    split
    next hlast =>
      obtain ⟨front, rfl⟩ := List.getLast?_eq_some_iff.mp hlast
      have hreturn : Text.Detached [0x0D] := Text.detached_cons (by decide) []
      rw [List.dropLast_concat]
      rw [Text.ofBytes_append _ hreturn] at h
      exact fun g hg => h g (List.mem_append_left _ hg)
    next => exact h
  rw [readLine, Text.trim_of_blank hdrop]
  rfl

theorem readLine_comment {lead : List UInt8} (text : List UInt8)
    (h : ∀ g ∈ Text.ofBytes lead, Text.isBlankGlyph g = true) :
    readLine (α := α) (dropReturn (lead ++ 0x23 :: text)) = .ok none := by
  have hlast : (lead ++ [0x23]).getLast? ≠ some 0x0D := by simp
  obtain ⟨tail, -, hdrop⟩ := dropReturn_append text hlast
  rw [List.append_assoc, List.append_assoc, List.singleton_append, List.singleton_append] at hdrop
  have hsharp : Text.Detached (0x23 :: tail) := Text.detached_cons (by decide) tail
  have htext : Text.ofBytes (0x23 :: tail) = [.char '#'] ++ Text.ofBytes tail :=
    Text.ofBytes_ascii (by decide) tail
  obtain ⟨rest, -, htrim⟩ := Text.trim_append (Text.ofBytes tail) h
    (List.cons_ne_nil (Glyph.char '#') []) (by decide) (by decide)
  have hbytes : (Text.trim (Text.ofBytes (lead ++ 0x23 :: tail))).bytes =
      0x23 :: Text.bytes rest := by
    rw [Text.ofBytes_append _ hsharp, htext, htrim]
    rfl
  rw [hdrop, readLine, hbytes]
  rfl

omit [Cost α] in
theorem tokens_ne_nil (s : StatementForm α) : s.tokens ≠ [] := by
  cases s <;> simp [StatementForm.tokens, PredicateForm.tokens]

theorem readLine_statement (s : StatementForm α) (trail : Trail) :
    readLine (dropReturn (Token.spaced s.tokens ++ trail.bytes)) = .ok (some s.statement) := by
  obtain ⟨trail, htrim⟩ := trim_line (firm_spaced (tokens_ne_nil s)) trail
  obtain ⟨xs, hlexemes, hspells⟩ := lexes_spaced s.tokens trail 1
  have hline : Line.ofLexemes xs = .ok s.line := by
    rw [Line.ofLexemes, ofLexemes?_tokens hspells]
  have hwalk := Walker.walk_of_ofLexemes? (α := α) (ofLexemes?_tokens hspells)
  rw [statement_line] at hwalk
  obtain ⟨t, ts, hts⟩ := List.exists_cons_of_ne_nil (tokens_ne_nil s)
  obtain ⟨more, hmore⟩ := Token.spaced_cons t ts
  obtain ⟨b, tail, hbytes, -, hcomment⟩ := t.starts
  have hfirst : Token.spaced s.tokens ++ trail.bytes = b :: (tail ++ (more ++ trail.bytes)) := by
    rw [hts, hmore, hbytes]
    simp
  rw [readLine, htrim]
  -- The first token keeps the line from being empty, and from being a comment.
  split
  next heq => cases hfirst.symm.trans heq
  next heq =>
    obtain ⟨rfl, -⟩ := List.cons.inj (hfirst.symm.trans heq)
    exact absurd rfl hcomment
  next =>
    simp only [lexemes, hlexemes, hline, Except.bind, hwalk]
    rfl

/-- A row says what is written on it. -/
theorem readLine_row (row : Row α) : readLine (dropReturn row.bytes) = .ok row.statement? := by
  cases row with
  | blank bytes hblank _ => exact readLine_blank hblank
  | comment lead text hblank _ => exact readLine_comment text hblank
  | statement s trail => exact readLine_statement s trail

end Rows

/-! Line feeds stand between rows only. -/

theorem lineFeed_not_mem_of_solid {cs : List Char} (h : ∀ c ∈ cs, IsSolid c) :
    0x0A ∉ cs.flatMap String.utf8EncodeChar := by
  intro hmem
  obtain ⟨c, hc, hb⟩ := List.mem_flatMap.mp hmem
  by_cases hascii : c.toNat < 0x80
  · rw [Text.encode_ascii hascii, List.mem_singleton] at hb
    have hten : c.toNat = 0x0A := by
      rw [← toNat_byte hascii, ← hb]
      rfl
    have hblank := (h c hc).2
    simp [Text.isBlank, hten] at hblank
  · have hhigh := Text.encode_not_ascii (Nat.le_of_not_lt hascii) _ hb
    simp at hhigh

theorem Token.lineFeed_not_mem (t : Token) : 0x0A ∉ t.bytes := by
  cases t with
  | name n => exact lineFeed_not_mem_of_solid n.isSolid
  | number n => exact lineFeed_not_mem_of_solid n.isSolid
  | word w => exact w.oneLine
  | arrow isAscii => cases isAscii <;> decide
  | openParen => decide
  | closeParen => decide
  | comma => decide
  | atSign => decide
  | percent => decide

theorem lineFeed_not_mem_spaced (ts : List Token) : 0x0A ∉ Token.spaced ts := by
  fun_induction Token.spaced ts with
  | case1 => exact List.not_mem_nil
  | case2 t => exact t.lineFeed_not_mem
  | case3 t ts _ ih => simp [t.lineFeed_not_mem, ih]

theorem Trail.lineFeed_not_mem (t : Trail) : 0x0A ∉ t.bytes := by
  obtain ⟨blanks, comment, hblank, honeLine⟩ := t
  have hblanks : 0x0A ∉ blanks := fun hmem => absurd (hblank _ hmem) (by decide)
  cases comment with
  | none => simpa [Trail.bytes] using hblanks
  | some text => simp [Trail.bytes, hblanks, honeLine text rfl]

theorem Row.lineFeed_not_mem (row : Row α) : 0x0A ∉ row.bytes := by
  cases row with
  | blank bytes _ honeLine => exact honeLine
  | comment lead text _ honeLine => simpa [Row.bytes] using honeLine
  | statement s trail =>
      simp [Row.bytes, lineFeed_not_mem_spaced, trail.lineFeed_not_mem]

theorem splitLines_cons {b : UInt8} (h : b ≠ 0x0A) (bytes : List UInt8) :
    splitLines (b :: bytes) =
      match splitLines bytes with
      | [] => [[b]]
      | line :: lines => (b :: line) :: lines :=
  if_neg h

theorem splitLines_append {line : List UInt8} (h : 0x0A ∉ line) (rest : List UInt8) :
    splitLines (line ++ 0x0A :: rest) = line :: splitLines rest := by
  induction line with
  | nil => rfl
  | cons b line ih =>
      rw [List.mem_cons, not_or] at h
      rw [List.cons_append, splitLines_cons (Ne.symm h.1), ih h.2]

theorem splitLines_of_not_mem {line : List UInt8} (h : 0x0A ∉ line) :
    splitLines line = if line = [] then [] else [line] := by
  induction line with
  | nil => rfl
  | cons b line ih =>
      rw [List.mem_cons, not_or] at h
      rw [splitLines_cons (Ne.symm h.1), ih h.2]
      by_cases hnil : line = []
      · simp [hnil]
      · simp [hnil]

/-! What a script stands for. -/

section Meaning

variable [Cost α]

/-- The statements of rows, with the numbers of their rows, from number `n` on. -/
def numbered (n : Nat) (rows : List (Row α)) : List (Nat × Statement α) :=
  (rows.zipIdx n).filterMap fun x => x.1.statement?.map (x.2, ·)

theorem readLines_cons {n : Nat} {row : Row α} {lines : List (List UInt8)}
    {statements : List (Nat × Statement α)} (hlength : row.bytes.length < lineLimit)
    (h : readLines (n + 1) lines = .ok statements) :
    readLines n (row.bytes :: lines) =
      .ok ((row.statement?.map (n, ·)).toList ++ statements) := by
  rw [readLines, if_neg (Nat.not_le_of_lt hlength), readLine_row]
  cases row.statement? with
  | none => exact h
  | some s =>
      simp only [h]
      rfl

theorem numbered_cons (n : Nat) (row : Row α) (rows : List (Row α)) :
    numbered n (row :: rows) = (row.statement?.map (n, ·)).toList ++ numbered (n + 1) rows := by
  rw [numbered, List.zipIdx_cons]
  cases hrow : row.statement? with
  | none =>
      rw [List.filterMap_cons_none (by simp [hrow])]
      rfl
  | some s =>
      rw [List.filterMap_cons_some (by rw [hrow, Option.map_some])]
      rfl

/-- Reading a script gives the statements on its rows. -/
theorem readLines_script {rows : List (Row α)} (h : ∀ row ∈ rows, row.bytes.length < lineLimit)
    (n : Nat) : readLines n (splitLines (script rows)) = .ok (numbered n rows) := by
  fun_induction script rows generalizing n with
  | case1 => rfl
  | case2 row =>
      rw [splitLines_of_not_mem row.lineFeed_not_mem]
      split
      next hnil =>
        -- An empty row at the end is no line, and there is no statement on it.
        have hempty : readLine (α := α) (dropReturn []) = .ok none :=
          readLine_blank (by simp [Text.ofBytes])
        have hrow := readLine_row row
        rw [hnil, hempty] at hrow
        have hnone : row.statement? = none := (Except.ok.inj hrow).symm
        simp [numbered, hnone, readLines]
      next =>
        rw [numbered_cons]
        exact readLines_cons (h row List.mem_cons_self) rfl
  | case3 row rows _ ih =>
      rw [splitLines_append row.lineFeed_not_mem, numbered_cons]
      rw [List.forall_mem_cons] at h
      exact readLines_cons h.1 (ih h.2 (n + 1))

/-- The start symbol that a row names. -/
def Row.start? : Row α → Option String
  | .statement (.start name) _ => some name.text
  | _ => none

/-- The grammar and the lexicon of rows: the start symbol is the one that is named last, and the
statements are added in order, up to the first that is refused. -/
def meaning [Composer] (rows : List (Row α)) : Except ScriptError (Grammar α × Lexicon α) :=
  (numbered 1 rows).foldlM addNumbered
    (.new ((rows.filterMap Row.start?).getLast?.getD defaultStart), .empty)

theorem document_eq [Composer] {bytes : List UInt8} {statements : List (Nat × Statement α)}
    (h : readLines 1 (splitLines bytes) = .ok statements) :
    (document bytes).2 =
      outcome (Draft.carryOutAll ⟨.new (startOf statements), .empty, []⟩ statements) := by
  rw [document, h]
  simp only
  rcases Draft.carryOutAll ⟨.new (startOf statements), .empty, []⟩ statements with ⟨d, _ | e⟩
  · rfl
  · rfl

/-- The start symbol of a script is the one that is named last. -/
theorem startOf_numbered (n : Nat) (rows : List (Row α)) :
    startOf (numbered n rows) = (rows.filterMap Row.start?).getLast?.getD defaultStart := by
  rw [startOf]
  -- The induction passes any start symbol that stands before the rows.
  generalize defaultStart = start
  induction rows generalizing n start with
  | nil => rfl
  | cons row rows ih =>
      rw [numbered_cons, List.foldl_append, ih]
      cases row with
      | blank bytes _ _ => rfl
      | comment lead text _ _ => rfl
      | statement s trail =>
          cases s with
          | start name =>
              have hstart : Row.start? (.statement (.start name) trail : Row α) = some name.text :=
                rfl
              rw [List.filterMap_cons_some hstart, List.getLast?_cons]
              rfl
          | entry label isAscii word cost => rfl
          | clause lhs isAscii left right cost => rfl

/-- A script is read as it is written. -/
theorem document_script [Composer] {rows : List (Row α)}
    (h : ∀ row ∈ rows, row.bytes.length < lineLimit) :
    (document (script rows)).2 = meaning rows := by
  rw [document_eq (readLines_script h 1), outcome_carryOutAll, startOf_numbered]
  rfl

end Meaning

/-- Rational costs take literals exactly. -/
instance : CostLiteral Price where
  ofLiteral? x := some ((x.digits * (10 : ℚ) ^ x.power : ℚ) : Price)

namespace Sample

def x : Name := .of false 'X' [] (by decide) (by decide)

def y : Name := .of false 'Y' [] (by decide) (by decide)

def verb : Name := .of false 'V' [] (by decide) (by decide)

def noun : Name := .of false 'N' [] (by decide) (by decide)

def phrase : Name := .of true 'V' ['P', '|', '1'] (by decide) (by decide)

def root : Name := .of false 'S' ['ä', 't', 'z', 'e'] (by decide) (by decide)

/-- The word `geä#`, with an escape for its second letter. -/
def word : Word where
  bytes := [0x22, 0x67, 0x5C, 0x78, 0x36, 0x35, 0xC3, 0xA4, 0x23, 0x22]
  value := [.char 'g', .char 'e', .char 'ä', .char '#']
  reads := by decide +kernel
  oneLine := by decide

def cost : CostForm Price := ⟨.fractional 5 [], ((5 * (10 : ℚ) ^ (-1 : ℤ) : ℚ) : Price), rfl⟩

def rows : List (Row Price) :=
  [.comment [0x20] [0x21] (by simp [Text.ofBytes_ascii, Text.ofBytes]; decide) (by decide),
    .statement (.start root) ⟨[0x20, 0x09], some [0x25], by simp [read.isBlank], by simp⟩,
    .statement (.entry verb true word (some cost)) .empty,
    .blank [0x0D] (by simp [Text.ofBytes_ascii, Text.ofBytes]; decide) (by decide),
    .statement (.clause ⟨phrase, ⟨x, []⟩, [⟨y, []⟩]⟩ false ⟨verb, ⟨x, []⟩, []⟩
      (some ⟨noun, ⟨y, []⟩, []⟩) none) .empty]

/-- A clause with a variable that no child binds. -/
def refused : Row Price :=
  .statement (.clause ⟨root, ⟨x, [y]⟩, []⟩ true ⟨verb, ⟨x, []⟩, []⟩ none none) .empty

end Sample

theorem document_script_commented :
    script Sample.rows =
        (" #!\n% start Sätze \t#%\nV -> \"g\\x65ä#\" @ .5\n\r\n@VP|1 ( X , Y ) → V ( X ) N ( Y )"
          ).toList.flatMap String.utf8EncodeChar ∧
      (document (script Sample.rows)).2 = meaning Sample.rows ∧
      (document (α := Price) (script (Sample.rows.insertIdx 1 Sample.refused))).2 =
        .error (.line 2 (.binding (.unbound "Y"))) := by
  have hrows : ∀ row ∈ Sample.rows, row.bytes.length < lineLimit := by decide +kernel
  have hrefused : ∀ row ∈ Sample.rows.insertIdx 1 Sample.refused,
      row.bytes.length < lineLimit := by decide +kernel
  exact ⟨by decide +kernel, document_script hrows, document_script hrefused⟩

end Discontinuous.Script
