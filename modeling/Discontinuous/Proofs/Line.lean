import Discontinuous.Proofs.Lexeme
import Discontinuous.Proofs.Walker

/-!
How statements are written: as the tokens of labels, arguments, words and costs. Whatever is written
as a statement is read as that statement.
-/
namespace Discontinuous.Script

/-- A list of one member at least. -/
structure Series (β : Type) where
  first : β
  rest : List β

def Series.toList {β : Type} (s : Series β) : List β := s.first :: s.rest

/-- A predicate as it is written. -/
structure PredicateForm where
  label : Name
  args : Series (Series Name)

namespace PredicateForm

/-- Arguments with commas between them, up to the closing parenthesis. -/
def argTokens (first : Series Name) : List (Series Name) → List Token
  | [] => first.toList.map .name ++ [.closeParen]
  | second :: rest => first.toList.map .name ++ .comma :: argTokens second rest

def tokens (p : PredicateForm) : List Token :=
  .name p.label :: .openParen :: argTokens p.args.first p.args.rest

def predicate (p : PredicateForm) : Predicate :=
  ⟨p.label.text, p.args.toList.map fun arg => arg.toList.map Name.text⟩

end PredicateForm

variable {α : Type} [CostLiteral α]

/-- A cost as it is written. -/
structure CostForm (α : Type) [CostLiteral α] where
  numeral : Numeral
  value : α
  reads : CostLiteral.ofLiteral? (.read numeral.chars) = some value

namespace CostForm

/-- A cost at the end of a statement, which may be missing. -/
def tokens : Option (CostForm α) → List Token
  | none => []
  | some c => [.atSign, .number c.numeral]

def text (c : CostForm α) : Text := c.numeral.chars.map .char

end CostForm

/-- A statement as it is written. -/
inductive StatementForm (α : Type) [CostLiteral α] where
  | start (name : Name)
  | entry (label : Name) (isAscii : Bool) (word : Word) (cost : Option (CostForm α))
  | clause (lhs : PredicateForm) (isAscii : Bool) (left : PredicateForm)
      (right : Option PredicateForm) (cost : Option (CostForm α))

def startKeyword : Name := .of false 's' ['t', 'a', 'r', 't'] (by decide) (by decide)

namespace StatementForm

def tokens : StatementForm α → List Token
  | start name => [.percent, .name startKeyword, .name name]
  | entry label isAscii word cost =>
    .name label :: .arrow isAscii :: .word word :: CostForm.tokens cost
  | clause lhs isAscii left right cost =>
    lhs.tokens ++ .arrow isAscii ::
      (left.tokens ++ ((right.map PredicateForm.tokens).getD [] ++ CostForm.tokens cost))

/-- The statement that is written. A cost that is not written is zero. -/
def statement [Cost α] : StatementForm α → Statement α
  | start name => .start name.text
  | entry label _ word cost => .entry label.text word.value ((cost.map (·.value)).getD Cost.zero)
  | clause lhs _ left right cost =>
    .clause lhs.predicate left.predicate (right.map PredicateForm.predicate)
      ((cost.map (·.value)).getD Cost.zero)

/-- The line of the tokens, with words and costs as they are written. -/
def line : StatementForm α → Line
  | start name => .directive startKeyword.text name.text
  | entry label _ word cost => .entry label.text (Text.ofBytes word.bytes) (cost.map (·.text))
  | clause lhs _ left right cost =>
    .clause lhs.predicate left.predicate (right.map PredicateForm.predicate) (cost.map (·.text))

end StatementForm

/-! From lexemes to lines. -/

section Lines

variable {x : Lexeme} {xs : List Lexeme}

theorem Spells.name {n : Name} (h : Spells x (.name n)) : x.name = n.text := by
  rw [Lexeme.name, h.2, Token.bytes, ofBytes_of_solid n.isSolid]
  exact Text.toString_map_char n.chars

/-- What a token stands for. -/
def Token.sign : Token → Sign
  | name n => .ident n.text
  | number n => .number (n.chars.map .char)
  | word w => .string (Text.ofBytes w.bytes)
  | t => .mark t.kind

theorem Spells.sign_eq {t : Token} (h : Spells x t) : x.sign = t.sign := by
  cases t with
  | name n => exact Lexeme.sign_eq_ident.mpr ⟨h.1, h.name⟩
  | number n =>
      refine Lexeme.sign_eq_number.mpr ⟨h.1, ?_⟩
      rw [h.2, Token.bytes, ofBytes_of_solid n.isSolid]
  | word w => exact Lexeme.sign_eq_string.mpr ⟨h.1, h.2⟩
  | arrow | openParen | closeParen | comma | atSign | percent =>
      exact (Lexeme.sign_eq_mark rfl).mpr h.1

theorem map_sign_of_spells {ts : List Token} (h : List.Forall₂ Spells xs ts) :
    xs.map Lexeme.sign = ts.map Token.sign := by
  induction h with
  | nil => rfl
  | cons hx _ ih => rw [List.map_cons, List.map_cons, hx.sign_eq, ih]

namespace PredicateForm

theorem map_sign_argTokens (first : Series Name) (others : List (Series Name)) :
    (argTokens first others).map Token.sign =
      Predicate.argSigns ((first :: others).map fun arg => arg.toList.map Name.text) ++
        [.mark .closeParen] := by
  have hnames : ∀ ns : List Name, (ns.map Token.name).map Token.sign =
      (ns.map Name.text).map .ident := by
    intro ns
    rw [List.map_map, List.map_map]
    rfl
  induction others generalizing first with
  | nil =>
      rw [argTokens, List.map_append, hnames, List.map_singleton, List.map_singleton,
        Predicate.argSigns_singleton]
      rfl
  | cons second others ih =>
      rw [argTokens, List.map_append, hnames, List.map_cons, ih]
      simp [Predicate.argSigns_cons_cons, Token.sign, Token.kind]

theorem map_sign_tokens (p : PredicateForm) : p.tokens.map Token.sign = p.predicate.signs := by
  rw [tokens, List.map_cons, List.map_cons, map_sign_argTokens]
  rfl

theorem formed_predicate (p : PredicateForm) : p.predicate.Formed := by
  refine ⟨List.cons_ne_nil _ _, ?_⟩
  intro arg harg
  obtain ⟨names, -, rfl⟩ := List.mem_map.mp harg
  exact List.cons_ne_nil _ _

end PredicateForm

theorem CostForm.map_sign_tokens (cost : Option (CostForm α)) :
    (tokens cost).map Token.sign = Line.costSigns (cost.map (·.text)) := by
  cases cost <;> rfl

/-- The lexemes of a statement are what its line is written with. -/
theorem renders_line {s : StatementForm α} (h : List.Forall₂ Spells xs s.tokens) :
    s.line.Renders xs := by
  have hsigns := map_sign_of_spells h
  cases s with
  | start name => exact ⟨trivial, hsigns⟩
  | entry label isAscii word cost =>
      refine ⟨trivial, hsigns.trans ?_⟩
      simp only [StatementForm.tokens, List.map_cons, CostForm.map_sign_tokens]
      rfl
  | clause lhs isAscii left right cost =>
      refine ⟨⟨lhs.formed_predicate, left.formed_predicate, ?_⟩, hsigns.trans ?_⟩
      · intro p hp
        obtain ⟨right, -, rfl⟩ := Option.map_eq_some_iff.mp hp
        exact right.formed_predicate
      · simp only [StatementForm.tokens, List.map_append, List.map_cons,
          PredicateForm.map_sign_tokens, CostForm.map_sign_tokens]
        cases right with
        | none => simp [StatementForm.line, Line.signs, Line.childSigns, Token.sign, Token.kind]
        | some right =>
            simp [StatementForm.line, Line.signs, Line.childSigns, Token.sign, Token.kind,
              PredicateForm.map_sign_tokens]

/-- The lexemes of a statement make up its line. -/
theorem ofLexemes?_tokens {s : StatementForm α} (h : List.Forall₂ Spells xs s.tokens) :
    Line.ofLexemes? xs = some s.line :=
  Line.ofLexemes?_eq_some_iff.mpr (renders_line h)

end Lines

/-! From lines to statements. -/

variable [Cost α]

theorem readCost_text (cost : Option (CostForm α)) :
    readCost (cost.map (·.text)) = .ok ((cost.map (·.value)).getD Cost.zero) := by
  cases cost with
  | none => rfl
  | some c =>
      have hreads : CostLiteral.ofLiteral? (.read c.text.toString.toList) = some c.value := by
        rw [CostForm.text, Text.toString_map_char, String.toList_ofList, c.reads]
      simp [readCost, hreads]

theorem statement_line (s : StatementForm α) : s.line.statement = .ok s.statement := by
  cases s with
  | start name => rfl
  | entry label isAscii word cost =>
      simp only [StatementForm.line, Line.statement, word.reads, readCost_text]
      rfl
  | clause lhs isAscii left right cost =>
      simp only [StatementForm.line, Line.statement, readCost_text]
      rfl

end Discontinuous.Script
