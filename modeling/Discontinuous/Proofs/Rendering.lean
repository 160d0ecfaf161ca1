import Discontinuous.Script.Line
import Mathlib

/-!
How lines are written. Lines are the syntax trees of the notation: what is recognized is what they
are written with, and the line that is read is the only one that is written with the lexemes.
-/
namespace Discontinuous.Script

/-- What a lexeme stands for. The text of an arrow or a parenthesis does not matter. -/
inductive Sign where
  | ident (name : String)
  | number (text : Text)
  | string (text : Text)
  | mark (kind : LexemeKind)

/-- Arrows and punctuation. -/
def LexemeKind.isMark : LexemeKind → Bool
  | ident | number | string => false
  | _ => true

def Lexeme.sign (x : Lexeme) : Sign :=
  match x.kind with
  | .ident => .ident x.name
  | .number => .number x.text
  | .string => .string x.text
  | kind => .mark kind

namespace Lexeme

variable {x : Lexeme}

theorem sign_eq_ident {name : String} : x.sign = .ident name ↔ x.kind = .ident ∧ x.name = name := by
  cases h : x.kind <;> simp [sign, h]

theorem sign_eq_number {text : Text} :
    x.sign = .number text ↔ x.kind = .number ∧ x.text = text := by
  cases h : x.kind <;> simp [sign, h]

theorem sign_eq_string {text : Text} :
    x.sign = .string text ↔ x.kind = .string ∧ x.text = text := by
  cases h : x.kind <;> simp [sign, h]

theorem sign_eq_mark {kind : LexemeKind} (hkind : kind.isMark = true) :
    x.sign = .mark kind ↔ x.kind = kind := by
  cases h : x.kind <;> cases kind <;> simp_all [sign, LexemeKind.isMark]

end Lexeme

/-! How syntax trees are written. -/

namespace Predicate

/-- Arguments with commas between them. -/
def argSigns (args : List (List String)) : List Sign :=
  [Sign.mark .comma].intercalate (args.map (List.map .ident))

def signs (p : Predicate) : List Sign :=
  .ident p.label :: .mark .openParen :: (argSigns p.args ++ [.mark .closeParen])

/-- There are arguments, and none of them is empty. -/
structure Formed (p : Predicate) : Prop where
  some_args : p.args ≠ []
  some_variables : ∀ arg ∈ p.args, arg ≠ []

theorem argSigns_singleton (arg : List String) : argSigns [arg] = arg.map .ident := by
  simp [argSigns, List.intercalate]

theorem argSigns_cons_cons (arg next : List String) (args : List (List String)) :
    argSigns (arg :: next :: args) = arg.map .ident ++ .mark .comma :: argSigns (next :: args) := by
  simp [argSigns, List.intercalate_cons_cons]

theorem argSigns_cons (name : String) (arg : List String) (args : List (List String)) :
    argSigns ((name :: arg) :: args) = .ident name :: argSigns (arg :: args) := by
  cases args with
  | nil => rw [argSigns_singleton, argSigns_singleton, List.map_cons]
  | cons next args => rw [argSigns_cons_cons, argSigns_cons_cons, List.map_cons, List.cons_append]

theorem argSigns_concat {args : List (List String)} (h : args ≠ []) (arg : List String) :
    argSigns (args ++ [arg]) = argSigns args ++ .mark .comma :: arg.map .ident := by
  induction args with
  | nil => exact absurd rfl h
  | cons first args ih =>
      cases args with
      | nil =>
          rw [List.singleton_append, argSigns_cons_cons, argSigns_singleton, argSigns_singleton]
      | cons second args =>
          have hrest := ih (List.cons_ne_nil _ _)
          rw [List.cons_append] at hrest
          rw [List.cons_append, List.cons_append, argSigns_cons_cons, hrest, argSigns_cons_cons]
          simp

end Predicate

namespace Line

def costSigns : Option Text → List Sign
  | none => []
  | some literal => [.mark .atSign, .number literal]

def childSigns (left : Predicate) (right : Option Predicate) : List Sign :=
  left.signs ++ (right.map Predicate.signs).getD []

def signs : Line → List Sign
  | directive name argument => [.mark .percent, .ident name, .ident argument]
  | entry label word cost => .ident label :: .mark .arrow :: .string word :: costSigns cost
  | clause lhs left right cost =>
    lhs.signs ++ .mark .arrow :: (childSigns left right ++ costSigns cost)

def Formed : Line → Prop
  | directive _ _ => True
  | entry _ _ _ => True
  | clause lhs left right _ => lhs.Formed ∧ left.Formed ∧ ∀ p ∈ right, p.Formed

/-- The lexemes are those that the syntax tree is written with. -/
structure Renders (line : Line) (xs : List Lexeme) : Prop where
  formed : line.Formed
  signs : xs.map Lexeme.sign = line.signs

end Line

/-! What is recognized. -/

section Recognition

variable {xs rest : List Lexeme} {more : List Sign}

namespace Predicate

/-- What is read as arguments is written as them. -/
theorem signs_of_args? {arg : List String} {args : List (List String)}
    (h : args? arg xs = some (args, rest)) :
    ∃ vars others, args = (arg ++ vars) :: others ∧ (∀ a ∈ args, a ≠ []) ∧
      xs.map Lexeme.sign =
        argSigns (vars :: others) ++ .mark .closeParen :: rest.map Lexeme.sign := by
  fun_induction args? arg xs generalizing args with
  | case1 => cases h
  | case2 arg x xs hkind ih =>
      obtain ⟨vars, others, rfl, hsome, hsigns⟩ := ih h
      refine ⟨x.name :: vars, others, by simp, by simpa using hsome, ?_⟩
      rw [List.map_cons, hsigns, argSigns_cons, Lexeme.sign_eq_ident.mpr ⟨hkind, rfl⟩]
      rfl
  | case3 => cases h
  | case4 arg x xs hkind hne ih =>
      obtain ⟨⟨args', rest'⟩, hargs, heq⟩ := Option.map_eq_some_iff.mp h
      cases heq
      obtain ⟨vars, others, rfl, hsome, hsigns⟩ := ih hargs
      refine ⟨[], vars :: others, by simp, ?_, ?_⟩
      · intro a ha
        rcases List.mem_cons.mp ha with rfl | ha
        · simpa using hne
        · exact hsome a ha
      · rw [List.map_cons, hsigns, argSigns_cons_cons, (Lexeme.sign_eq_mark rfl).mpr hkind]
        rfl
  | case5 => cases h
  | case6 arg x xs hkind hne =>
      cases h
      refine ⟨[], [], by simp, by simpa using hne, ?_⟩
      rw [List.map_cons, (Lexeme.sign_eq_mark rfl).mpr hkind]
      rfl
  | case7 => cases h

/-- Variables go on with the argument that is open. -/
theorem args?_idents {vars : List String} (arg : List String)
    (h : xs.map Lexeme.sign = vars.map .ident ++ more) :
    ∃ rest, args? arg xs = args? (arg ++ vars) rest ∧ rest.map Lexeme.sign = more := by
  induction vars generalizing arg xs with
  | nil => exact ⟨xs, by simp, h⟩
  | cons name vars ih =>
      obtain ⟨x, ys, rfl, hx, hys⟩ := List.map_eq_cons_iff.mp h
      obtain ⟨hkind, rfl⟩ := Lexeme.sign_eq_ident.mp hx
      obtain ⟨rest, heq, hrest⟩ := ih (arg ++ [x.name]) hys
      refine ⟨rest, ?_, hrest⟩
      rw [args?, hkind]
      simp [heq]

/-- What is written as arguments is read as them. -/
theorem args?_of_signs {arg : List String} {others : List (List String)}
    (hsome : ∀ a ∈ arg :: others, a ≠ [])
    (h : xs.map Lexeme.sign = argSigns (arg :: others) ++ .mark .closeParen :: more) :
    ∃ rest, args? [] xs = some (arg :: others, rest) ∧ rest.map Lexeme.sign = more := by
  have hne : arg.isEmpty = false := by simpa using hsome arg List.mem_cons_self
  induction others generalizing arg xs with
  | nil =>
      rw [argSigns_singleton] at h
      obtain ⟨ys, heq, hys⟩ := args?_idents [] h
      obtain ⟨x, rest, rfl, hx, hrest⟩ := List.map_eq_cons_iff.mp hys
      refine ⟨rest, ?_, hrest⟩
      rw [heq, args?, (Lexeme.sign_eq_mark rfl).mp hx]
      simp [hne]
  | cons next others ih =>
      rw [argSigns_cons_cons, List.append_assoc] at h
      obtain ⟨ys, heq, hys⟩ := args?_idents [] h
      obtain ⟨x, zs, rfl, hx, hzs⟩ := List.map_eq_cons_iff.mp hys
      have hsome' := fun a ha => hsome a (List.mem_cons_of_mem _ ha)
      obtain ⟨rest, hargs, hrest⟩ := ih hsome' hzs (by simpa using hsome' next List.mem_cons_self)
      refine ⟨rest, ?_, hrest⟩
      rw [heq, args?, (Lexeme.sign_eq_mark rfl).mp hx]
      simp [hne, hargs]

theorem signs_of_read? {p : Predicate} (h : read? xs = some (p, rest)) :
    p.Formed ∧ xs.map Lexeme.sign = p.signs ++ rest.map Lexeme.sign := by
  unfold read? at h
  split at h
  next x y ys =>
    split at h
    next hx hy =>
      obtain ⟨⟨args, rest'⟩, hargs, heq⟩ := Option.map_eq_some_iff.mp h
      cases heq
      obtain ⟨vars, others, rfl, hsome, hsigns⟩ := signs_of_args? hargs
      refine ⟨⟨List.cons_ne_nil _ _, hsome⟩, ?_⟩
      rw [List.map_cons, List.map_cons, hsigns, Lexeme.sign_eq_ident.mpr ⟨hx, rfl⟩,
        (Lexeme.sign_eq_mark rfl).mpr hy]
      simp [signs]
    next => cases h
  next => cases h

theorem read?_of_signs {p : Predicate} (hp : p.Formed)
    (h : xs.map Lexeme.sign = p.signs ++ more) :
    ∃ rest, read? xs = some (p, rest) ∧ rest.map Lexeme.sign = more := by
  obtain ⟨label, args⟩ := p
  obtain ⟨arg, others, rfl⟩ := List.exists_cons_of_ne_nil hp.some_args
  obtain ⟨x, ys, rfl, hx, hys⟩ := List.map_eq_cons_iff.mp h
  obtain ⟨y, zs, rfl, hy, hzs⟩ := List.map_eq_cons_iff.mp hys
  obtain ⟨hkind, rfl⟩ := Lexeme.sign_eq_ident.mp hx
  obtain ⟨rest, hargs, hrest⟩ := args?_of_signs hp.some_variables (by simpa using hzs)
  refine ⟨rest, ?_, hrest⟩
  rw [read?, hkind, (Lexeme.sign_eq_mark rfl).mp hy]
  simp [hargs]

end Predicate

namespace Line

theorem cost?_eq_some_iff {cost : Option Text} :
    cost? xs = some cost ↔ xs.map Lexeme.sign = costSigns cost := by
  constructor
  · intro h
    unfold cost? at h
    split at h
    · cases h
      rfl
    next x y =>
      split at h
      next hx hy =>
        cases h
        simp only [List.map_cons, List.map_nil]
        rw [(Lexeme.sign_eq_mark rfl).mpr hx, Lexeme.sign_eq_number.mpr ⟨hy, rfl⟩]
        rfl
      next => cases h
    next => cases h
  · intro h
    cases cost with
    | none =>
        obtain rfl := List.map_eq_nil_iff.mp h
        rfl
    | some literal =>
        obtain ⟨x, ys, rfl, hx, hys⟩ := List.map_eq_cons_iff.mp h
        obtain ⟨y, zs, rfl, hy, hzs⟩ := List.map_eq_cons_iff.mp hys
        obtain rfl := List.map_eq_nil_iff.mp hzs
        obtain ⟨hkind, rfl⟩ := Lexeme.sign_eq_number.mp hy
        rw [cost?, (Lexeme.sign_eq_mark rfl).mp hx, hkind]

/-- No predicate stands where a cost does. -/
theorem read?_of_costSigns {cost : Option Text} (h : xs.map Lexeme.sign = costSigns cost) :
    Predicate.read? xs = none := by
  cases cost with
  | none =>
      obtain rfl := List.map_eq_nil_iff.mp h
      rfl
  | some literal =>
      obtain ⟨x, ys, rfl, hx, hys⟩ := List.map_eq_cons_iff.mp h
      obtain ⟨y, zs, rfl, hy, hzs⟩ := List.map_eq_cons_iff.mp hys
      rw [Predicate.read?, (Lexeme.sign_eq_mark rfl).mp hx]

theorem directive?_eq_some_iff {line : Line} : directive? xs = some line ↔
    ∃ name argument, line = directive name argument ∧
      xs.map Lexeme.sign = [.mark .percent, .ident name, .ident argument] := by
  constructor
  · intro h
    unfold directive? at h
    split at h
    next x y z =>
      split at h
      next hx hy hz =>
        cases h
        refine ⟨_, _, rfl, ?_⟩
        simp only [List.map_cons, List.map_nil]
        rw [(Lexeme.sign_eq_mark rfl).mpr hx, Lexeme.sign_eq_ident.mpr ⟨hy, rfl⟩,
          Lexeme.sign_eq_ident.mpr ⟨hz, rfl⟩]
      next => cases h
    next => cases h
  · rintro ⟨name, argument, rfl, h⟩
    obtain ⟨x, ys, rfl, hx, hys⟩ := List.map_eq_cons_iff.mp h
    obtain ⟨y, zs, rfl, hy, hzs⟩ := List.map_eq_cons_iff.mp hys
    obtain ⟨z, rest, rfl, hz, hrest⟩ := List.map_eq_cons_iff.mp hzs
    obtain rfl := List.map_eq_nil_iff.mp hrest
    obtain ⟨hykind, rfl⟩ := Lexeme.sign_eq_ident.mp hy
    obtain ⟨hzkind, rfl⟩ := Lexeme.sign_eq_ident.mp hz
    rw [directive?, (Lexeme.sign_eq_mark rfl).mp hx, hykind, hzkind]

theorem entry?_eq_some_iff {line : Line} : entry? xs = some line ↔
    ∃ label word cost, line = entry label word cost ∧
      xs.map Lexeme.sign = .ident label :: .mark .arrow :: .string word :: costSigns cost := by
  constructor
  · intro h
    unfold entry? at h
    split at h
    next x y z rest =>
      split at h
      next hx hy hz =>
        obtain ⟨cost, hcost, rfl⟩ := Option.map_eq_some_iff.mp h
        refine ⟨_, _, _, rfl, ?_⟩
        simp only [List.map_cons]
        rw [Lexeme.sign_eq_ident.mpr ⟨hx, rfl⟩, (Lexeme.sign_eq_mark rfl).mpr hy,
          Lexeme.sign_eq_string.mpr ⟨hz, rfl⟩, cost?_eq_some_iff.mp hcost]
      next => cases h
    next => cases h
  · rintro ⟨label, word, cost, rfl, h⟩
    obtain ⟨x, ys, rfl, hx, hys⟩ := List.map_eq_cons_iff.mp h
    obtain ⟨y, zs, rfl, hy, hzs⟩ := List.map_eq_cons_iff.mp hys
    obtain ⟨z, rest, rfl, hz, hrest⟩ := List.map_eq_cons_iff.mp hzs
    obtain ⟨hxkind, rfl⟩ := Lexeme.sign_eq_ident.mp hx
    obtain ⟨hzkind, rfl⟩ := Lexeme.sign_eq_string.mp hz
    rw [Line.entry?, hxkind, (Lexeme.sign_eq_mark rfl).mp hy, hzkind, cost?_eq_some_iff.mpr hrest]
    rfl

theorem children?_eq_some_iff {left : Predicate} {right : Option Predicate} {cost : Option Text} :
    children? xs = some (left, right, cost) ↔ left.Formed ∧ (∀ p ∈ right, p.Formed) ∧
      xs.map Lexeme.sign = childSigns left right ++ costSigns cost := by
  constructor
  · intro h
    unfold children? at h
    split at h
    · cases h
    next left' rest hleft =>
      obtain ⟨hformed, hsigns⟩ := Predicate.signs_of_read? hleft
      split at h
      · obtain ⟨cost, hcost, heq⟩ := Option.map_eq_some_iff.mp h
        cases heq
        refine ⟨hformed, by simp, ?_⟩
        rw [hsigns, cost?_eq_some_iff.mp hcost]
        simp [childSigns]
      next right' rest' hright =>
        obtain ⟨hformed', hsigns'⟩ := Predicate.signs_of_read? hright
        obtain ⟨cost, hcost, heq⟩ := Option.map_eq_some_iff.mp h
        cases heq
        refine ⟨hformed, by simpa using hformed', ?_⟩
        rw [hsigns, hsigns', cost?_eq_some_iff.mp hcost]
        simp [childSigns]
  · rintro ⟨hleft, hright, h⟩
    rw [childSigns, List.append_assoc] at h
    obtain ⟨rest, hread, hrest⟩ := Predicate.read?_of_signs hleft h
    rw [children?, hread]
    cases right with
    | none =>
        have hcost : rest.map Lexeme.sign = costSigns cost := hrest
        simp only [read?_of_costSigns hcost, cost?_eq_some_iff.mpr hcost]
        rfl
    | some right =>
        obtain ⟨rest, hread, hcost⟩ := Predicate.read?_of_signs (hright right rfl) hrest
        simp only [hread, cost?_eq_some_iff.mpr hcost]
        rfl

theorem clause?_eq_some_iff {line : Line} : clause? xs = some line ↔
    ∃ lhs left right cost, line = clause lhs left right cost ∧ line.Renders xs := by
  constructor
  · intro h
    unfold clause? at h
    split at h
    next lhs x rest hread =>
      split at h
      next hx =>
        obtain ⟨⟨left, right, cost⟩, hchildren, rfl⟩ := Option.map_eq_some_iff.mp h
        obtain ⟨hlhs, hsigns⟩ := Predicate.signs_of_read? hread
        obtain ⟨hleft, hright, hrest⟩ := children?_eq_some_iff.mp hchildren
        refine ⟨_, _, _, _, rfl, ⟨hlhs, hleft, hright⟩, ?_⟩
        rw [hsigns, List.map_cons, hrest, (Lexeme.sign_eq_mark rfl).mpr hx]
        rfl
      next => cases h
    next => cases h
  · rintro ⟨lhs, left, right, cost, rfl, ⟨hlhs, hleft, hright⟩, h⟩
    obtain ⟨ys, hread, hys⟩ := Predicate.read?_of_signs hlhs h
    obtain ⟨x, rest, rfl, hx, hrest⟩ := List.map_eq_cons_iff.mp hys
    rw [clause?, hread]
    simp only [(Lexeme.sign_eq_mark rfl).mp hx, children?_eq_some_iff.mpr ⟨hleft, hright, hrest⟩]
    rfl

/-- A line is read from the lexemes that it is written with, and from no others. -/
theorem ofLexemes?_eq_some_iff {line : Line} : ofLexemes? xs = some line ↔ line.Renders xs := by
  constructor
  · intro h
    unfold ofLexemes? at h
    split at h
    next directive hdirective =>
      cases h
      obtain ⟨name, argument, rfl, hsigns⟩ := directive?_eq_some_iff.mp hdirective
      exact ⟨trivial, hsigns⟩
    next =>
      split at h
      next entry hentry =>
        cases h
        obtain ⟨label, word, cost, rfl, hsigns⟩ := entry?_eq_some_iff.mp hentry
        exact ⟨trivial, hsigns⟩
      next =>
        obtain ⟨lhs, left, right, cost, -, hrenders⟩ := clause?_eq_some_iff.mp h
        exact hrenders
  · intro h
    have hsigns := h.signs
    -- the first two lexemes tell which of the three it is
    have hdirective : (∀ name argument,
        line.signs ≠ [.mark .percent, .ident name, .ident argument]) → directive? xs = none := by
      intro hne
      refine Option.eq_none_iff_forall_ne_some.mpr fun line' hline => ?_
      obtain ⟨name, argument, -, heq⟩ := directive?_eq_some_iff.mp hline
      exact hne name argument (hsigns.symm.trans heq)
    have hentry : (∀ label word cost,
        line.signs ≠ .ident label :: .mark .arrow :: .string word :: costSigns cost) →
        entry? xs = none := by
      intro hne
      refine Option.eq_none_iff_forall_ne_some.mpr fun line' hline => ?_
      obtain ⟨label, word, cost, -, heq⟩ := entry?_eq_some_iff.mp hline
      exact hne label word cost (hsigns.symm.trans heq)
    cases line with
    | directive name argument =>
        rw [ofLexemes?, directive?_eq_some_iff.mpr ⟨name, argument, rfl, hsigns⟩]
    | entry label word cost =>
        rw [ofLexemes?, hdirective nofun, entry?_eq_some_iff.mpr ⟨label, word, cost, rfl, hsigns⟩]
    | clause lhs left right cost =>
        have hparen : ∀ label word cost', (clause lhs left right cost).signs ≠
            .ident label :: .mark .arrow :: .string word :: costSigns cost' := by
          intro label word cost' heq
          cases heq
        rw [ofLexemes?, hdirective nofun, hentry hparen,
          clause?_eq_some_iff.mpr ⟨lhs, left, right, cost, rfl, h⟩]

/-- No two syntax trees are written with the same lexemes. -/
theorem Renders.unique {line line' : Line} (h : line.Renders xs) (h' : line'.Renders xs) :
    line = line' :=
  Option.some.inj ((ofLexemes?_eq_some_iff.mpr h).symm.trans (ofLexemes?_eq_some_iff.mpr h'))

end Line

end Recognition

end Discontinuous.Script
