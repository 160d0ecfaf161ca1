import Discontinuous.Script.Statement

/-!
Walking over the lexemes of a line that has been recognized. A walker takes one lexeme after the
other and builds the statement from them. It does not look at what it expects anyway.
-/
namespace Discontinuous.Script

/-- The lexemes of a line, and the place of the one at hand. -/
structure Walker where
  lexemes : Array Lexeme
  place : Nat

namespace Walker

variable {α : Type} [Cost α] [CostLiteral α]

/-- The lexeme at hand. Past the last one there is none. -/
def peek (w : Walker) : Option Lexeme := w.lexemes[w.place]?

def kind? (w : Walker) : Option LexemeKind := w.peek.map (·.kind)

/-- The text at hand, which is empty past the last lexeme. -/
def text (w : Walker) : Text := (w.peek.map (·.text)).getD []

def name (w : Walker) : String := w.text.toString

/-- Takes the lexeme at hand. -/
def next (w : Walker) : Walker := { w with place := w.place + 1 }

theorem place_lt_of_peek {w : Walker} {x : Lexeme} (h : w.peek = some x) :
    w.place < w.lexemes.size :=
  (Array.getElem?_eq_some_iff.mp h).1

def directive (w : Walker) : Except LineError (Statement α × Walker) :=
  let w := w.next
  let name := w.name
  let w := w.next
  let argument := w.name
  let w := w.next
  if name = "start" then .ok (.start argument, w) else .error (.unknownDirective name)

/-- The arguments up to the closing parenthesis, given those that are complete and the variables of
the one that is open. -/
def args (w : Walker) (done : List (List String)) (arg : List String) :
    Except Astray (List (List String) × Walker) :=
  match _h : w.peek with
  | none => .error .endless
  | some x =>
    match x.kind with
    | .closeParen => .ok (done ++ [arg], w.next)
    | .comma => args w.next (done ++ [arg]) []
    | _ => args w.next done (arg ++ [x.name])
termination_by w.lexemes.size - w.place
decreasing_by
  all_goals
    have hlt := place_lt_of_peek _h
    simp only [next]
    omega

theorem ahead_of_args {w w' : Walker} {done args : List (List String)} {arg : List String}
    (h : w.args done arg = .ok (args, w')) : w'.lexemes = w.lexemes ∧ w.place < w'.place := by
  fun_induction Walker.args w done arg with
  | case1 => cases h
  | case2 w done arg x hx hkind =>
    cases h
    exact ⟨rfl, Nat.lt_succ_self _⟩
  | case3 w done arg x hx hkind ih =>
    obtain ⟨hsame, hlt⟩ := ih h
    exact ⟨hsame, Nat.lt_of_succ_lt hlt⟩
  | case4 w done arg x hx hclose hcomma ih =>
    obtain ⟨hsame, hlt⟩ := ih h
    exact ⟨hsame, Nat.lt_of_succ_lt hlt⟩

def predicate (w : Walker) : Except Astray (Predicate × Walker) :=
  match w.next.next.args [] [] with
  | .error e => .error e
  | .ok (args, w') => .ok (⟨w.name, args⟩, w')

theorem ahead_of_predicate {w w' : Walker} {p : Predicate} (h : w.predicate = .ok (p, w')) :
    w'.lexemes = w.lexemes ∧ w.place < w'.place := by
  unfold predicate at h
  split at h
  · cases h
  next args w'' hargs =>
    cases h
    obtain ⟨hsame, hlt⟩ := ahead_of_args hargs
    exact ⟨hsame, Nat.lt_of_succ_lt (Nat.lt_of_succ_lt hlt)⟩

/-- The predicates that follow one another. -/
def predicates (w : Walker) : Except Astray (List Predicate × Walker) :=
  match _h : w.peek with
  | none => .ok ([], w)
  | some x =>
    if x.kind = .ident then
      match _hp : w.predicate with
      | .error e => .error e
      | .ok (p, w') =>
        match predicates w' with
        | .error e => .error e
        | .ok (ps, w'') => .ok (p :: ps, w'')
    else .ok ([], w)
termination_by w.lexemes.size - w.place
decreasing_by
  have hlt := place_lt_of_peek _h
  obtain ⟨hsame, hahead⟩ := ahead_of_predicate _hp
  rw [hsame]
  omega

def cost (w : Walker) : Except LineError (α × Walker) :=
  if w.kind? = some .atSign then
    let w := w.next
    (readCost (some w.text)).map (·, w.next)
  else (readCost none).map (·, w)

def entry (w : Walker) : Except LineError (Statement α × Walker) :=
  let label := w.name
  let w := w.next.next
  match Text.unquote? w.text with
  | none => .error .badWord
  | some word => w.next.cost.map fun (cost, w) => (.entry label word cost, w)

def clause (w : Walker) : Except LineError (Statement α × Walker) :=
  match w.predicate with
  | .error e => .error (.astray e)
  | .ok (lhs, w) =>
    match w.next.predicates with
    | .error e => .error (.astray e)
    | .ok (children, w) =>
      match (w.cost : Except LineError (α × Walker)) with
      | .error e => .error e
      | .ok (cost, w) => (Statement.ofChildren lhs children cost).map (·, w)

/-- An entry or a clause, by the second lexeme. -/
def statement (w : Walker) : Except LineError (Statement α × Walker) :=
  match w.lexemes[1]? with
  | none => .error (.astray (.outOfRange 1 w.lexemes.size))
  | some x => if x.kind = .arrow then w.entry else w.clause

def line (w : Walker) : Except LineError (Statement α × Walker) :=
  if w.kind? = some .percent then w.directive else w.statement

end Walker

/-- Walks over the lexemes of a line, up to where its statement ends. -/
def walk {α : Type} [Cost α] [CostLiteral α] (xs : List Lexeme) :
    Except LineError (Statement α × Walker) :=
  (⟨xs.toArray, 0⟩ : Walker).line

end Discontinuous.Script
