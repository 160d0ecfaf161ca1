import Discontinuous.Proofs.Phrase
import Discontinuous.Script.Walker

/-!
Walking over lines. A walker does not check what it takes, but over the lexemes of a sentence of the
notation it keeps to the syntax tree that is written with them: it takes every lexeme once, and its
statement is what the tree says.
-/
namespace Discontinuous.Script

namespace Walker

variable {w : Walker} {x : Lexeme} {done args : List (List String)} {arg : List String}

/-! The loop over arguments. -/

/-- The arguments that the loop has come to after so many turns, if it has come to an end. Past the
last lexeme it takes lexemes without a text, and goes on. -/
def argsWithin : Nat → Walker → List (List String) → List String →
    Option (List (List String) × Walker)
  | 0, _, _, _ => none
  | n + 1, w, done, arg =>
    match w.kind? with
    | some .closeParen => some (done ++ [arg], w.next)
    | some .comma => argsWithin n w.next (done ++ [arg]) []
    | _ => argsWithin n w.next done (arg ++ [w.name])

theorem args_of_peek (h : w.peek = some x) : w.args done arg =
    match x.kind with
    | .closeParen => .ok (done ++ [arg], w.next)
    | .comma => w.next.args (done ++ [arg]) []
    | _ => w.next.args done (arg ++ [x.name]) := by
  rw [Walker.args]
  split
  next hnone => cases h.symm.trans hnone
  next y hy =>
    cases h.symm.trans hy
    rfl

theorem argsWithin_of_size_le (h : w.lexemes.size ≤ w.place) (n : Nat) :
    argsWithin n w done arg = none := by
  induction n generalizing w arg with
  | zero => rfl
  | succ n ih =>
      have hkind : w.kind? = none := by
        rw [kind?, peek, Array.getElem?_eq_none h]
        rfl
      rw [argsWithin, hkind]
      exact ih (Nat.le_succ_of_le h)

theorem exists_argsWithin_iff {f : Nat → Option (List (List String) × Walker)}
    {r : List (List String) × Walker} (h : ∀ n, argsWithin (n + 1) w done arg = f n) :
    (∃ n, argsWithin n w done arg = some r) ↔ ∃ n, f n = some r := by
  constructor
  · rintro ⟨n, hn⟩
    cases n with
    | zero => cases hn
    | succ n => exact ⟨n, (h n).symm.trans hn⟩
  · rintro ⟨n, hn⟩
    exact ⟨n + 1, (h n).trans hn⟩

/-- The walker has those arguments that the loop comes to an end with. -/
theorem args_eq_ok_iff (r : List (List String) × Walker) :
    w.args done arg = .ok r ↔ ∃ n, argsWithin n w done arg = some r := by
  fun_induction Walker.args w done arg with
  | case1 w done arg hnone =>
      have hsize : w.lexemes.size ≤ w.place := Array.getElem?_eq_none_iff.mp hnone
      simp [argsWithin_of_size_le hsize]
  | case2 w done arg x hx hkind =>
      have hstep : ∀ n, argsWithin (n + 1) w done arg = some (done ++ [arg], w.next) := by
        intro n
        simp [argsWithin, kind?, hx, hkind]
      rw [exists_argsWithin_iff hstep]
      simp
  | case3 w done arg x hx hkind ih =>
      have hstep : ∀ n, argsWithin (n + 1) w done arg =
          argsWithin n w.next (done ++ [arg]) [] := by
        intro n
        simp [argsWithin, kind?, hx, hkind]
      rw [exists_argsWithin_iff hstep]
      exact ih
  | case4 w done arg x hx hclose hcomma ih =>
      have hstep : ∀ n, argsWithin (n + 1) w done arg =
          argsWithin n w.next done (arg ++ [x.name]) := by
        intro n
        cases hkind : x.kind <;> simp_all [argsWithin, kind?, name, text, Lexeme.name]
      rw [exists_argsWithin_iff hstep]
      exact ih

/-- The walker has no arguments just if the loop goes on forever. -/
theorem args_endless_iff :
    w.args done arg = .error .endless ↔ ∀ n, argsWithin n w done arg = none := by
  have hends : (∃ r, w.args done arg = .ok r) ∨ w.args done arg = .error .endless := by
    fun_induction Walker.args w done arg with
    | case1 => exact .inr rfl
    | case2 w done arg x hx hkind => exact .inl ⟨_, rfl⟩
    | case3 w done arg x hx hkind ih => exact ih
    | case4 w done arg x hx hclose hcomma ih => exact ih
  rcases hends with ⟨r, hr⟩ | hr
  · obtain ⟨n, hn⟩ := (args_eq_ok_iff r).mp hr
    refine iff_of_false (by simp [hr]) fun hnone => ?_
    cases (hnone n).symm.trans hn
  · refine iff_of_true hr fun n => ?_
    rcases hn : argsWithin n w done arg with _ | r
    · rfl
    · cases hr.symm.trans ((args_eq_ok_iff r).mpr ⟨n, hn⟩)

/-! Walking over what is recognized. -/

/-- The walker that has taken some lexemes of a line, and has the others ahead of it. -/
def between (taken ahead : List Lexeme) : Walker := ⟨(taken ++ ahead).toArray, taken.length⟩

variable {taken ahead rest xs : List Lexeme}

theorem peek_between : (between taken (x :: ahead)).peek = some x := by
  simp [between, peek]

theorem peek_between_nil : (between taken []).peek = none := by
  simp [between, peek]

theorem next_between : (between taken (x :: ahead)).next = between (taken ++ [x]) ahead := by
  simp [between, next]

theorem kind?_between : (between taken (x :: ahead)).kind? = some x.kind := by
  rw [kind?, peek_between]
  rfl

theorem text_between : (between taken (x :: ahead)).text = x.text := by
  rw [text, peek_between]
  rfl

theorem name_between : (between taken (x :: ahead)).name = x.name := by
  rw [name, text_between]
  rfl

/-- Arguments that are recognized are walked over. -/
theorem args_between (h : Predicate.args? arg xs = some (args, rest)) :
    ∃ read, xs = read ++ rest ∧ ∀ taken done,
      (between taken xs).args done arg = .ok (done ++ args, between (taken ++ read) rest) := by
  fun_induction Predicate.args? arg xs generalizing args with
  | case1 => cases h
  | case2 arg x xs hkind ih =>
      obtain ⟨read, rfl, hread⟩ := ih h
      refine ⟨x :: read, rfl, fun taken done => ?_⟩
      rw [args_of_peek peek_between, hkind, next_between]
      simp [hread]
  | case3 => cases h
  | case4 arg x xs hkind hne ih =>
      obtain ⟨⟨args', rest'⟩, hargs, heq⟩ := Option.map_eq_some_iff.mp h
      cases heq
      obtain ⟨read, rfl, hread⟩ := ih hargs
      refine ⟨x :: read, rfl, fun taken done => ?_⟩
      rw [args_of_peek peek_between, hkind, next_between]
      simp [hread]
  | case5 => cases h
  | case6 arg x xs hkind hne =>
      cases h
      refine ⟨[x], rfl, fun taken done => ?_⟩
      rw [args_of_peek peek_between, hkind, next_between]
  | case7 => cases h

theorem predicate_between {p : Predicate} (h : Predicate.read? xs = some (p, rest)) :
    ∃ read, xs = read ++ rest ∧ ∀ taken,
      (between taken xs).predicate = .ok (p, between (taken ++ read) rest) := by
  unfold Predicate.read? at h
  split at h
  next x y ys =>
    split at h
    next hx hy =>
      obtain ⟨⟨args, rest'⟩, hargs, heq⟩ := Option.map_eq_some_iff.mp h
      cases heq
      obtain ⟨read, rfl, hread⟩ := args_between hargs
      refine ⟨x :: y :: read, rfl, fun taken => ?_⟩
      rw [predicate, next_between, next_between, hread, name_between]
      simp
    next => cases h
  next => cases h

/-- Where no identifier is ahead, no predicate follows. -/
theorem predicates_of_kind? (h : w.kind? ≠ some .ident) : w.predicates = .ok ([], w) := by
  rw [predicates]
  split
  · rfl
  next x hx =>
    rw [kind?, hx] at h
    rw [if_neg (by simpa using h)]

theorem predicates_of_predicate {w' : Walker} {p : Predicate} (h : w.kind? = some .ident)
    (hp : w.predicate = .ok (p, w')) :
    w.predicates = (w'.predicates).map fun (ps, w'') => (p :: ps, w'') := by
  rw [predicates]
  split
  next hnone =>
    rw [kind?, hnone] at h
    cases h
  next x hx =>
    rw [kind?, hx] at h
    rw [if_pos (Option.some.inj h)]
    split
    next e he => cases hp.symm.trans he
    next p' w'' he =>
      cases hp.symm.trans he
      cases w'.predicates <;> rfl

theorem kind?_of_read? {p : Predicate} (h : Predicate.read? xs = some (p, rest)) :
    (between taken xs).kind? = some .ident := by
  unfold Predicate.read? at h
  split at h
  next x y ys =>
    split at h
    next hx hy => rw [kind?_between, hx]
    next => cases h
  next => cases h

theorem kind?_of_cost? {cost : Option Text} (h : Line.cost? rest = some cost) :
    (between taken rest).kind? = cost.map fun _ => .atSign := by
  unfold Line.cost? at h
  split at h
  · cases h
    rw [kind?, peek_between_nil]
    rfl
  next x y =>
    split at h
    next hx hy =>
      cases h
      rw [kind?_between, hx]
      rfl
    next => cases h
  next => cases h

/-- The children of a clause are the predicates up to the cost. -/
theorem predicates_between {left : Predicate} {right : Option Predicate} {cost : Option Text}
    (h : Line.children? xs = some (left, right, cost)) :
    ∃ read rest, xs = read ++ rest ∧ Line.cost? rest = some cost ∧ ∀ taken,
      (between taken xs).predicates = .ok (left :: right.toList, between (taken ++ read) rest) := by
  have hlast : ∀ {rest taken}, Line.cost? rest = some cost →
      (between taken rest).predicates = .ok ([], between taken rest) := by
    intro rest taken hcost
    apply predicates_of_kind?
    rw [kind?_of_cost? hcost]
    cases cost <;> simp
  unfold Line.children? at h
  split at h
  · cases h
  next left' rest hleft =>
    obtain ⟨read, rfl, hread⟩ := predicate_between hleft
    split at h
    · obtain ⟨cost', hcost, heq⟩ := Option.map_eq_some_iff.mp h
      cases heq
      refine ⟨read, rest, rfl, hcost, fun taken => ?_⟩
      rw [predicates_of_predicate (kind?_of_read? hleft) (hread taken), hlast hcost]
      rfl
    next right' rest' hright =>
      obtain ⟨cost', hcost, heq⟩ := Option.map_eq_some_iff.mp h
      cases heq
      obtain ⟨read', rfl, hread'⟩ := predicate_between hright
      refine ⟨read ++ read', rest', by rw [List.append_assoc], hcost, fun taken => ?_⟩
      rw [predicates_of_predicate (kind?_of_read? hleft) (hread taken),
        predicates_of_predicate (kind?_of_read? hright) (hread' _), hlast hcost,
        List.append_assoc]
      rfl

variable {α : Type} [Cost α] [CostLiteral α]

/-- A cost is the last that is taken. -/
theorem cost_between {cost : Option Text} (h : Line.cost? rest = some cost) (taken : List Lexeme) :
    (between taken rest).cost =
      (readCost cost : Except LineError α).map (·, between (taken ++ rest) []) := by
  rw [Walker.cost, kind?_of_cost? h]
  unfold Line.cost? at h
  split at h
  · cases h
    rw [List.append_nil]
    rfl
  next x y =>
    split at h
    next hx hy =>
      cases h
      simp only [Option.map_some, if_true, next_between, text_between, List.append_assoc]
      rfl
    next => cases h
  next => cases h

end Walker

variable {α : Type} [Cost α] [CostLiteral α]

/-- What a syntax tree says, or why it says nothing. -/
def Line.statement : Line → Except LineError (Statement α)
  | directive name argument =>
    if name = "start" then .ok (.start argument) else .error (.unknownDirective name)
  | entry label word cost =>
    match Text.unquote? word with
    | none => .error .badWord
    | some word => (readCost cost).map (.entry label word)
  | clause lhs left right cost => (readCost cost).map (.clause lhs left right)

namespace Walker

variable {xs : List Lexeme} {line : Line}

theorem directive_between (h : Line.directive? xs = some line) :
    (between [] xs).kind? = some .percent ∧ (between [] xs).directive =
      (line.statement : Except LineError (Statement α)).map (·, between xs []) := by
  unfold Line.directive? at h
  split at h
  next x y z =>
    split at h
    next hx hy hz =>
      cases h
      refine ⟨by rw [kind?_between, hx], ?_⟩
      simp only [directive, next_between, name_between, Line.statement]
      split <;> rfl
    next => cases h
  next => cases h

theorem entry_between (h : Line.entry? xs = some line) :
    (between [] xs).kind? ≠ some .percent ∧ (between [] xs).statement =
      (line.statement : Except LineError (Statement α)).map (·, between xs []) := by
  unfold Line.entry? at h
  split at h
  next x y z rest =>
    split at h
    next hx hy hz =>
      obtain ⟨cost, hcost, rfl⟩ := Option.map_eq_some_iff.mp h
      refine ⟨by simp [kind?_between, hx], ?_⟩
      have hsecond : (between [] (x :: y :: z :: rest)).lexemes[1]? = some y := by
        simp [between]
      rw [Walker.statement, hsecond]
      simp only [hy, if_true, entry, next_between, name_between, text_between, Line.statement,
        cost_between hcost]
      cases Text.unquote? z.text with
      | none => rfl
      | some word => cases (readCost cost : Except LineError α) <;> rfl
    next => cases h
  next => cases h

theorem clause_between (h : Line.clause? xs = some line) :
    (between [] xs).kind? ≠ some .percent ∧ (between [] xs).statement =
      (line.statement : Except LineError (Statement α)).map (·, between xs []) := by
  unfold Line.clause? at h
  split at h
  next lhs x rest hlhs =>
    split at h
    next hx =>
      obtain ⟨⟨left, right, cost⟩, hchildren, rfl⟩ := Option.map_eq_some_iff.mp h
      obtain ⟨y, hsecond, hy⟩ : ∃ y, xs[1]? = some y ∧ y.kind = .openParen := by
        unfold Predicate.read? at hlhs
        split at hlhs
        next x' y ys =>
          split at hlhs
          next _ hy => exact ⟨y, rfl, hy⟩
          next => cases hlhs
        next => cases hlhs
      refine ⟨by simp [kind?_of_read? hlhs], ?_⟩
      obtain ⟨read, rfl, hread⟩ := predicate_between hlhs
      obtain ⟨read', rest', rfl, hcost, hread'⟩ := predicates_between hchildren
      have hplace : (between [] (read ++ x :: (read' ++ rest'))).lexemes[1]? = some y := by
        simpa [between] using hsecond
      rw [Walker.statement, hplace]
      simp only [hy, reduceCtorEq, if_false, clause, hread, next_between, hread',
        cost_between hcost, Line.statement]
      rcases (readCost cost : Except LineError α) with e | x
      · rfl
      · cases right <;> simp [Statement.ofChildren, Except.map]
    next => cases h
  next => cases h

/-- Over the lexemes that are recognized a walk says what their syntax tree says. -/
theorem walk_of_ofLexemes? (h : Line.ofLexemes? xs = some line) :
    walk xs = (line.statement : Except LineError (Statement α)).map (·, between xs []) := by
  change (between [] xs).line = _
  rw [Walker.line]
  unfold Line.ofLexemes? at h
  split at h
  next directive hdirective =>
    cases h
    obtain ⟨hkind, heq⟩ := directive_between (α := α) hdirective
    rw [if_pos hkind, heq]
  next =>
    split at h
    next entry hentry =>
      cases h
      obtain ⟨hkind, heq⟩ := entry_between (α := α) hentry
      rw [if_neg hkind, heq]
    next =>
      obtain ⟨hkind, heq⟩ := clause_between (α := α) h
      rw [if_neg hkind, heq]

end Walker

/-- The error is one of syntax, as its text says. -/
def LineError.OfSyntax (e : LineError) : Prop := ∃ text, e.message = text ++ ": syntax error"

namespace LineError

theorem ofSyntax_unknownDirective (name : String) : (unknownDirective name).OfSyntax :=
  ⟨"unknown directive %" ++ name, rfl⟩

theorem ofSyntax_badWord : badWord.OfSyntax := ⟨"malformed word: invalid syntax", rfl⟩

theorem ofSyntax_badCost (literal : Text) : (badCost literal).OfSyntax := by
  refine ⟨"malformed cost: strconv.ParseFloat: parsing " ++ Text.quoted literal ++
    ": value out of range", ?_⟩
  rw [String.append_assoc]
  rfl

end LineError

/-- What comes of a walk over the lexemes of a syntax tree. Either the walker has taken all lexemes
and has the statement that the tree is, or there is the one thing wrong that can be: the name of a
directive, a word that cannot be unquoted, or a cost that is out of range. -/
inductive Walked (xs : List Lexeme) : Line → Except LineError (Statement α × Walker) → Prop where
  | start {argument : String} :
      Walked xs (.directive "start" argument) (.ok (.start argument, ⟨xs.toArray, xs.length⟩))
  | unknown {name argument : String} : name ≠ "start" →
      Walked xs (.directive name argument) (.error (.unknownDirective name))
  | entry {label : String} {literal word : Text} {cost : Option Text} {x : α} :
      Text.unquote? literal = some word → readCost cost = .ok x →
      Walked xs (.entry label literal cost) (.ok (.entry label word x, ⟨xs.toArray, xs.length⟩))
  | badWord {label : String} {literal : Text} {cost : Option Text} :
      Text.unquote? literal = none → Walked xs (.entry label literal cost) (.error .badWord)
  | badEntryCost {label : String} {literal word cost : Text} : Text.unquote? literal = some word →
      (CostLiteral.ofLiteral? (.read cost.toString.toList) : Option α) = none →
      Walked xs (.entry label literal (some cost)) (.error (.badCost cost))
  | clause {lhs left : Predicate} {right : Option Predicate} {cost : Option Text} {x : α} :
      readCost cost = .ok x → Walked xs (.clause lhs left right cost)
        (.ok (.clause lhs left right x, ⟨xs.toArray, xs.length⟩))
  | badClauseCost {lhs left : Predicate} {right : Option Predicate} {cost : Text} :
      (CostLiteral.ofLiteral? (.read cost.toString.toList) : Option α) = none →
      Walked xs (.clause lhs left right (some cost)) (.error (.badCost cost))

namespace Walked

variable {xs : List Lexeme} {line : Line}

theorem ofSyntax {e : LineError}
    (h : Walked xs line (.error e : Except LineError (Statement α × Walker))) : e.OfSyntax := by
  cases h with
  | unknown _ => exact LineError.ofSyntax_unknownDirective _
  | badWord _ => exact LineError.ofSyntax_badWord
  | badEntryCost _ _ => exact LineError.ofSyntax_badCost _
  | badClauseCost _ => exact LineError.ofSyntax_badCost _

theorem readCost_cases (cost : Option Text) : (∃ x : α, readCost cost = .ok x) ∨
    ∃ literal, cost = some literal ∧
      readCost cost = (.error (.badCost literal) : Except LineError α) ∧
      (CostLiteral.ofLiteral? (.read literal.toString.toList) : Option α) = none := by
  cases cost with
  | none => exact .inl ⟨_, rfl⟩
  | some literal =>
      simp only [readCost]
      cases h : (CostLiteral.ofLiteral? (.read literal.toString.toList) : Option α) with
      | some x => exact .inl ⟨x, rfl⟩
      | none => exact .inr ⟨literal, rfl, rfl, h⟩

theorem of_statement (xs : List Lexeme) (line : Line) : Walked xs line
    ((line.statement : Except LineError (Statement α)).map (·, ⟨xs.toArray, xs.length⟩)) := by
  cases line with
  | directive name argument =>
      by_cases hname : name = "start"
      · subst hname
        exact .start
      · simp only [Line.statement]
        rw [if_neg hname]
        exact .unknown hname
  | entry label literal cost =>
      simp only [Line.statement]
      cases hword : Text.unquote? literal with
      | none => exact .badWord hword
      | some word =>
          rcases readCost_cases (α := α) cost with ⟨x, hx⟩ | ⟨literal, rfl, hbad, hnone⟩
          · simp only [hx]
            exact .entry hword hx
          · simp only [hbad]
            exact .badEntryCost hword hnone
  | clause lhs left right cost =>
      simp only [Line.statement]
      rcases readCost_cases (α := α) cost with ⟨x, hx⟩ | ⟨literal, rfl, hbad, hnone⟩
      · rw [hx]
        exact .clause hx
      · rw [hbad]
        exact .badClauseCost hnone

theorem ne_astray (e : Astray) :
    ¬ Walked xs line (.error (.astray e) : Except LineError (Statement α × Walker)) := nofun

end Walked

/-- Walking over a sentence of the notation ends, with nothing left over and nothing taken beyond
it, in what its only syntax tree says. The walker is never astray, neither in a loop without an end
nor at a place that there is not, and whatever is wrong with the tree is an error of syntax. -/
theorem walk_agrees_with_notation (xs : List Lexeme) (h : Derivable xs) :
    ∃ line : Line, line.Renders xs ∧ (∀ line' : Line, line'.Renders xs → line' = line) ∧
      Walked xs line (walk xs : Except LineError (Statement α × Walker)) ∧
      (∀ e, walk xs ≠ (.error (.astray e) : Except LineError (Statement α × Walker))) ∧
      ∀ e, walk xs = (.error e : Except LineError (Statement α × Walker)) → e.OfSyntax := by
  obtain ⟨line, hrenders⟩ := derivable_iff.mp h
  have hwalk := Walker.walk_of_ofLexemes? (α := α) (Line.ofLexemes?_eq_some_iff.mpr hrenders)
  have hwalked : Walked xs line (walk xs : Except LineError (Statement α × Walker)) := by
    rw [hwalk, Walker.between, List.append_nil]
    exact .of_statement xs line
  refine ⟨line, hrenders, fun line' h' => h'.unique hrenders, hwalked, fun e he => ?_,
    fun e he => ?_⟩
  · rw [he] at hwalked
    exact Walked.ne_astray e hwalked
  · rw [he] at hwalked
    exact hwalked.ofSyntax

/-- A clause whose first predicate has two variables in one argument. -/
def splitText : List UInt8 := (Text.ofString "VP(X, Y Z) -> V(X, Z) N(Y)").bytes

def splitClause : List Lexeme := (lexemes splitText).toOption.getD []

theorem walk_agrees_with_notation_split :
    Derivable splitClause ∧ walk (α := Float) splitClause =
      .ok (.clause ⟨"VP", [["X"], ["Y", "Z"]]⟩ ⟨"V", [["X"], ["Z"]]⟩ (some ⟨"N", [["Y"]]⟩)
        Cost.zero, ⟨splitClause.toArray, 18⟩) := by
  have hline : Line.ofLexemes? splitClause = some (.clause ⟨"VP", [["X"], ["Y", "Z"]]⟩
      ⟨"V", [["X"], ["Z"]]⟩ (some ⟨"N", [["Y"]]⟩) none) := by decide +kernel
  have hlength : splitClause.length = 18 := by decide +kernel
  have hderivable : Derivable splitClause := by
    rw [← isSome_ofLexemes?_iff, hline]
    rfl
  obtain ⟨line, hrenders, -, hwalked, -, -⟩ :=
    walk_agrees_with_notation (α := Float) splitClause hderivable
  cases (Line.ofLexemes?_eq_some_iff.mpr hrenders).symm.trans hline
  refine ⟨hderivable, ?_⟩
  generalize walk (α := Float) splitClause = result at hwalked ⊢
  cases hwalked with
  | clause hcost =>
      cases hcost
      rw [hlength]

end Discontinuous.Script
