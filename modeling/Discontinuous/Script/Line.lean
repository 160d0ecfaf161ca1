import Discontinuous.Script.Lexeme

/-!
Lines of grammar scripts. A line is a directive, a lexical entry or a clause:

    %start ROOT
    NN -> "Haus" @ 0.7
    VP(X, Y Z) -> V(X, Z) N(Y) @ 1.2

-/
namespace Discontinuous.Script

/-- A label with its arguments, each a list of variables. -/
structure Predicate where
  label : String
  args : List (List String)
deriving DecidableEq

/-- A line as it is written. Words and costs are not read yet. -/
inductive Line where
  | directive (name argument : String)
  | entry (label : String) (word : Text) (cost : Option Text)
  | clause (lhs left : Predicate) (right : Option Predicate) (cost : Option Text)
deriving DecidableEq

def Lexeme.name (x : Lexeme) : String := x.text.toString

namespace Predicate

/-- The arguments up to the closing parenthesis, given the variables of the one that is open. -/
def args? (arg : List String) : List Lexeme → Option (List (List String) × List Lexeme)
  | [] => none
  | x :: rest =>
    match x.kind with
    | .ident => args? (arg ++ [x.name]) rest
    | .comma =>
      if arg.isEmpty then none else (args? [] rest).map fun (args, rest) => (arg :: args, rest)
    | .closeParen => if arg.isEmpty then none else some ([arg], rest)
    | _ => none

/-- The predicate at the front, and what follows it. -/
def read? : List Lexeme → Option (Predicate × List Lexeme)
  | x :: y :: rest =>
    match x.kind, y.kind with
    | .ident, .openParen => (args? [] rest).map fun (args, rest) => (⟨x.name, args⟩, rest)
    | _, _ => none
  | _ => none

end Predicate

namespace Line

/-- The cost at the end of a line, which may be missing. -/
def cost? : List Lexeme → Option (Option Text)
  | [] => some none
  | [x, y] =>
    match x.kind, y.kind with
    | .atSign, .number => some (some y.text)
    | _, _ => none
  | _ => none

def directive? : List Lexeme → Option Line
  | [x, y, z] =>
    match x.kind, y.kind, z.kind with
    | .percent, .ident, .ident => some (directive y.name z.name)
    | _, _, _ => none
  | _ => none

def entry? : List Lexeme → Option Line
  | x :: y :: z :: rest =>
    match x.kind, y.kind, z.kind with
    | .ident, .arrow, .string => (cost? rest).map (entry x.name z.text)
    | _, _, _ => none
  | _ => none

def children? (xs : List Lexeme) : Option (Predicate × Option Predicate × Option Text) :=
  match Predicate.read? xs with
  | none => none
  | some (left, rest) =>
    match Predicate.read? rest with
    | none => (cost? rest).map (left, none, ·)
    | some (right, rest) => (cost? rest).map (left, some right, ·)

def clause? (xs : List Lexeme) : Option Line :=
  match Predicate.read? xs with
  | some (lhs, x :: rest) =>
    match x.kind with
    | .arrow => (children? rest).map fun (left, right, cost) => clause lhs left right cost
    | _ => none
  | _ => none

/-- The line that the lexemes make up, if they do. -/
def ofLexemes? (xs : List Lexeme) : Option Line :=
  match directive? xs with
  | some line => some line
  | none =>
    match entry? xs with
    | some line => some line
    | none => clause? xs

end Line

end Discontinuous.Script
