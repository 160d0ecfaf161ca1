import Discontinuous.Lexicon
import Discontinuous.Script.Walker
import Discontinuous.Text.Blank
import Discontinuous.Trace

/-!
Grammar scripts: a grammar and a lexicon, one statement a line. All lines are read before the first
is carried out, and the last start symbol counts.
-/
namespace Discontinuous

namespace Script

inductive ScriptError where
  | line (number : Nat) (e : LineError)
  | lineTooLong

def ScriptError.message : ScriptError → String
  | line number e => "line " ++ toString number ++ ": " ++ e.message
  | lineTooLong => "cannot read grammar: bufio.Scanner: token too long"

variable {α : Type} [Composer]

/-- The line of the lexemes, or why there is none. -/
def Line.ofLexemes (xs : List Lexeme) : Except LineError Line :=
  match Line.ofLexemes? xs, xs.getLast? with
  | some line, _ => .ok line
  | none, some last => .error (.malformed last)
  | none, none => .error .incomplete

/-- What a line says, after blanks around it are dropped. An empty line and a comment say
nothing. Every other line is recognized before it is walked over. -/
def readLine [Cost α] [CostLiteral α] (bytes : List UInt8) :
    Except LineError (Option (Statement α)) :=
  match (Text.trim (Text.ofBytes bytes)).bytes with
  | [] => .ok none
  | 0x23 :: _ => .ok none
  | bytes =>
    match lexemes bytes with
    | .error e => .error (.unreadable e)
    | .ok xs => (Line.ofLexemes xs).bind fun _ => (walk xs).map fun (statement, _) => some statement

/-- Cuts a text after every line feed. The last line need not have one. -/
def splitLines (bytes : List UInt8) : List (List UInt8) :=
  bytes.foldr (fun b lines =>
    if b = 0x0A then [] :: lines
    else match lines with
    | [] => [[b]]
    | line :: lines => (b :: line) :: lines) []

def lineLimit : Nat := 65536

def dropReturn (line : List UInt8) : List UInt8 :=
  if line.getLast? = some 0x0D then line.dropLast else line

/-- The statements of lines, with the numbers of their lines, from number `n` on. -/
def readLines [Cost α] [CostLiteral α] (n : Nat) :
    List (List UInt8) → Except ScriptError (List (Nat × Statement α))
  | [] => .ok []
  | line :: rest =>
    if lineLimit ≤ line.length then .error .lineTooLong
    else match readLine (dropReturn line) with
    | .error e => .error (.line n e)
    | .ok none => readLines (n + 1) rest
    | .ok (some statement) => (readLines (n + 1) rest).map ((n, statement) :: ·)

def defaultStart : String := "S"

/-- The start symbol that is named last. -/
def startOf (statements : List (Nat × Statement α)) : String :=
  statements.foldl (fun start (_, statement) =>
    match statement with
    | .start name => name
    | _ => start) defaultStart

/-- A grammar and a lexicon in the making, and what has been told. -/
structure Draft (α : Type) where
  grammar : Grammar α
  lexicon : Lexicon α
  log : List (Event α)

def additionEvents (g : Grammar α) (lhs left : String) (right : Option String) :
    Except GrammarError (Grammar.Addition α) → List (Event α)
  | .ok addition => if addition.isNew then [.clauseAdded (g.named addition.clause)] else []
  | .error (.badShape _ e) => [.clauseRefused lhs left (right.getD "") e]
  | .error _ => []

/-- Adds a clause, and tells of it. -/
def addClause [Cost α] (g : Grammar α) (lhs left : String) (right : Option String) (y : Yield)
    (cost : α) : Grammar α × List (Event α) × Except GrammarError (Grammar.Addition α) :=
  let (g, result) := g.addClause lhs left right y cost
  (g, additionEvents g lhs left right result, result)

def Draft.carryOut [Cost α] (d : Draft α) : Statement α → Draft α × Option LineError
  | .start _ => (d, none)
  | .entry label word cost =>
    let (lexicon, grammar, result) := d.lexicon.add d.grammar word label cost
    let d := { d with lexicon, grammar }
    match result with
    | .ok () => (d, none)
    | .error e => (d, some (.grammar e))
  | .clause lhs left right cost =>
    match yieldOf lhs left right with
    | .error e => (d, some (.binding e))
    | .ok y =>
      let (grammar, events, result) :=
        addClause d.grammar lhs.label left.label (right.map (·.label)) y cost
      let d := { d with grammar, log := d.log ++ events }
      match result with
      | .ok _ => (d, none)
      | .error e => (d, some (.grammar e))

/-- Carries out statements in order, up to the first that is refused. -/
def Draft.carryOutAll [Cost α] (d : Draft α) :
    List (Nat × Statement α) → Draft α × Option ScriptError
  | [] => (d, none)
  | (n, statement) :: rest =>
    match d.carryOut statement with
    | (d, some e) => (d, some (.line n e))
    | (d, none) => carryOutAll d rest

/-- The grammar and the lexicon of a script, with what is told on the way. -/
def document [Cost α] [CostLiteral α] (bytes : List UInt8) :
    List (Event α) × Except ScriptError (Grammar α × Lexicon α) :=
  match readLines 1 (splitLines bytes) with
  | .error e => ([], .error e)
  | .ok statements =>
    match Draft.carryOutAll ⟨.new (startOf statements), .empty, []⟩ statements with
    | (d, some e) => (d.log, .error e)
    | (⟨g, lex, log⟩, none) =>
      (log ++ [.scriptRead g.clauses.size lex.size g.summary], .ok (g, lex))

end Script

end Discontinuous
