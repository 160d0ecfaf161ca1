import Discontinuous.Lexicon
import Discontinuous.Parser.Search

/-!
Parsers. A parser searches for the cheapest derivation of one sentence at a time, and has to be
reset before the next.
-/
namespace Discontinuous

/-- A word of the input with its tag. Words that the lexicon does not know have no number. -/
structure Token where
  word : Option Nat
  tag : Label

/-- What a parser reads and never changes. -/
structure Context (α : Type) where
  grammar : Grammar α
  lexicon : Option (Lexicon α)
  heuristic : Heuristic α

structure Options where
  /-- The most pops for a sentence, or no bound if this is not positive. -/
  maxPops : Int
  /-- Whether derivations are shown without the nodes of artificial labels. -/
  debinarize : Bool

/-- Only an initialized parser takes a sentence. -/
inductive ParserState where
  | initialized
  | running
  | succeeded
  | exhausted
  | failed
deriving DecidableEq

def ParserState.name : ParserState → String
  | initialized => "initialized"
  | running => "running"
  | succeeded => "succeeded"
  | exhausted => "exhausted"
  | failed => "failed"

/-- Why there is no result. That a sentence has no derivation is a result. -/
inductive ParseError (α : Type) where
  | notReady (state : ParserState)
  | badLength (n : Nat)
  | popLimit (maxPops : Int)
  | invariant (e : InvariantError α)
  | dangling (id : Nat)

/-- The longest sentence whose positions can be told apart. -/
def maxSentence : Nat := Key.maxPosition

def ParseError.message {α : Type} [CostText α] : ParseError α → String
  | notReady state => "parser is " ++ state.name ++ ": parser not ready"
  | badLength n =>
    "length " ++ toString n ++ " not in [1…" ++ toString maxSentence ++
      "]: sentence length out of range"
  | popLimit maxPops =>
    "after " ++ toString maxPops ++ " pops: maximum number of agenda pops exceeded"
  | invariant e => e.message
  | dangling id => "no item at place " ++ toString id

structure Success (α : Type) where
  goal : Nat
  cost : α

structure Parser (α : Type) where
  options : Options
  search : Search α
  state : ParserState
  length : Int
  goal : Option Nat
  tracing : Bool

namespace Parser

variable {α : Type} [Cost α]

def new (options : Options) : Parser α := ⟨options, .empty, .initialized, 0, none, false⟩

/-- Makes the parser ready for the next sentence, in whatever state it is. -/
def reset (p : Parser α) : Parser α :=
  { p with search := p.search.reset, state := .initialized, length := 0, goal := none }

def figures (p : Parser α) : Figures := p.search.figures

def drain (p : Parser α) : Parser α × List (Event α) :=
  let log := p.search.frontier.log
  ({ p with search.frontier.log := #[] }, log.toList)

def problem (p : Parser α) (ctx : Context α) : Problem α :=
  ⟨ctx.grammar, ctx.heuristic, p.length, p.options.maxPops, p.tracing⟩

/-- The lexical cost of a token, nothing if there is none. -/
def tokenCost (ctx : Context α) (t : Token) : α :=
  match ctx.lexicon, t.word with
  | some lex, some w => (lex.cost? w t.tag).getD Cost.zero
  | _, _ => Cost.zero

def seed (ctx : Context α) (length : Int) (pos : Nat) (t : Token) : Item α :=
  let span := Span.one pos (pos + 1)
  let inside := tokenCost ctx t
  ⟨t.tag, span, inside, Cost.add inside (ctx.heuristic t.tag span length), none, none, none⟩

def seeds (ctx : Context α) (p : Problem α) (f : Frontier α) (sentence : List Token) : Frontier α :=
  sentence.zipIdx.foldl (fun f (t, pos) => f.enqueue p (seed ctx p.length pos t)) f

/-- Searches for the cheapest derivation of the start symbol covering a sentence. -/
def parse (p : Parser α) (ctx : Context α) (tracing : Bool) (sentence : List Token) :
    Parser α × Except (ParseError α) (Option (Success α)) :=
  if p.state ≠ .initialized then (p, .error (.notReady p.state))
  else if sentence.length = 0 ∨ maxSentence < sentence.length then
    (p, .error (.badLength sentence.length))
  else
    let p := { p with length := sentence.length, tracing }
    let problem := p.problem ctx
    let ⟨options, ⟨frontier, chart, pops⟩, _, length, goal, tracing⟩ := p
    match Search.run problem ⟨seeds ctx problem frontier sentence, chart, pops⟩ with
    | (search, .exhausted) =>
      (⟨options, search, .exhausted, length, goal, tracing⟩, .ok none)
    | (search, .found id cost) =>
      (⟨options, search, .succeeded, length, some id, tracing⟩, .ok (some ⟨id, cost⟩))
    | (search, .popLimit) =>
      (⟨options, search, .failed, length, goal, tracing⟩, .error (.popLimit options.maxPops))
    | (search, .invariant e) =>
      (⟨options, search, .failed, length, goal, tracing⟩, .error (.invariant e))
    | (search, .dangling id) =>
      (⟨options, search, .failed, length, goal, tracing⟩, .error (.dangling id))

end Parser

end Discontinuous
