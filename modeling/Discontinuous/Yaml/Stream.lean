import Discontinuous.Yaml.Block
import Discontinuous.Yaml.Comment
import Discontinuous.Yaml.Folded
import Discontinuous.Yaml.Tag
import Discontinuous.Yaml.Token

/-!
The tokens of a stream, in the order in which they are read.

Indentation opens and closes blocks. A token that might be the name of an entry is told from other
tokens only by the colon behind it, and the marks before the name are put in afterwards. So tokens
wait in a queue, and one leaves it when enough others follow and it can be no name any more.
-/
namespace Discontinuous.Yaml

/-- A token that is a name if a colon follows. -/
structure Candidate where
  possible : Bool
  required : Bool
  number : Nat
  pos : Nat
  line : Nat
  column : Nat

namespace Candidate

def reach : Nat := 1024

def isStale (k : Candidate) (c : Cursor) : Bool := k.line < c.line || k.pos + reach < c.pos

def drop (k : Candidate) : Candidate := { k with possible := false }

end Candidate

structure Stream where
  cursor : Cursor
  started : Bool
  /-- Tokens that have been read and not been taken. -/
  queue : List Token
  taken : Nat
  /-- The column of the current block, or -1 outside of any. -/
  indent : Int
  /-- The columns of the blocks around it, from the inside out. -/
  outer : List Int
  /-- A candidate for the outside and one for each pair of brackets around the cursor. -/
  candidates : Array Candidate
  /-- Numbers of tokens that are candidates, with the place of the candidate. -/
  awaited : List (Nat × Nat)
  nameAllowed : Bool

/-- Steps in a stream of tokens, which may be refused. -/
abbrev Reading := StateT Stream Option

namespace Stream

def ofString (s : String) : Stream :=
  ⟨.start (.ofString s), false, [], 0, -1, [], #[], [], true⟩

def depth (s : Stream) : Nat := s.candidates.size - 1

def inFlow (s : Stream) : Bool := s.depth != 0

def nextNumber (s : Stream) : Nat := s.taken + s.queue.length

def push (s : Stream) (t : Token) : Stream := { s with queue := s.queue ++ [t] }

/-- Puts a token before the one with a number. If that has been taken, it comes last. -/
def insert (s : Stream) (number : Nat) (t : Token) : Stream :=
  if number < s.taken then s.push t
  else
    let k := number - s.taken
    { s with queue := s.queue.take k ++ t :: s.queue.drop k }

def forget (s : Stream) (number : Nat) : Stream :=
  { s with awaited := s.awaited.filter fun (n, _) => n != number }

/-- The most blocks or brackets inside one another. -/
def maxDepth : Nat := 10000

/-- Closes blocks down to one that is not indented beyond a column. -/
def closeBlocks (column indent : Int) : List Int → Nat × Int × List Int
  | [] => (0, indent, [])
  | up :: outer =>
    if column < indent then
      let (n, indent, outer) := closeBlocks column up outer
      (n + 1, indent, outer)
    else (0, indent, up :: outer)

/-- Closes the blocks that are indented beyond a column. Brackets keep blocks as they are. -/
def unindent (s : Stream) (column : Int) : Stream :=
  if s.inFlow then s
  else
    let (n, indent, outer) := closeBlocks column s.indent s.outer
    { s with queue := s.queue ++ List.replicate n .blockEnd, indent, outer }

end Stream

namespace Reading

def refuse {α : Type} : Reading α := fun _ => none

def scan {α : Type} (act : Scan α) : Reading α := fun s =>
  match act s.cursor with
  | none => none
  | some (a, cursor) => some (a, { s with cursor })

def push (t : Token) : Reading Unit := modify fun s => s.push t

def look (k : Nat) : Reading Char := scan (.look k)

/-! Blocks. -/

/-- Opens a block at a column, unless one is open there. -/
def indentTo (column : Nat) (kind : Collection) (enter : Stream → Token → Stream) :
    Reading Unit := fun s =>
  if s.inFlow || (column : Int) ≤ s.indent then some ((), s)
  else if Stream.maxDepth ≤ s.outer.length then none
  else
    let s := enter s (.blockStart kind)
    some ((), { s with outer := s.indent :: s.outer, indent := column })

/-! Names. -/

/-- Whether a candidate can still be a name. One that has to be and cannot is refused. -/
def isOpen (place : Nat) : Reading Bool := fun s =>
  match s.candidates[place]? with
  | none => some (false, s)
  | some k =>
    if !k.possible then some (false, s)
    else if !k.isStale s.cursor then some (true, s)
    else if k.required then none
    else some (false, { s with candidates := s.candidates.setIfInBounds place k.drop })

def dropCandidate : Reading Unit := fun s =>
  match s.candidates.back? with
  | none => some ((), s)
  | some k =>
    if !k.possible then some ((), s)
    else if k.required then none
    else some ((), { s.forget k.number with candidates := s.candidates.pop.push k.drop })

/-- The token that is read next may be a name, if one is allowed here. -/
def addCandidate : Reading Unit := do
  if (← get).nameAllowed then
    dropCandidate
    modify fun s =>
      let c := s.cursor
      let k : Candidate :=
        ⟨true, !s.inFlow && s.indent == (c.column : Int), s.nextNumber, c.pos, c.line, c.column⟩
      { s with
        candidates := s.candidates.pop.push k
        awaited := (k.number, s.depth) :: (s.forget k.number).awaited }

def allowNames (allowed : Bool) : Reading Unit :=
  modify fun s => { s with nameAllowed := allowed }

/-! Single tokens. -/

/-- Closes all blocks, as at the bounds of a document. -/
def closeAll : Reading Unit := do
  modify fun s => s.unindent (-1)
  dropCandidate
  allowNames false

def streamEnd : Reading Unit := do
  modify fun s =>
    let c := s.cursor
    if c.column == 0 then s else { s with cursor := { c with column := 0, line := c.line + 1 } }
  closeAll
  push .streamEnd

def marker (t : Token) : Reading Unit := do
  closeAll
  scan do
    Scan.skip
    Scan.skip
    Scan.skip
  push t

def flowStart (kind : Collection) : Reading Unit := do
  addCandidate
  modify fun s =>
    let c := s.cursor
    { s with
      candidates := s.candidates.push ⟨false, false, s.nextNumber, c.pos, c.line, c.column⟩ }
  if Stream.maxDepth < (← get).depth then refuse
  allowNames true
  scan .skip
  push (.flowStart kind)

def flowEnd (kind : Collection) : Reading Unit := do
  dropCandidate
  modify fun s =>
    match s.inFlow, s.candidates.back? with
    | true, some k => { s.forget k.number with candidates := s.candidates.pop }
    | _, _ => s
  allowNames false
  scan .skip
  push (.flowEnd kind)

def comma : Reading Unit := do
  dropCandidate
  allowNames true
  scan .skip
  push .comma

/-- A mark in front of an item or a name, which opens a block outside of brackets. -/
def leadingMark (kind : Collection) (t : Token) : Reading Unit := do
  let s ← get
  if !s.inFlow then
    if !s.nameAllowed then refuse
    indentTo s.cursor.column kind Stream.push
  dropCandidate
  allowNames (kind == .sequence || !s.inFlow)
  scan .skip
  push t

/-- A colon. If a candidate is open, it is a name, and the marks before it are put in. -/
def value : Reading Unit := do
  if ← isOpen (← get).depth then
    match (← get).candidates.back? with
    | none => refuse
    | some k =>
      modify fun s => s.insert k.number .key
      indentTo k.column .mapping fun s t => s.insert k.number t
      modify fun s =>
        { s.forget k.number with candidates := s.candidates.pop.push k.drop, nameAllowed := false }
  else
    let s ← get
    if !s.inFlow then
      if !s.nameAllowed then refuse
      indentTo s.cursor.column .mapping Stream.push
    allowNames (!s.inFlow)
  scan .skip
  push .value

def word (act : Scan Token) : Reading Unit := do
  addCandidate
  allowNames false
  push (← scan act)

def plain : Reading Unit := do
  addCandidate
  allowNames false
  let s ← get
  let (text, broken) ← scan (.plain s.inFlow (s.indent + 1).toNat)
  if broken then allowNames true
  push (.scalar text .plain)

def block : Reading Unit := do
  dropCandidate
  allowNames true
  let s ← get
  let least := if s.indent < 1 then 1 else s.indent.toNat + 1
  let text ← scan (.block s.indent.toNat least)
  push (.scalar text .quoted)

/-! From token to token. -/

/-- Passes blanks, comments and line ends. At the start of a line the first character is passed
too, if a byte order mark stands where characters were taken in last. -/
def passGaps : Nat → Reading Unit
  | 0 => pure ()
  | fuel + 1 => do
    scan (.need 1)
    let c := (← get).cursor
    if c.column == 0 && c.source.chars.getD c.window finish == byteOrderMark then scan .skip
    let s ← get
    let tabs := s.inFlow || !s.nameAllowed
    scan (.passWhile fun c => c == ' ' || (tabs && c == '\t'))
    if (← look 0) == '#' then scan .passComments
    if isBreak (← look 0) then
      scan do
        Scan.need 2
        Scan.skipBreak
      if !(← get).inFlow then allowNames true
      passGaps fuel

def isIndicator (c : Char) : Bool :=
  ['-', '?', ':', ',', '[', ']', '#', '&', '*', '!', '|', '>', '%', '@'].contains c ||
    [0x22, 0x27, 0x60, 0x7B, 0x7D].contains c.toNat

def startsPlain (flow : Bool) (a b : Char) : Bool :=
  (!isSpace a && !isIndicator a) || (a == '-' && !isGap b) ||
    (!flow && (a == '?' || a == ':') && !isSpace b)

def inner : Reading Unit := do
  let flow := (← get).inFlow
  let a ← look 0
  let b ← look 1
  let marks := flow || isSpace b
  if a == '[' then flowStart .sequence
  else if a == Char.ofNat 0x7B then flowStart .mapping
  else if a == ']' then flowEnd .sequence
  else if a == Char.ofNat 0x7D then flowEnd .mapping
  else if a == ',' then comma
  else if a == '-' && isSpace b then leadingMark .sequence .item
  else if a == '?' && marks then leadingMark .mapping .key
  else if a == ':' && marks then value
  else if a == '*' then word do return .reference (← Scan.anchorName)
  else if a == '&' then word do return .anchor (← Scan.anchorName)
  else if a == '!' then word do return .tag (← Scan.tag)
  else if (a == '|' || a == '>') && !flow then block
  else if a == Scan.singleQuote || a == Text.doubleQuote then
    word do return .scalar (← Scan.quoted a) .quoted
  else if startsPlain flow a b then plain
  else refuse

/-- Reads at least one more token. A comment behind it is passed, unless it is a hyphen. -/
def more : Reading Unit := do
  scan (.need 1)
  if !(← get).started then
    modify fun s =>
      { s.push .streamStart with started := true, candidates := #[⟨false, false, 0, 0, 0, 0⟩] }
  else
    passGaps (← scan .rest)
    modify fun s => s.unindent s.cursor.column
    scan (.need 4)
    let a ← look 0
    let (starts, ends) ← scan .markers
    if a == finish then streamEnd
    else if a == '%' && (← get).cursor.column == 0 then
      closeAll
      push (← scan .directive)
    else if starts then marker .documentStart
    else if ends then marker .documentEnd
    else
      inner
      if (← get).queue.getLast? != some .item then scan .passTrailing

/-- The least number of tokens that have to wait before the first is taken. -/
def lookahead : Nat := 3

/-- Reads until the first token can be taken. -/
def fill : Nat → Reading Unit
  | 0 => pure ()
  | fuel + 1 => do
    let s ← get
    let wait ← if s.queue.length < lookahead then pure true
      else match s.awaited.lookup s.taken with
      | none => pure false
      | some place => isOpen place
    if wait then
      more
      fill fuel

/-- The first token, which stays in the queue. -/
def peek : Reading Token := do
  fill ((← scan .rest) + 16)
  match (← get).queue with
  | [] => refuse
  | t :: _ => return t

/-- Takes the first token. -/
def skip : Reading Unit := modify fun s => { s with queue := s.queue.drop 1, taken := s.taken + 1 }

end Reading

end Discontinuous.Yaml
