/-!
Where a stream is read: its characters, and a place among them.

A stream is taken in by pieces of a fixed number of bytes, and only as far as somebody asks for
characters. A character that no stream may hold does harm only if its piece is taken in.
-/
namespace Discontinuous.Yaml

def isAllowed (c : Char) : Bool :=
  let n := c.toNat
  n == 9 || n == 10 || n == 13 || (0x20 ≤ n && n ≤ 0x7E) || n == 0x85 ||
    (0xA0 ≤ n && n ≤ 0xFFFD) || 0x10000 ≤ n

/-- What is read beyond the end. No stream holds it. -/
def finish : Char := Char.ofNat 0

def byteOrderMark : Char := '\uFEFF'

def isGap (c : Char) : Bool := c == ' ' || c == '\t'

def isShortBreak (c : Char) : Bool := c == '\n' || c == '\r'

def isBreak (c : Char) : Bool := isShortBreak c || [0x85, 0x2028, 0x2029].contains c.toNat

def isLineEnd (c : Char) : Bool := isBreak c || c == finish

def isSpace (c : Char) : Bool := isGap c || isLineEnd c

def isWordChar (c : Char) : Bool := c.isAlphanum || c == '_' || c == '-'

structure Source where
  chars : Array Char
  /-- Where the pieces end, up to the first one with a forbidden character. -/
  ends : List Nat
  spoilt : Bool

namespace Source

def pieceSize : Nat := 512

/-- A piece in the course of division: its place and bytes so far, and whether it is free of
forbidden characters. The ends of earlier pieces are in reverse. -/
structure Division where
  ends : List Nat
  spoilt : Bool
  pos : Nat
  bytes : Nat
  clean : Bool

namespace Division

def close (d : Division) : Division :=
  if d.spoilt then d
  else if d.clean then { d with ends := d.pos :: d.ends }
  else { d with spoilt := true }

/-- Adds a character to the piece, or to the next one if it does not fit. -/
def add (d : Division) (c : Char) : Division :=
  let d := if pieceSize < d.bytes + c.utf8Size then { d.close with bytes := 0, clean := true } else d
  { d with pos := d.pos + 1, bytes := d.bytes + c.utf8Size, clean := d.clean && isAllowed c }

end Division

/-- A stream without the byte order mark at its front, which counts for the first piece. -/
def ofString (s : String) : Source :=
  let (chars, bytes) := match s.toList with
    | [] => ([], 0)
    | c :: rest => if c == byteOrderMark then (rest, c.utf8Size) else (c :: rest, 0)
  let d := (chars.foldl Division.add ⟨[], false, 0, bytes, true⟩).close
  ⟨chars.toArray, d.ends.reverse, d.spoilt⟩

def size (s : Source) : Nat := s.chars.size

end Source

structure Cursor where
  source : Source
  pos : Nat
  line : Nat
  column : Nat
  /-- Whether nothing but blanks has been passed since the last line end. -/
  fresh : Bool
  /-- The number of characters taken in. Beyond the end, each request adds one. -/
  loaded : Nat
  window : Nat

namespace Cursor

def start (source : Source) : Cursor := ⟨source, 0, 0, 0, false, 0, 0⟩

def peek (c : Cursor) (k : Nat) : Char := c.source.chars.getD (c.pos + k) finish

end Cursor

/-- Steps in a stream, which may be refused. -/
abbrev Scan := StateT Cursor Option

namespace Scan

def refuse {α : Type} : Scan α := fun _ => none

def need (n : Nat) : Scan Unit := fun c =>
  if c.pos + n ≤ c.loaded then some ((), c)
  else match c.source.ends.find? fun stop => c.pos + n ≤ stop with
  | some stop => some ((), { c with loaded := stop, window := c.pos })
  | none =>
    if c.source.spoilt then none
    else
      let loaded := if c.loaded < c.source.size then c.source.size else c.loaded
      some ((), { c with loaded := loaded + 1, window := c.pos })

def look (k : Nat) : Scan Char := fun c => some (c.peek k, c)

def column : Scan Nat := fun c => some (c.column, c)

/-- A bound on the number of characters that are left, for loops that pass at least one each. -/
def rest : Scan Nat := fun c => some (c.source.size + 4 - c.pos, c)

def skip : Scan Unit := fun c =>
  some ((), { c with
    pos := c.pos + 1
    column := c.column + 1
    fresh := c.fresh && isGap (c.peek 0) })

/-- Passes a line end, if there is one, and tells what it stands for. -/
def takeBreak : Scan (Option Char) := fun c =>
  let next := fun (n : Nat) =>
    { c with pos := c.pos + n, line := c.line + 1, column := 0, fresh := true }
  let here := c.peek 0
  if here == '\r' && c.peek 1 == '\n' then some (some '\n', next 2)
  else if isShortBreak here || here.toNat == 0x85 then some (some '\n', next 1)
  else if isBreak here then some (some here, next 1)
  else some (none, c)

def skipBreak : Scan Unit := do let _ ← takeBreak

def passLoop (test : Char → Bool) : Nat → Scan Unit
  | 0 => pure ()
  | fuel + 1 => do
    need 1
    if test (← look 0) then
      skip
      passLoop test fuel

/-- Passes all characters up to the first that fails a test. -/
def passWhile (test : Char → Bool) : Scan Unit := do passLoop test (← rest)

def takeLoop (test : Char → Bool) (taken : Array Char) : Nat → Scan (Array Char)
  | 0 => pure taken
  | fuel + 1 => do
    need 1
    let c ← look 0
    if test c then
      skip
      takeLoop test (taken.push c) fuel
    else pure taken

/-- Takes all characters up to the first that fails a test. -/
def takeWhile (test : Char → Bool) : Scan (List Char) := do
  let taken ← takeLoop test #[] (← rest)
  return taken.toList

/-- Passes the rest of a line, up to its end. -/
def passLine : Scan Unit := passWhile fun c => !isLineEnd c

/-- Passes blanks and a comment, which have to be all that is left of a line, and its end. -/
def passLineEnd : Scan Unit := do
  passWhile isGap
  if (← look 0) == '#' then passLine
  let c ← look 0
  if isBreak c then
    need 2
    skipBreak
  else if c != finish then refuse

/-- Whether a line starts with three hyphens or three points, which bound a document. -/
def markers : Scan (Bool × Bool) := do
  let a ← look 0
  let three := a == (← look 1) && a == (← look 2) && isSpace (← look 3) && (← column) == 0
  return (three && a == '-', three && a == '.')

def atMarker : Scan Bool := do
  let (starts, ends) ← markers
  return starts || ends

end Scan

end Discontinuous.Yaml
