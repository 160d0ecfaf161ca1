import Discontinuous.Yaml.Source
import Discontinuous.Text.Quoted

/-!
Text that is folded over lines, without quotes or between them: a line end with the blanks around it
is one blank, and of several line ends the first is dropped.
-/
namespace Discontinuous.Yaml

/-- Text, and what has been passed behind it: blanks, or a first line end and further ones. -/
structure Folded where
  text : Array Char
  blanks : Array Char
  first : Option Char
  further : Array Char
  broken : Bool

namespace Folded

def empty : Folded := ⟨#[], #[], none, #[], false⟩

def join (f : Folded) : Folded :=
  let gap :=
    if !f.broken then f.blanks
    else if f.first == some '\n' then if f.further.isEmpty then #[' '] else f.further
    else f.first.toList.toArray ++ f.further
  ⟨f.text ++ gap, #[], none, #[], false⟩

def push (f : Folded) (c : Char) : Folded := { f with text := f.text.push c }

end Folded

namespace Scan

/-- Passes blanks and line ends. After a line end no tab may stand before the column `limit`. -/
def passFold (limit : Nat) (f : Folded) : Nat → Scan Folded
  | 0 => pure f
  | fuel + 1 => do
    let c ← look 0
    if isGap c then
      if f.broken && c == '\t' && (← column) < limit then refuse
      skip
      need 1
      passFold limit (if f.broken then f else { f with blanks := f.blanks.push c }) fuel
    else if isBreak c then
      need 2
      let b ← takeBreak
      need 1
      let f := if f.broken then { f with further := f.further ++ b.toList.toArray }
        else { f with blanks := #[], first := b, broken := true }
      passFold limit f fuel
    else pure f

/-! Text without quotes. -/

def isFlowMark (c : Char) : Bool := [',', '?', '[', ']', Char.ofNat 0x7B, Char.ofNat 0x7D].contains c

def plainWord (flow : Bool) (f : Folded) : Nat → Scan Folded
  | 0 => pure f
  | fuel + 1 => do
    let c ← look 0
    if isSpace c || (c == ':' && isSpace (← look 1)) || (flow && isFlowMark c) then pure f
    else
      skip
      need 2
      plainWord flow (f.join.push c) fuel

def plainLoop (flow : Bool) (limit : Nat) (f : Folded) : Nat → Scan Folded
  | 0 => pure f
  | fuel + 1 => do
    need 4
    if (← atMarker) || (← look 0) == '#' then pure f
    else
      let f ← plainWord flow f (← rest)
      let c ← look 0
      if isGap c || isBreak c then
        let f ← passFold limit f (← rest)
        if !flow && (← column) < limit then pure f else plainLoop flow limit f fuel
      else pure f

/-- Takes text without quotes, and tells whether a line end was passed behind it. In a block it goes
on in lines that are indented by `limit` columns at least. -/
def plain (flow : Bool) (limit : Nat) : Scan (List Char × Bool) := do
  let f ← plainLoop flow limit .empty (← rest)
  return (f.text.toList, f.broken)

/-! Text between quotes. -/

def singleQuote : Char := Char.ofNat 0x27

def letterEscapes : List (Char × Nat) :=
  [('0', 0), ('a', 7), ('b', 8), ('t', 9), ('\t', 9), ('n', 10), ('v', 11), ('f', 12), ('r', 13),
    ('e', 27), (' ', 32), (Text.doubleQuote, 34), (singleQuote, 39), (Text.backslash, 92),
    ('N', 0x85), ('_', 0xA0), ('L', 0x2028), ('P', 0x2029)]

def hexEscapes : List (Char × Nat) := [('x', 2), ('u', 4), ('U', 8)]

/-- Passes a number of digits in base sixteen and tells their value. -/
def hexDigits (value : Nat) : Nat → Scan Nat
  | 0 => pure value
  | places + 1 => do
    match Text.hexValue? (← look 0) with
    | none => refuse
    | some d =>
      skip
      hexDigits (16 * value + d) places

def escape : Scan Char := do
  let letter ← look 1
  match letterEscapes.lookup letter with
  | some n =>
    skip
    skip
    return Char.ofNat n
  | none =>
    match hexEscapes.lookup letter with
    | none => refuse
    | some places =>
      skip
      skip
      need places
      let n ← hexDigits 0 places
      if n < 0xD800 || (0xE000 ≤ n && n < 0x110000) then return Char.ofNat n else refuse

/-- Takes characters up to a blank or the closing quote. A backslash at the end of a line joins it
to the next. -/
def quotedWord (quote : Char) (f : Folded) : Nat → Scan Folded
  | 0 => pure f
  | fuel + 1 => do
    let c ← look 0
    if isSpace c then pure f
    else if c == quote then
      if quote == singleQuote && (← look 1) == quote then
        skip
        skip
        need 2
        quotedWord quote (f.push c) fuel
      else pure f
    else if quote == Text.doubleQuote && c == Text.backslash then
      if isBreak (← look 1) then
        need 3
        skip
        skipBreak
        pure { f with broken := true }
      else
        let d ← escape
        need 2
        quotedWord quote (f.push d) fuel
    else
      skip
      need 2
      quotedWord quote (f.push c) fuel

def quotedLoop (quote : Char) (f : Folded) : Nat → Scan (List Char)
  | 0 => refuse
  | fuel + 1 => do
    need 4
    if (← atMarker) || (← look 0) == finish then refuse
    else
      let f ← quotedWord quote f (← rest)
      need 1
      if (← look 0) == quote then
        skip
        return f.text.toList
      else
        let f ← passFold 0 f (← rest)
        quotedLoop quote f.join fuel

def quoted (quote : Char) : Scan (List Char) := do
  skip
  quotedLoop quote .empty (← rest)

end Scan

end Discontinuous.Yaml
