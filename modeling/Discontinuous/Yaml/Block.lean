import Discontinuous.Yaml.Source

/-!
Block scalars: lines of text below a header. They are kept as they are or folded, and the header
tells how far they are indented and whether line ends at their end are kept.
-/
namespace Discontinuous.Yaml.Scan

/-- What becomes of the line ends behind the text: all are dropped, the first stays, or all stay. -/
inductive Chomping where
  | strip
  | clip
  | keep
deriving DecidableEq

def chomping? (c : Char) : Option Chomping :=
  if c == '+' then some .keep else if c == '-' then some .strip else none

/-- Takes the mark for line ends, if there is one. -/
def takeChomping : Scan (Option Chomping) := do
  need 1
  let mark := chomping? (← look 0)
  if mark.isSome then skip
  return mark

/-- Takes the digit for the indentation, 0 if there is none. -/
def takeIndentation : Scan Nat := do
  need 1
  let c ← look 0
  if c == '0' then refuse
  else if c.isDigit then
    skip
    return c.toNat - 0x30
  else return 0

/-- The marks of a header, in either order. -/
def blockHeader : Scan (Chomping × Nat) := do
  match ← takeChomping with
  | some mark => return (mark, ← takeIndentation)
  | none =>
    let n ← takeIndentation
    let mark ← if n == 0 then pure none else takeChomping
    return (mark.getD .clip, n)

def passIndent (indent : Nat) : Nat → Scan Unit
  | 0 => pure ()
  | fuel + 1 => do
    need 1
    if (indent == 0 || (← column) < indent) && (← look 0) == ' ' then
      skip
      passIndent indent fuel

/-- Passes empty lines and the indentation of the next line. Gives the line ends and the column of
the widest indentation. -/
def emptyLines (indent widest : Nat) (breaks : Array Char) : Nat → Scan (Array Char × Nat)
  | 0 => pure (breaks, widest)
  | fuel + 1 => do
    passIndent indent (← rest)
    let column ← column
    let widest := if widest < column then column else widest
    let c ← look 0
    if (indent == 0 || column < indent) && c == '\t' then refuse
    else if isBreak c then
      need 2
      let b ← takeBreak
      emptyLines indent widest (breaks ++ b.toList.toArray) fuel
    else pure (breaks, widest)

/-- A block scalar in the course of reading: its text, the end of the last line, the ends of empty
lines below it, and whether the last line starts with a blank. -/
structure Lines where
  text : Array Char
  last : Option Char
  breaks : Array Char
  indented : Bool

/-- Adds a line, given its first character. Two lines that start with no blank are joined if the
text is folded. -/
def Lines.enter (folded : Bool) (b : Lines) (c : Char) : Array Char :=
  let gap :=
    if folded && !b.indented && !isGap c && b.last == some '\n' then
      if b.breaks.isEmpty then #[' '] else #[]
    else b.last.toList.toArray
  b.text ++ gap ++ b.breaks

def blockLoop (folded : Bool) (indent : Nat) (b : Lines) : Nat → Scan Lines
  | 0 => pure b
  | fuel + 1 => do
    let c ← look 0
    if (← column) == indent && c != finish then
      let line ← takeLoop (fun c => !isLineEnd c) (b.enter folded c) (← rest)
      need 2
      let last ← takeBreak
      let (breaks, _) ← emptyLines indent 0 #[] (← rest)
      blockLoop folded indent ⟨line, last, breaks, isGap c⟩ fuel
    else pure b

/-- Takes a block scalar from its first mark on. The lines of a scalar without a given indentation
are indented by `least` columns at least; a given one counts from the column `base`. -/
def block (base least : Nat) : Scan (List Char) := do
  let folded := (← look 0) == '>'
  skip
  let (chomping, digit) ← blockHeader
  passLineEnd
  let given := if digit == 0 then 0 else base + digit
  let (breaks, widest) ← emptyLines given 0 #[] (← rest)
  let found := if widest < least then least else widest
  let indent := if given == 0 then found else given
  need 1
  let b ← blockLoop folded indent ⟨#[], none, breaks, false⟩ (← rest)
  let text := if chomping == .strip then b.text else b.text ++ b.last.toList.toArray
  return (if chomping == .keep then text ++ b.breaks else text).toList

end Discontinuous.Yaml.Scan
