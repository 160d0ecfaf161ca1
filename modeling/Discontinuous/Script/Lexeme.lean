import Discontinuous.Text.Quoted

/-!
Lexemes of grammar scripts. A lexeme is the longest that can be read at a place; blanks and comments
between lexemes do not count. Scripts are read byte by byte, and columns count bytes.
-/
namespace Discontinuous.Script

inductive LexemeKind where
  | ident
  | number
  | string
  | arrow
  | openParen
  | closeParen
  | comma
  | atSign
  | percent
deriving DecidableEq

def LexemeKind.code : LexemeKind → Int
  | ident => -2
  | number => -4
  | string => -6
  | arrow => 1001
  | openParen => 40
  | closeParen => 41
  | comma => 44
  | atSign => 64
  | percent => 37

/-- Bytes at which no lexeme can be read, up to the first that rules out all of them. -/
structure Unreadable where
  text : Text
  column : Nat

def Unreadable.message (e : Unreadable) : String :=
  "column " ++ toString e.column ++ ": unexpected " ++ Text.quoted e.text

/-- What is read at a place: how many bytes belong to it after the first one. -/
inductive Reading where
  | skip (more : Nat)
  | lexeme (kind : LexemeKind) (more : Nat)
  | unreadable (more : Nat)

def isDigit (b : UInt8) : Bool := 0x30 ≤ b && b ≤ 0x39

def isAsciiLetter (b : UInt8) : Bool :=
  (0x41 ≤ b && b ≤ 0x5A) || (0x61 ≤ b && b ≤ 0x7A) || b == 0x5F

/-- The first byte of a character of two bytes. -/
def isLead (b : UInt8) : Bool := 0xC2 ≤ b && b ≤ 0xDF

def isContinuation (b : UInt8) : Bool := 0x80 ≤ b && b ≤ 0xBF

/-- Punctuation that a label may hold: `|<>.$^+*'=:`. -/
def isLabelMark (b : UInt8) : Bool :=
  [0x7C, 0x3C, 0x3E, 0x2E, 0x24, 0x5E, 0x2B, 0x2A, 0x27, 0x3D, 0x3A].contains b

/-- The number of bytes of further letters, digits and marks of a label. -/
def labelTail : List UInt8 → Nat
  | [] => 0
  | [b] => if isAsciiLetter b || isDigit b || isLabelMark b then 1 else 0
  | b :: c :: rest =>
    if isAsciiLetter b || isDigit b || isLabelMark b then 1 + labelTail (c :: rest)
    else if isLead b && isContinuation c then 2 + labelTail rest
    else 0

/-- The number of bytes of a label without at sign at the front, if there is one. -/
def label? : List UInt8 → Option Nat
  | [] => none
  | [b] => if isAsciiLetter b then some 1 else none
  | b :: c :: rest =>
    if isAsciiLetter b then some (1 + labelTail (c :: rest))
    else if isLead b && isContinuation c then some (2 + labelTail rest)
    else none

def digitCount (bytes : List UInt8) : Nat := (bytes.takeWhile isDigit).length

/-- The number of bytes of a decimal point and digits behind it, or none. -/
def fractionTail : List UInt8 → Nat
  | 0x2E :: rest => 1 + digitCount rest
  | _ => 0

def signTail : List UInt8 → Nat
  | 0x2B :: _ => 1
  | 0x2D :: _ => 1
  | _ => 0

/-- The number of bytes of an exponent, or none if there are no digits in it. -/
def exponentTail : List UInt8 → Nat
  | [] => 0
  | e :: rest =>
    let sign := signTail rest
    let digits := digitCount (rest.drop sign)
    if (e == 0x45 || e == 0x65) && 0 < digits then 1 + sign + digits else 0

/-- The number of bytes of a number after its first digit. -/
def numberTail (bytes : List UInt8) : Nat :=
  let whole := digitCount bytes
  let fraction := fractionTail (bytes.drop whole)
  whole + fraction + exponentTail (bytes.drop (whole + fraction))

/-- The number of bytes up to and with the closing quote. Any byte may follow a backslash. -/
def stringTail? : List UInt8 → Option Nat
  | [] => none
  | [b] => if b == 0x22 then some 1 else none
  | b :: c :: rest =>
    if b == 0x22 then some 1
    else if b == 0x5C then (stringTail? rest).map (2 + ·)
    else (stringTail? (c :: rest)).map (1 + ·)

/-- Reads at `b :: rest`. -/
def read (b : UInt8) (rest : List UInt8) : Reading :=
  if b == 0x23 then .skip (rest.takeWhile (· != 0x0A)).length
  else if isBlank b then .skip (rest.takeWhile isBlank).length
  else if b == 0x40 then
    match label? rest with
    | some n => .lexeme .ident n
    | none => .lexeme .atSign 0
  else if isAsciiLetter b then .lexeme .ident (labelTail rest)
  else if isLead b then
    match rest with
    | [] => .unreadable 0
    | c :: rest => if isContinuation c then .lexeme .ident (1 + labelTail rest) else .unreadable 1
  else if isDigit b then .lexeme .number (numberTail rest)
  else if b == 0x2E then
    match digitCount rest with
    | 0 => .unreadable (Nat.min rest.length 1)
    | n + 1 => .lexeme .number (n + 1)
  else if b == 0x22 then
    match stringTail? rest with
    | some n => .lexeme .string n
    | none => .unreadable rest.length
  else if b == 0x28 then .lexeme .openParen 0
  else if b == 0x29 then .lexeme .closeParen 0
  else if b == 0x2C then .lexeme .comma 0
  else if b == 0x25 then .lexeme .percent 0
  else if b == 0x2D then
    match rest with
    | 0x3E :: _ => .lexeme .arrow 1
    | _ => .unreadable (Nat.min rest.length 1)
  else if b == 0xE2 then
    match rest with
    | 0x86 :: 0x92 :: _ => .lexeme .arrow 2
    | 0x86 :: _ => .unreadable (Nat.min rest.length 2)
    | _ => .unreadable (Nat.min rest.length 1)
  else .unreadable 0
where
  isBlank (b : UInt8) : Bool := b == 0x20 || b == 0x09 || b == 0x0D

/-- A lexeme has a text that is read as its kind, with whatever stands behind it. -/
structure Lexeme where
  kind : LexemeKind
  text : Text
  column : Nat
  lexed : ∃ b rest n, read b rest = .lexeme kind n ∧ text = Text.ofBytes (b :: rest.take n)

/-- The lexeme that is read at `b :: rest`. -/
def Lexeme.ofReading {b : UInt8} {rest : List UInt8} {kind : LexemeKind} {n : Nat}
    (h : read b rest = .lexeme kind n) (column : Nat) : Lexeme :=
  ⟨kind, Text.ofBytes (b :: rest.take n), column, b, rest, n, h, rfl⟩

/-- The column after some bytes. A line break has column 0 of the line that it starts. -/
def columnAfter (column : Nat) (bytes : List UInt8) : Nat :=
  bytes.foldl (fun column b => if b == 0x0A then 1 else column + 1) column

def lexemesFrom (column : Nat) : List UInt8 → Except Unreadable (List Lexeme)
  | [] => .ok []
  | b :: rest =>
    let here := if b == 0x0A then 0 else column
    let taken := fun n => b :: rest.take n
    match hread : read b rest with
    | .skip n => lexemesFrom (columnAfter column (taken n)) (rest.drop n)
    | .unreadable n => .error ⟨Text.ofBytes (taken n), here⟩
    | .lexeme kind n =>
      match lexemesFrom (columnAfter column (taken n)) (rest.drop n) with
      | .error e => .error e
      | .ok more => .ok (.ofReading hread here :: more)
termination_by bytes => bytes.length
decreasing_by all_goals simp only [List.length_drop, List.length_cons]; omega

def lexemes (bytes : List UInt8) : Except Unreadable (List Lexeme) := lexemesFrom 1 bytes

end Discontinuous.Script
