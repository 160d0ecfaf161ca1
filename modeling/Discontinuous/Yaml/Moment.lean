/-!
Points in time in documents: a date, or a date with a time of day.
-/
namespace Discontinuous.Yaml.Moment

/-- A number of one or two digits at the front, and what follows. -/
def number? : List Char → Option (Nat × List Char)
  | a :: b :: rest =>
    if !a.isDigit then none
    else if b.isDigit then some (10 * (a.toNat - 0x30) + (b.toNat - 0x30), rest)
    else some (a.toNat - 0x30, b :: rest)
  | [a] => if a.isDigit then some (a.toNat - 0x30, []) else none
  | [] => none

def numberBelow? (bound : Nat) (cs : List Char) : Option (Nat × List Char) :=
  (number? cs).filter fun (n, _) => n < bound

def after? (mark : Char) : List Char → Option (List Char)
  | [] => none
  | c :: rest => if c == mark then some rest else none

def isLeap (year : Nat) : Bool := year % 4 == 0 && (year % 100 != 0 || year % 400 == 0)

def daysIn (year month : Nat) : Nat :=
  if month == 2 then if isLeap year then 29 else 28
  else if [4, 6, 9, 11].contains month then 30
  else 31

/-- What follows a date of four digits for the year, the month and the day. -/
def date? (cs : List Char) : Option (List Char) := do
  let year := cs.takeWhile Char.isDigit
  if year.length != 4 then none
  else
    let cs ← after? '-' (cs.drop 4)
    let (month, cs) ← numberBelow? 13 cs
    let cs ← after? '-' cs
    let (day, cs) ← number? cs
    let year := year.foldl (fun n c => 10 * n + (c.toNat - 0x30)) 0
    if month == 0 || day == 0 || daysIn year month < day then none else some cs

def dropFraction : List Char → List Char
  | point :: d :: rest =>
    if (point == '.' || point == ',') && d.isDigit then rest.dropWhile Char.isDigit
    else point :: d :: rest
  | cs => cs

def time? (cs : List Char) : Option (List Char) := do
  let (_, cs) ← numberBelow? 24 cs
  let cs ← after? ':' cs
  let (_, cs) ← numberBelow? 60 cs
  let cs ← after? ':' cs
  let (_, cs) ← numberBelow? 60 cs
  some (dropFraction cs)

/-- Whether a zone is written: a letter, or a sign, hours and minutes of two digits each. -/
def isZone : List Char → Bool
  | ['Z'] => true
  | [sign, h1, h2, ':', m1, m2] =>
    (sign == '+' || sign == '-') && [h1, h2, m1, m2].all Char.isDigit &&
      ((numberBelow? 25 [h1, h2]).isSome && (numberBelow? 61 [m1, m2]).isSome)
  | _ => false

/-- Whether text is a date, a date and a time after blanks, or a date and a time with a zone after
a letter. -/
def isMoment (cs : List Char) : Bool :=
  match date? cs with
  | none => false
  | some [] => true
  | some (c :: rest) =>
    if c == 'T' || c == 't' then (time? rest).any isZone
    else c == ' ' && (time? (rest.dropWhile (· == ' '))).any List.isEmpty

end Discontinuous.Yaml.Moment
