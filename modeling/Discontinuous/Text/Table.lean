/-!
Tables of character data, written as lines of text: numbers in base sixteen, separated by blanks
within a row and by semicolons between rows. A row may go on in the next line.
-/
namespace Discontinuous.Text.Table

def hexDigit (c : Char) : Nat :=
  if '0' ≤ c ∧ c ≤ '9' then c.toNat - '0'.toNat else c.toNat - 'a'.toNat + 10

/-- Adds one character to the rows read so far, of which the last is kept open with the number
that is being read. All of them are in reverse. -/
def step (state : List (List Nat) × List Nat × Nat) (c : Char) : List (List Nat) × List Nat × Nat :=
  let (done, row, value) := state
  if c = ' ' then (done, value :: row, 0)
  else if c = ';' then ((value :: row).reverse :: done, [], 0)
  else (done, row, 16 * value + hexDigit c)

def rows (lines : List String) : List (List Nat) :=
  let (done, row, value) := (lines.flatMap String.toList).foldl step ([], [], 0)
  ((value :: row).reverse :: done).reverse

def pairUp : List Nat → List (Nat × Nat)
  | a :: b :: rest => (a, b) :: pairUp rest
  | _ => []

/-- The numbers of a table of one row, two by two. -/
def pairs (lines : List String) : List (Nat × Nat) := pairUp (rows lines).flatten

end Discontinuous.Text.Table
