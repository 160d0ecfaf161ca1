import Discontinuous.Span

/-!
Patterns: the lengths of a span's ranges packed into one word, free of positions. Below a leading
sentinel bit stands a run of ones per range, and a single zero between two runs.
-/
namespace Discontinuous

structure Pattern where
  bits : UInt64
deriving DecidableEq

namespace Pattern

/-- The pattern of what does not fit into a word. -/
def absent : Pattern := ⟨0⟩

/-- The most positions and gaps that fit below the sentinel. -/
def maxWidth : Int := 63

/-- Appends a run of `length` ones to `bits`, which hold `width` positions and gaps so far. -/
def appendRun (bits : UInt64) (width length : Int) : Option (UInt64 × Int) :=
  let width := Word.wrap (width + length)
  if width > maxWidth then none
  else some (Word.shiftLeft bits length ||| Word.ones length, width)

/-- Appends further runs, each behind a gap. -/
def appendRuns (bits : UInt64) (width : Int) : List Int → Option (UInt64 × Int)
  | [] => some (bits, width)
  | length :: rest =>
    match appendRun (bits <<< 1) (Word.wrap (width + 1)) length with
    | none => none
    | some (bits, width) => appendRuns bits width rest

/-- The pattern of ranges of the given lengths, absent if it is too wide. -/
def ofLengths : List Int → Pattern
  | [] => ⟨1⟩
  | length :: rest =>
    match appendRun 1 0 length with
    | none => absent
    | some (bits, width) =>
      match appendRuns bits width rest with
      | none => absent
      | some (bits, _) => ⟨bits⟩

/-- The number of positions and gaps. -/
def width (p : Pattern) : Nat := p.bits.toNat.log2

/-- The bits below the sentinel, highest first: `true` for a position, `false` for a gap. -/
def digits (p : Pattern) : List Bool :=
  (List.range p.width).reverse.map fun i => p.bits.toNat.testBit i

/-- The number of positions. -/
def len (p : Pattern) : Nat := p.digits.count true

/-- The lengths of the runs, given the length `run` of the one that is open. -/
def runLengths (run : Nat) : List Bool → List Nat
  | [] => [run]
  | true :: rest => runLengths (run + 1) rest
  | false :: rest => run :: runLengths 0 rest

/-- The lengths of the ranges, from left to right. -/
def args (p : Pattern) : List Nat := runLengths 0 p.digits

def render (p : Pattern) : String :=
  if p = absent then "<none>"
  else String.ofList (p.digits.map fun position => if position then '1' else '0')

end Pattern

def Span.pattern (s : Span) : Pattern :=
  if s.l2 = unset then .ofLengths [Word.wrap (s.r1 - s.l1)]
  else .ofLengths [Word.wrap (s.r1 - s.l1), Word.wrap (s.r2 - s.l2)]

end Discontinuous
