import Discontinuous.Text.Composer
import Discontinuous.Text.Decomposition
import Discontinuous.Text.Glyph
import Discontinuous.Text.Hangul

/-!
Canonical composition. A letter with a mark is the same whether it is written as one character or
as two.

A text is composed segment by segment. A segment is a character that combines with nothing before
it and the characters behind it that may; no segment grows beyond a fixed number of marks.
-/
namespace Discontinuous.Text

/-- Below this character nothing decomposes, combines or is composed of anything. -/
def firstComposite : Nat := 0xC0

def isPlain : Glyph → Bool
  | .char c => c.toNat < firstComposite
  | .stray _ => true

def tableOf (rows : List (List Nat)) : Map Nat (List Nat) :=
  rows.foldl (fun table row =>
    match row with
    | [] => table
    | key :: value => table.insert key value) ∅

def decompositions : Map Nat (List Nat) := tableOf (compositeRows ++ oneWayRows)

/-- The lower sixteen bits of two characters. Pairs that compose are told apart by them alone. -/
def pairCode (a b : Nat) : Nat := a % 0x10000 * 0x10000 + b % 0x10000

/-- From the code of a pair to the character that is composed of it. -/
def composites : Map Nat Nat :=
  compositeRows.foldl (fun table row =>
    match row with
    | [c, a, b] => table.insert (pairCode a b) c
    | _ => table) ∅

def seconds : Map Nat Unit :=
  compositeRows.foldl (fun table row =>
    match row with
    | [_, _, b] => table.insert b ()
    | _ => table) ∅

/-- Rows of a number and runs of characters, as a list of runs with their numbers. -/
def numberedRuns (rows : List (List Nat)) : List (Nat × Nat × Nat) :=
  rows.flatMap fun
    | [] => []
    | k :: runs => (Table.pairUp runs).map fun (first, last) => (k, first, last)

def numberIn (runs : List (Nat × Nat × Nat)) (n : Nat) : Option Nat :=
  (runs.find? fun (_, first, last) => first ≤ n && n ≤ last).map (·.1)

def classes : List (Nat × Nat × Nat) := numberedRuns classRows

/-- The combining class: 0 for a character that others combine with. -/
def combiningClass (n : Nat) : Nat := if n < 0x300 then 0 else (numberIn classes n).getD 0

def joinsBack (n : Nat) : Bool :=
  (seconds.get? n).isSome || Hangul.isVowel n || Hangul.isTrail n

/-- The full decomposition of a character. No decomposition is nested deeper than `depth`. -/
def decompose (depth : Nat) (n : Nat) : List Nat :=
  match depth with
  | 0 => [n]
  | depth + 1 =>
    if Hangul.isSyllable n then Hangul.parts n
    else match decompositions.get? n with
    | none => [n]
    | some parts => parts.flatMap (decompose depth)

def maxDepth : Nat := 5

/-- A character with its combining class, or a stray byte, which nothing combines with. -/
inductive Piece where
  | mark (n k : Nat)
  | stray (b : UInt8)

namespace Piece

def rank : Piece → Nat
  | mark _ k => k
  | stray _ => 0

def glyph : Piece → Glyph
  | mark n _ => .char (Char.ofNat n)
  | stray b => .stray b

def ofGlyph : Glyph → List Piece
  | .char c => (decompose maxDepth c.toNat).map fun n => .mark n (combiningClass n)
  | .stray b => [.stray b]

/-- Whether a piece counts as a mark: it is sorted by class, or may compose with what is before. -/
def isMark : Piece → Bool
  | mark n k => k != 0 || joinsBack n
  | stray _ => false

end Piece

/-! Segments. -/

def trailing : List (Nat × Nat × Nat) := numberedRuns trailingRows

def isDisguised (n : Nat) : Bool := disguisedRuns.any fun (first, last) => first ≤ n && n ≤ last

/-- The number of marks at the end of a character that is written out. -/
def trailingMarks (n : Nat) : Nat :=
  if isDisguised n then 1
  else match numberIn trailing n with
  | some k => k
  | none => ((Piece.ofGlyph (.char (Char.ofNat n))).reverse.takeWhile Piece.isMark).length

/-- Whether a character continues a segment, because it is or starts with a mark. -/
def continues (n : Nat) : Bool :=
  isDisguised n || (Piece.ofGlyph (.char (Char.ofNat n))).head?.any Piece.isMark

/-- The most marks of a segment. Before a further one a joiner is set, which ends the segment. -/
def maxMarks : Nat := 30

def joiner : Piece := .mark 0x34F 0

/-- Puts a mark behind all marks of the same or a lower class, given the pieces of a segment from
the last to the first. -/
def insertPiece (p : Piece) : List Piece → List Piece
  | [] => [p]
  | q :: rest => if p.rank ≠ 0 ∧ p.rank < q.rank then q :: insertPiece p rest else p :: q :: rest

/-- The segments of a text with marks in order, given the pieces of the current segment from the
last to the first and the number of its marks. -/
def segments (current : List Piece) (count : Nat) : Text → List (List Piece)
  | [] => [current.reverse]
  | .stray b :: rest => current.reverse :: segments [.stray b] 0 rest
  | .char c :: rest =>
    let n := c.toNat
    let pieces := Piece.ofGlyph (.char c)
    let enter := pieces.foldl (fun segment p => insertPiece p segment)
    let marks := trailingMarks n
    if !continues n then current.reverse :: segments (enter []) marks rest
    else if maxMarks < count + marks then
      (joiner :: current).reverse :: segments (enter []) marks rest
    else segments (enter current) (count + marks) rest

/-! Composition. -/

/-- A segment in the course of composition: the piece that others compose with, and the pieces on
both sides of it, each side from the last to the first. -/
structure Cluster where
  front : List Piece
  base : Piece
  back : List Piece

namespace Cluster

def pieces (s : Cluster) : List Piece := s.front.reverse ++ s.base :: s.back.reverse

def lastRank (s : Cluster) : Nat := (s.back.headD s.base).rank

def push (s : Cluster) (p : Piece) : Cluster := { s with back := p :: s.back }

/-- Lets the last piece be the base, if it is not a mark. -/
def settle (s : Cluster) : Cluster :=
  match s.back with
  | [] => s
  | p :: rest => if p.rank = 0 then ⟨rest ++ s.base :: s.front, p, []⟩ else s

/-- Whether a mark of the same or a higher class stands between the base and a piece. -/
def blocks (s : Cluster) (p : Piece) : Bool := !s.back.isEmpty && p.rank ≤ s.lastRank

/-- Composes the base with a piece that nothing blocks. -/
def compose (join? : Nat → Nat → Option Nat) (s : Cluster) (p : Piece) : Cluster :=
  if s.blocks p then s.push p
  else match s.base, p with
  | .mark a _, .mark b _ =>
    match join? a b with
    | some c => { s with base := .mark c 0 }
    | none => s.push p
  | _, _ => s.push p

/-- Adds a piece. Once a letter of Hangul has been met, only syllables are composed. -/
def add (s : Cluster × Bool) (p : Piece) : Cluster × Bool :=
  let (s, inHangul) := s
  match p with
  | .stray _ => (s.push p, inHangul)
  | .mark n _ =>
    if inHangul || Hangul.isLetter n then (s.settle.compose Hangul.syllable? p, true)
    else if joinsBack n then
      (s.settle.compose (fun a b => composites.get? (pairCode a b)) p, false)
    else (s.push p, false)

end Cluster

def composeSegment : List Piece → List Piece
  | [] => []
  | p :: rest => (rest.foldl Cluster.add (⟨[], p, []⟩, false)).1.pieces

/-! The whole text. -/

/-- The number of bytes of a character that starts with a given byte. -/
def widthOf (lead : UInt8) : Nat :=
  if lead < 0xC2 then 1 else if lead < 0xE0 then 2 else if lead < 0xF0 then 3
  else if lead < 0xF8 then 4 else 1

/-- Whether a text starts with a byte whose character is cut off by the end of the text. -/
def isCut : Text → Bool
  | .stray b :: rest => 1 + (bytes rest).length < widthOf b
  | _ => false

/-- Splits off the end of a text from the first character that is cut off. -/
def splitCut : Text → Text × Text
  | [] => ([], [])
  | g :: rest =>
    if isCut (g :: rest) then ([], g :: rest)
    else
      let (whole, cut) := splitCut rest
      (g :: whole, cut)

/-- Canonical composition. The end of a text in the middle of a character stays as it is. -/
def canonical (t : Text) : Text :=
  if t.all isPlain then t
  else
    let (whole, cut) := splitCut t
    (((segments [] 0 whole).flatMap composeSegment).map Piece.glyph) ++ cut

/-- Texts are compared in their canonical composition. -/
instance : Composer where
  compose := canonical

end Discontinuous.Text
