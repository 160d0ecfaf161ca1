import Discontinuous.Clause
import Discontinuous.Dictionary
import Discontinuous.Text.Quoted

/-!
Grammars. Clauses are added one by one; each is classified, and the number of ranges of every label
is settled by its first use. Clauses are found by their left hand side and by their children.
-/
namespace Discontinuous

inductive GrammarError where
  | badCost (subject : String)
  | badShape (lhs : String) (e : ShapeError)
  /-- A label that is used with another arity than registered. -/
  | arityMismatch (name : String) (registered used : Nat)
  /-- A label that one clause uses with two arities. -/
  | twoArities (name : String) (first second : Nat)
  | unknownLabel (name : String)

def GrammarError.message : GrammarError → String
  | badCost subject => subject ++ ": cost must not be negative"
  | badShape lhs e => "clause for " ++ lhs ++ ": " ++ e.message
  | arityMismatch name registered used =>
    "label " ++ name ++ " has arity " ++ toString registered ++ ", used with " ++ toString used ++
      ": label used with inconsistent arity"
  | twoArities name first second =>
    "label " ++ name ++ " used with arities " ++ toString first ++ " and " ++ toString second ++
      ": label used with inconsistent arity"
  | unknownLabel name => Text.quotedString name ++ ": unknown label"

structure Grammar (α : Type) where
  dict : Dictionary
  start : Label
  clauses : Array (Clause α)
  /-- Clause numbers by left hand side, left child and right child. -/
  lhsIndex : Map Label (Array Nat)
  leftIndex : Map Label (Array Nat)
  rightIndex : Map Label (Array Nat)
  arities : Map Label Nat
  preterminals : Map Label Unit
  shapes : Map Clause.Shape Nat

namespace Grammar

variable {α : Type} [Composer]

def new (start : String) : Grammar α :=
  let (dict, start) := Dictionary.empty.intern start
  { dict, start, clauses := #[], lhsIndex := ∅, leftIndex := ∅, rightIndex := ∅
    arities := (∅ : Map Label Nat).insert start 1, preterminals := ∅, shapes := ∅ }

def label (g : Grammar α) (name : String) : Except GrammarError Label :=
  match g.dict.lookup? name with
  | some l => .ok l
  | none => .error (.unknownLabel name)

/-- The number of ranges of a label, 0 while it is not settled. -/
def arity (g : Grammar α) (l : Label) : Nat := g.arities.getD l 0

def isPreterminal (g : Grammar α) (l : Label) : Bool := g.preterminals.contains l

def preterminalList (g : Grammar α) : List Label := g.preterminals.keys

def clausesAt (g : Grammar α) (index : Map Label (Array Nat)) (l : Label) : List (Clause α) :=
  (index.getD l #[]).toList.filterMap fun i => g.clauses[i]?

/-- The clauses with this left hand side, in order of addition. -/
def byLhs (g : Grammar α) (l : Label) : List (Clause α) := g.clausesAt g.lhsIndex l

def byLeft (g : Grammar α) (l : Label) : List (Clause α) := g.clausesAt g.leftIndex l

def byRight (g : Grammar α) (l : Label) : List (Clause α) := g.clausesAt g.rightIndex l

def checkArity (g : Grammar α) (l : Label) (used : Nat) : Except GrammarError Unit :=
  match g.arities.get? l with
  | none => .ok ()
  | some registered =>
    if registered = used then .ok () else .error (.arityMismatch (g.dict.name l) registered used)

/-- Checks the uses of labels in a clause against the grammar and against one another. -/
def checkUses (g : Grammar α) (seen : List (Label × Nat)) :
    List (Label × Nat) → Except GrammarError Unit
  | [] => .ok ()
  | (l, used) :: rest =>
    match g.checkArity l used with
    | .error e => .error e
    | .ok () =>
      match seen.lookup l with
      | none => checkUses g ((l, used) :: seen) rest
      | some first =>
        if first = used then checkUses g seen rest
        else .error (.twoArities (g.dict.name l) first used)

def registerUses (arities : Map Label Nat) (uses : List (Label × Nat)) : Map Label Nat :=
  uses.foldl (fun arities (l, used) => arities.insert l used) arities

/-- Registers a pre-terminal, which always has a single range. -/
def addPreterminal (g : Grammar α) (name : String) : Grammar α × Except GrammarError Label :=
  let (dict, l) := g.dict.intern name
  let g := { g with dict }
  match g.checkArity l 1 with
  | .error e => (g, .error e)
  | .ok () =>
    ({ g with arities := g.arities.insert l 1, preterminals := g.preterminals.insert l () }, .ok l)

def appendAt (index : Map Label (Array Nat)) (l : Label) (i : Nat) : Map Label (Array Nat) :=
  index.insert l ((index.getD l #[]).push i)

/-- A clause of the grammar after an addition, and whether it is a new one. -/
structure Addition (α : Type) where
  clause : Clause α
  isNew : Bool

/-- Keeps a clause that is already there, at the cheaper of two costs. -/
def keepCheaper [Cost α] (g : Grammar α) (c : Clause α) (cost : α) : Grammar α × Clause α :=
  if Cost.lt cost c.cost then
    let c := { c with cost }
    ({ g with clauses := g.clauses.setIfInBounds c.id c }, c)
  else (g, c)

def append (g : Grammar α) (c : Clause α) : Grammar α :=
  { g with
    clauses := g.clauses.push c
    shapes := g.shapes.insert c.shape c.id
    lhsIndex := appendAt g.lhsIndex c.lhs c.id
    leftIndex := appendAt g.leftIndex c.left c.id
    rightIndex := match c.right with
      | none => g.rightIndex
      | some r => appendAt g.rightIndex r c.id }

/-- The labels of a clause with their numbers of ranges. -/
def usesOf (c : Clause α) : List (Label × Nat) :=
  (c.lhs, c.join.arity) :: (c.left, c.join.childArity .left) ::
    (c.right.map fun r => (r, c.join.childArity .right)).toList

def addInterned [Cost α] (g : Grammar α) (c : Clause α) :
    Grammar α × Except GrammarError (Addition α) :=
  match g.checkUses [] (usesOf c) with
  | .error e => (g, .error e)
  | .ok () =>
    let g := { g with arities := registerUses g.arities (usesOf c) }
    match (g.shapes.get? c.shape).bind fun i => g.clauses[i]? with
    | some old =>
      let (g, c) := g.keepCheaper old c.cost
      (g, .ok ⟨c, false⟩)
    | none =>
      let c := { c with id := g.clauses.size }
      (g.append c, .ok ⟨c, true⟩)

/-- Classifies a clause and adds it, with a single child if there is no right one. A clause that
is already there keeps the cheaper cost. -/
def addClause [Cost α] (g : Grammar α) (lhs left : String) (right : Option String) (y : Yield)
    (cost : α) : Grammar α × Except GrammarError (Addition α) :=
  if !Cost.isAdmitted cost then (g, .error (.badCost ("clause for " ++ lhs)))
  else match y.classify right.isNone with
  | .error e => (g, .error (.badShape lhs e))
  | .ok join =>
    let (dict, lhs) := g.dict.intern lhs
    let (dict, left) := dict.intern left
    match right with
    | none => { g with dict }.addInterned ⟨0, lhs, left, none, y, join, cost⟩
    | some right =>
      let (dict, right) := dict.intern right
      { g with dict }.addInterned ⟨0, lhs, left, some right, y, join, cost⟩

def named (g : Grammar α) (c : Clause α) : NamedClause α :=
  ⟨g.dict.name c.lhs, g.dict.name c.left, c.right.map g.dict.name, c.yield, c.join, c.cost⟩

end Grammar

end Discontinuous
