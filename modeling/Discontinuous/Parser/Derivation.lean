import Discontinuous.Parser.Basic

/-!
Derivation trees. They are built from the back pointers of a goal item, and may be shown without
the nodes that binarization has introduced.
-/
namespace Discontinuous

/-- A label covering a span at an inside cost, and the trees below it. Leaves are pre-terminals. -/
inductive Derivation (α : Type) where
  | node (label : Label) (name : String) (span : Span) (cost : α)
      (children : List (Derivation α))

namespace Derivation

variable {α : Type}

def label : Derivation α → Label
  | node l _ _ _ _ => l

def name : Derivation α → String
  | node _ n _ _ _ => n

def span : Derivation α → Span
  | node _ _ s _ _ => s

def cost : Derivation α → α
  | node _ _ _ c _ => c

def children : Derivation α → List (Derivation α)
  | node _ _ _ _ ts => ts

def isLeaf (d : Derivation α) : Bool := d.children.isEmpty

def atPointer (tree? : Int → Option (Derivation α)) : Option Int → Option (List (Derivation α))
  | none => some []
  | some id => (tree? id).map ([·])

/-- The tree of the item at a place. Back pointers lead through no item twice, so the number of
items bounds the depth. -/
def ofItem? (dict : Dictionary) (arena : Arena α) : Nat → Int → Option (Derivation α)
  | 0, _ => none
  | depth + 1, id =>
    match arena.at? id with
    | none => none
    | some it =>
      match atPointer (ofItem? dict arena depth) it.left,
          atPointer (ofItem? dict arena depth) it.right with
      | some left, some right =>
        some (node it.label (dict.name it.label) it.span it.inside (left ++ right))
      | _, _ => none

mutual

def leaves? : Derivation α → Option (List Int)
  | node _ _ s _ ts => if ts.isEmpty then s.positions? else leavesOfAll? ts

def leavesOfAll? : List (Derivation α) → Option (List Int)
  | [] => some []
  | t :: ts =>
    match leaves? t, leavesOfAll? ts with
    | some xs, some ys => some (xs ++ ys)
    | _, _ => none

end

mutual

/-- Removes the inner nodes of artificial labels below the root and gives their children to the
node above. Children are ordered by the first position that they cover. -/
def debinarize (dict : Dictionary) : Derivation α → Derivation α
  | node l n s c ts => node l n s c ((flatten dict ts).mergeSort fun a b => a.span.l1 ≤ b.span.l1)

def flatten (dict : Dictionary) : List (Derivation α) → List (Derivation α)
  | [] => []
  | t :: ts =>
    let t := debinarize dict t
    (if !t.isLeaf && dict.isArtificial t.label then t.children else [t]) ++ flatten dict ts

end

mutual

/-- Bracket notation, where leaves show their positions: `(S (VP (V 1) (N 0)) (A 2))`. -/
def render? : Derivation α → Option String
  | node _ n s _ ts =>
    if ts.isEmpty then
      s.positions?.map fun ps => "(" ++ n ++ String.join (ps.map fun p => " " ++ toString p) ++ ")"
    else (renderAll? ts).map fun text => "(" ++ n ++ text ++ ")"

def renderAll? : List (Derivation α) → Option String
  | [] => some ""
  | t :: ts =>
    match render? t, renderAll? ts with
    | some x, some y => some (" " ++ x ++ y)
    | _, _ => none

end

end Derivation

namespace Parser

variable {α : Type}

inductive DerivationError where
  | none
  /-- A back pointer leads nowhere. -/
  | dangling

def DerivationError.message : DerivationError → String
  | none => "no derivation available"
  | dangling => "no item at a back pointer"

/-- The cheapest derivation of the sentence parsed last. -/
def derivation (p : Parser α) (dict : Dictionary) : Except DerivationError (Derivation α) :=
  match p.state, p.goal with
  | .succeeded, some goal =>
    let arena := p.search.frontier.arena
    match Derivation.ofItem? dict arena arena.size goal with
    | Option.none => .error .dangling
    | some d => .ok (if p.options.debinarize then d.debinarize dict else d)
  | _, _ => .error .none

end Parser

end Discontinuous
