import Discontinuous.Join
import Discontinuous.Script.Line

/-!
Variables of a clause. Every variable of a child stands once on the left hand side, in the order of
the child's arguments, and nothing else stands there.
-/
namespace Discontinuous.Script

inductive BindingError where
  | notSingle (position : Nat) (label : String)
  | usedTwice (name : String)
  | unbound (name : String)
  /-- A child's variables stand in another order than its arguments. -/
  | outOfOrder (label : String)
  | unused (name : String)

def BindingError.message : BindingError → String
  | notSingle position label =>
    "argument " ++ toString position ++ " of " ++ label ++
      " is not a single variable: syntax error"
  | usedTwice name => "variable " ++ name ++ " used twice: syntax error"
  | unbound name => "variable " ++ name ++ " not bound by a child: syntax error"
  | outOfOrder label => "variables of " ++ label ++ " out of order: unsupported grammar shape"
  | unused name => "variable " ++ name ++ " unused: syntax error"

/-- A variable that a child binds as its `index`-th argument. -/
structure Binding where
  name : String
  side : Side
  index : Nat

namespace Binding

/-- Adds the variables of a child's arguments, from the `index`-th on. -/
def ofArgs (label : String) (side : Side) (bound : List Binding) (index : Nat) :
    List (List String) → Except BindingError (List Binding)
  | [] => .ok bound
  | [name] :: rest =>
    if bound.any fun b => b.name == name then .error (.usedTwice name)
    else ofArgs label side (bound ++ [⟨name, side, index⟩]) (index + 1) rest
  | _ :: _ => .error (.notSingle (index + 1) label)

def ofChildren (left : Predicate) (right : Option Predicate) :
    Except BindingError (List Binding) :=
  match ofArgs left.label .left [] 0 left.args, right with
  | .error e, _ => .error e
  | .ok bound, none => .ok bound
  | .ok bound, some right => ofArgs right.label .right bound 0 right.args

end Binding

/-- The variables that are still to be used, and the number of those used of each child. -/
structure Unused where
  bound : List Binding
  left : Nat
  right : Nat

namespace Unused

def next (u : Unused) : Side → Nat
  | .left => u.left
  | .right => u.right

/-- Uses a variable, which has to be the next of its child. -/
def use (label : Side → String) (u : Unused) (name : String) :
    Except BindingError (Side × Unused) :=
  match u.bound.find? fun b => b.name == name with
  | none => .error (.unbound name)
  | some b =>
    if b.index ≠ u.next b.side then .error (.outOfOrder (label b.side))
    else
      let bound := u.bound.filter fun b => b.name != name
      match b.side with
      | .left => .ok (.left, ⟨bound, u.left + 1, u.right⟩)
      | .right => .ok (.right, ⟨bound, u.left, u.right + 1⟩)

def useArg (label : Side → String) (u : Unused) :
    List String → Except BindingError (List Side × Unused)
  | [] => .ok ([], u)
  | name :: rest =>
    match u.use label name with
    | .error e => .error e
    | .ok (side, u) =>
      match useArg label u rest with
      | .error e => .error e
      | .ok (sides, u) => .ok (side :: sides, u)

def useArgs (label : Side → String) (u : Unused) :
    List (List String) → Except BindingError (Yield × Unused)
  | [] => .ok ([], u)
  | arg :: rest =>
    match u.useArg label arg with
    | .error e => .error e
    | .ok (sides, u) =>
      match useArgs label u rest with
      | .error e => .error e
      | .ok (y, u) => .ok (sides :: y, u)

end Unused

def yieldOf (lhs left : Predicate) (right : Option Predicate) : Except BindingError Yield :=
  match Binding.ofChildren left right with
  | .error e => .error e
  | .ok bound =>
    let label := fun
      | Side.left => left.label
      | Side.right => (right.map (·.label)).getD ""
    match Unused.useArgs label ⟨bound, 0, 0⟩ lhs.args with
    | .error e => .error e
    | .ok (y, u) =>
      match u.bound with
      | [] => .ok y
      | b :: _ => .error (.unused b.name)

end Discontinuous.Script
