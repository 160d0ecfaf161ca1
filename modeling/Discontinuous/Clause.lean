import Discontinuous.Cost
import Discontinuous.Join
import Discontinuous.Label
import Discontinuous.Decimal.Written

/-!
Clauses: weighted rules with one or two children.
-/
namespace Discontinuous

class CostText (α : Type) where
  /-- All digits, as in clauses. -/
  exact : α → String
  /-- Few digits, as in items. -/
  brief : α → String

instance : CostText Float where
  exact := Decimal.written Decimal.exactStyle
  brief := Decimal.written Decimal.briefStyle

/-- The join type is what the yield function is classified as. -/
structure Clause (α : Type) where
  id : Nat
  lhs : Label
  left : Label
  right : Option Label
  yield : Yield
  join : JoinType
  cost : α

namespace Clause

variable {α : Type}

def isUnary (c : Clause α) : Bool := c.right.isNone

/-- What makes two clauses the same but for their costs. -/
structure Shape where
  lhs : Label
  left : Label
  right : Option Label
  yield : Yield

def shape (c : Clause α) : Shape := ⟨c.lhs, c.left, c.right, c.yield⟩

instance : Keyed Shape where
  code s := s.lhs.id :: s.left.id :: match s.right with
    | none => 0 :: Keyed.code s.yield
    | some r => 1 :: r.id :: Keyed.code s.yield
  code_injective a b h := by
    obtain ⟨⟨l⟩, ⟨m⟩, r, y⟩ := a
    obtain ⟨⟨l'⟩, ⟨m'⟩, r', y'⟩ := b
    simp only [List.cons.injEq] at h
    obtain ⟨rfl, rfl, hrest⟩ := h
    rcases r with _ | ⟨⟨r⟩⟩ <;> rcases r' with _ | ⟨⟨r'⟩⟩
    · rw [Keyed.code_injective _ _ (List.cons.inj hrest).2]
    · cases (List.cons.inj hrest).1
    · cases (List.cons.inj hrest).1
    · simp only [List.cons.injEq, true_and] at hrest
      rw [hrest.1, Keyed.code_injective _ _ hrest.2]

end Clause

structure NamedClause (α : Type) where
  lhs : String
  left : String
  right : Option String
  yield : Yield
  join : JoinType
  cost : α

namespace NamedClause

variable {α : Type}

def variableNames : List Char := ['X', 'Y', 'Z', 'U', 'V', 'W']

/-- Gives every variable a name, in order of occurrence, from the `n`-th on. -/
def nameVariables (n : Nat) : Yield → List (List (Side × Char))
  | [] => []
  | arg :: rest =>
    arg.mapIdx (fun i side => (side, variableNames.getD ((n + i) % 6) 'X')) ::
      nameVariables (n + arg.length) rest

def predicate (name : String) (args : List String) : String :=
  name ++ "(" ++ ",".intercalate args ++ ")"

/-- The form `A(XY,Z) → B(X,Z) C(Y) @ cost`. -/
def render [CostText α] (c : NamedClause α) : String :=
  let args := nameVariables 0 c.yield
  let of := fun side => (args.flatten.filter (·.1 == side)).map fun (_, v) => String.singleton v
  let lhs := predicate c.lhs (args.map fun arg => String.ofList (arg.map (·.2)))
  let right := match c.right with
    | none => ""
    | some name => " " ++ predicate name (of .right)
  lhs ++ " → " ++ predicate c.left (of .left) ++ right ++ " @ " ++ CostText.exact c.cost

end NamedClause

end Discontinuous
