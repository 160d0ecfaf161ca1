import Discontinuous.Keyed

/-!
Yield functions: how the arguments of a clause's left hand side are put together from the
arguments of its children. A child's arguments are consumed in order, so it is enough to know
for every variable which child it comes from.
-/
namespace Discontinuous

inductive Side where
  | left
  | right
deriving DecidableEq

/-- One list per argument of the left hand side, naming the child of each of its variables:
`A(X Y, Z) → B(X, Z) C(Y)` has the yield function `[[left, right], [left]]`. -/
abbrev Yield := List (List Side)

namespace Yield

def arity (y : Yield) : Nat := y.length

def childArity (y : Yield) (side : Side) : Nat := y.flatten.count side

/-- Reads `L` and `R` for variables and `|` between arguments; other characters do not count. -/
def ofShape (shape : String) : Yield :=
  let rec go : List Char → Yield
    | [] => [[]]
    | c :: rest =>
      let y := go rest
      if c = '|' then [] :: y
      else if c = 'L' then extend .left y
      else if c = 'R' then extend .right y
      else y
  go shape.toList
where
  /-- Puts a variable in front of the first argument. -/
  extend (side : Side) : Yield → Yield
    | [] => [[side]]
    | first :: rest => (side :: first) :: rest

def renderList (items : List String) : String := "[" ++ ",".intercalate items ++ "]"

/-- Written with 0 for the left and 1 for the right child, as in `[[0,1],[0]]`. -/
def render (y : Yield) : String :=
  renderList (y.map fun arg => renderList (arg.map fun
    | .left => "0"
    | .right => "1"))

/-- The sides as numbers. -/
def codeOf (arg : List Side) : List Int :=
  arg.map fun
    | .left => 0
    | .right => 1

/-- A greater number than those of the sides tells where an argument ends. -/
theorem codeOf_append_inj {a b : List Side} {u v : List Int}
    (h : codeOf a ++ 2 :: u = codeOf b ++ 2 :: v) : a = b ∧ u = v := by
  induction a generalizing b with
  | nil =>
      cases b with
      | nil => exact ⟨rfl, (List.cons.inj h).2⟩
      | cons side b => cases side <;> simp [codeOf] at h
  | cons side a ih =>
      cases b with
      | nil => cases side <;> simp [codeOf] at h
      | cons side' b =>
          obtain ⟨hside, hrest⟩ := List.cons.inj h
          obtain ⟨rfl, rfl⟩ := ih hrest
          refine ⟨?_, rfl⟩
          cases side <;> cases side' <;> first | rfl | cases hside

theorem flatMap_codeOf_injective {y z : Yield}
    (h : (y.flatMap fun arg => codeOf arg ++ [2]) = z.flatMap fun arg => codeOf arg ++ [2]) :
    y = z := by
  induction y generalizing z with
  | nil =>
      cases z with
      | nil => rfl
      | cons b z => simp at h
  | cons a y ih =>
      cases z with
      | nil => simp at h
      | cons b z =>
          simp only [List.flatMap_cons, List.append_assoc, List.singleton_append] at h
          obtain ⟨rfl, hrest⟩ := codeOf_append_inj h
          rw [ih hrest]

instance : Keyed Yield where
  code y := y.flatMap fun arg => codeOf arg ++ [2]
  code_injective _ _ := flatMap_codeOf_injective

end Yield

end Discontinuous
