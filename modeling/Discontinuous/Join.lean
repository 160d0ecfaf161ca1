import Discontinuous.Span
import Discontinuous.Yield

/-!
Join types: the closed set of ways in which a clause stitches the ranges of one or two children
together. A clause belongs to a join type by its yield function.
-/
namespace Discontinuous

/-- In the comments `B` is the left child and `C` the right one. -/
inductive JoinType where
  | copyOne       -- A(X) → B(X)
  | copyTwo       -- A(X,Y) → B(X,Y)
  | concat        -- A(XY) → B(X) C(Y)
  | juxtapose     -- A(X,Y) → B(X) C(Y)
  | fillGap       -- A(XYZ) → B(X,Z) C(Y)
  | appendSecond  -- A(X,YZ) → B(X,Y) C(Z)
  | prependSecond -- A(X,YZ) → B(X,Z) C(Y)
  | appendFirst   -- A(XY,Z) → B(X,Z) C(Y)
  | prependFirst  -- A(XY,Z) → B(X) C(Y,Z)
  | zip           -- A(XY,ZU) → B(X,Z) C(Y,U)
  | nest          -- A(XY,ZU) → B(X,U) C(Y,Z)
  | wrapSecond    -- A(X,YZU) → B(X,Z) C(Y,U)
  | wrapFirst     -- A(XYZ,U) → B(X,Z) C(Y,U)
  | interlock     -- A(XYZU) → B(X,Z) C(Y,U)
deriving DecidableEq

namespace JoinType

def all : List JoinType :=
  [copyOne, copyTwo, concat, juxtapose, fillGap, appendSecond, prependSecond, appendFirst,
    prependFirst, zip, nest, wrapSecond, wrapFirst, interlock]

def code : JoinType → Nat
  | copyOne => 1
  | copyTwo => 2
  | concat => 3
  | juxtapose => 4
  | fillGap => 5
  | appendSecond => 6
  | prependSecond => 7
  | appendFirst => 8
  | prependFirst => 9
  | zip => 10
  | nest => 11
  | wrapSecond => 12
  | wrapFirst => 13
  | interlock => 14

def ofCode? (n : Nat) : Option JoinType := all.find? fun jt => jt.code == n

def name : JoinType → String
  | copyOne => "CopyOne"
  | copyTwo => "CopyTwo"
  | concat => "Concat"
  | juxtapose => "Juxtapose"
  | fillGap => "FillGap"
  | appendSecond => "AppendSecond"
  | prependSecond => "PrependSecond"
  | appendFirst => "AppendFirst"
  | prependFirst => "PrependFirst"
  | zip => "Zip"
  | nest => "Nest"
  | wrapSecond => "WrapSecond"
  | wrapFirst => "WrapFirst"
  | interlock => "Interlock"

def yield : JoinType → Yield
  | copyOne => [[.left]]
  | copyTwo => [[.left], [.left]]
  | concat => [[.left, .right]]
  | juxtapose => [[.left], [.right]]
  | fillGap => [[.left, .right, .left]]
  | appendSecond => [[.left], [.left, .right]]
  | prependSecond => [[.left], [.right, .left]]
  | appendFirst => [[.left, .right], [.left]]
  | prependFirst => [[.left, .right], [.right]]
  | zip => [[.left, .right], [.left, .right]]
  | nest => [[.left, .right], [.right, .left]]
  | wrapSecond => [[.left], [.right, .left, .right]]
  | wrapFirst => [[.left, .right, .left], [.right]]
  | interlock => [[.left, .right, .left, .right]]

/-- The types of clauses with a single child, which pass its ranges on. -/
def isUnary : JoinType → Bool
  | copyOne | copyTwo => true
  | _ => false

def arity (jt : JoinType) : Nat := jt.yield.arity

/-- The number of ranges of a child, 0 for the missing right child of a unary type. -/
def childArity (jt : JoinType) (side : Side) : Nat := jt.yield.childArity side

end JoinType

inductive ShapeError where
  | unknown (y : Yield)
  /-- The join type is one for two children, and the clause has one. -/
  | binaryShape (y : Yield)
  /-- The join type is one for a single child, and the clause has two. -/
  | unaryShape (y : Yield)

def ShapeError.message (e : ShapeError) : String :=
  let text := match e with
    | unknown y => "yield function " ++ y.render
    | binaryShape y => "yield function " ++ y.render ++ " for unary clause"
    | unaryShape y => "yield function " ++ y.render ++ " for binary clause"
  text ++ ": unsupported grammar shape"

/-- The join type of a clause with this yield function and, if `unary`, a single child. -/
def Yield.classify (y : Yield) (unary : Bool) : Except ShapeError JoinType :=
  match JoinType.all.find? fun jt => jt.yield == y with
  | none => .error (.unknown y)
  | some jt =>
    if jt.isUnary = unary then .ok jt
    else if unary then .error (.binaryShape y)
    else .error (.unaryShape y)

namespace JoinType

/-- The parent's span, given the spans `b` and `c` of its children; `none` if their ranges do not
meet as the type prescribes. A unary type takes no notice of `c`. -/
def join (jt : JoinType) (b c : Span) : Option Span :=
  if b.arity ≠ jt.childArity .left ∨ jt.childArity .right ≠ 0 ∧ c.arity ≠ jt.childArity .right then
    none
  else match jt with
  | copyOne | copyTwo => some b
  | concat => if c.l1 = b.r1 then some (.one b.l1 c.r1) else none
  | juxtapose => if c.l1 > b.r1 then some (.two b.l1 b.r1 c.l1 c.r1) else none
  | fillGap => if c.l1 = b.r1 ∧ c.r1 = b.l2 then some (.one b.l1 b.r2) else none
  | appendSecond => if c.l1 = b.r2 then some (.two b.l1 b.r1 b.l2 c.r1) else none
  | prependSecond =>
    if c.l1 > b.r1 ∧ c.r1 = b.l2 then some (.two b.l1 b.r1 c.l1 b.r2) else none
  | appendFirst =>
    if c.l1 = b.r1 ∧ c.r1 < b.l2 then some (.two b.l1 c.r1 b.l2 b.r2) else none
  | prependFirst => if c.l1 = b.r1 then some (.two b.l1 c.r1 c.l2 c.r2) else none
  | zip =>
    if c.l1 = b.r1 ∧ c.r1 < b.l2 ∧ c.l2 = b.r2 then some (.two b.l1 c.r1 b.l2 c.r2) else none
  | nest => if c.l1 = b.r1 ∧ c.r2 = b.l2 then some (.two b.l1 c.r1 c.l2 b.r2) else none
  | wrapSecond =>
    if c.l1 > b.r1 ∧ c.r1 = b.l2 ∧ c.l2 = b.r2 then some (.two b.l1 b.r1 c.l1 c.r2) else none
  | wrapFirst =>
    if c.l1 = b.r1 ∧ c.r1 = b.l2 ∧ c.l2 > b.r2 then some (.two b.l1 b.r2 c.l2 c.r2) else none
  | interlock =>
    if c.l1 = b.r1 ∧ c.r1 = b.l2 ∧ c.l2 = b.r2 then some (.one b.l1 c.r2) else none

end JoinType

/-- One of the four boundaries of a span, or none in particular. -/
inductive Boundary where
  | any
  | start
  | stop
  | secondStart
  | secondStop
deriving DecidableEq

namespace Boundary

def name : Boundary → String
  | any => "any"
  | start => "start"
  | stop => "end"
  | secondStart => "second-start"
  | secondStop => "second-end"

def all : List Boundary := [any, start, stop, secondStart, secondStop]

def code : Boundary → Nat
  | any => 0
  | start => 1
  | stop => 2
  | secondStart => 3
  | secondStop => 4

def ofCode? (n : Nat) : Option Boundary := all.find? fun b => b.code == n

def of (b : Boundary) (s : Span) : Int :=
  match b with
  | any => Span.unset
  | start => s.l1
  | stop => s.r1
  | secondStart => s.l2
  | secondStop => s.r2

end Boundary

/-- Candidates for a sibling: the items of a number of ranges that share a boundary. -/
structure Query where
  arity : Nat
  boundary : Boundary
  pos : Int
deriving DecidableEq

namespace JoinType

/-- Where the right child is to be found if the left one covers `b`. Whoever is found still has
to join. -/
def rightSibling (jt : JoinType) (b : Span) : Option Query :=
  match jt with
  | copyOne | copyTwo => none
  | concat | fillGap | appendFirst => some ⟨1, .start, b.r1⟩
  | juxtapose => some ⟨1, .any, 0⟩
  | appendSecond => some ⟨1, .start, b.r2⟩
  | prependSecond => some ⟨1, .stop, b.l2⟩
  | prependFirst | zip | nest | wrapFirst | interlock => some ⟨2, .start, b.r1⟩
  | wrapSecond => some ⟨2, .stop, b.l2⟩

/-- Where the left child is to be found if the right one covers `c`. -/
def leftSibling (jt : JoinType) (c : Span) : Option Query :=
  match jt with
  | copyOne | copyTwo => none
  | concat | prependFirst => some ⟨1, .stop, c.l1⟩
  | juxtapose => some ⟨1, .any, 0⟩
  | fillGap | appendFirst | zip | nest | wrapFirst | interlock => some ⟨2, .stop, c.l1⟩
  | appendSecond => some ⟨2, .secondStop, c.l1⟩
  | prependSecond | wrapSecond => some ⟨2, .secondStart, c.r1⟩

end JoinType

end Discontinuous
