import Discontinuous.Keyed

/-!
Labels: interned grammar symbols, either non-terminals or pre-terminals.
-/
namespace Discontinuous

/-- Labels are numbered in order of first occurrence, from zero. -/
structure Label where
  id : Int
deriving DecidableEq

instance : Keyed Label where
  code l := [l.id]
  code_injective a b h := by
    cases a
    cases b
    simpa using h

end Discontinuous
