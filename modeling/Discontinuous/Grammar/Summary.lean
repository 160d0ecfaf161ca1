import Discontinuous.Grammar.Basic

/-!
Figures about a grammar.
-/
namespace Discontinuous

structure Summary where
  labels : Nat
  preterminals : Nat
  /-- The join types that occur, in order, and the number of clauses of each. -/
  counts : List (JoinType × Nat)

namespace Summary

def count (s : Summary) (jt : JoinType) : Nat := (s.counts.lookup jt).getD 0

def render (s : Summary) : String :=
  toString s.labels ++ " labels, " ++ toString s.preterminals ++
    " pre-terminals; clauses by join type:" ++
    String.join (s.counts.map fun (jt, n) => " " ++ jt.name ++ "=" ++ toString n)

end Summary

def Grammar.summary {α : Type} (g : Grammar α) : Summary where
  labels := g.dict.size
  preterminals := g.preterminals.size
  counts := JoinType.all.filterMap fun jt =>
    match g.clauses.toList.countP fun c => c.join == jt with
    | 0 => none
    | n + 1 => some (jt, n + 1)

end Discontinuous
