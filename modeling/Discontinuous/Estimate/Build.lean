import Discontinuous.Estimate.Outside
import Discontinuous.Trace

/-!
Building estimates of a kind, with the events on the way.
-/
namespace Discontinuous

variable {α : Type} [Cost α]

/-- The inside table of a kind that has one. -/
def Table.estimate (g : Grammar α) (kind : EstimateKind) (maxlen : Int) :
    Except EstimateError (Table α × List (Event α)) :=
  let filled := match kind with
    | .bitset => byPatterns g maxlen
    | _ => byLengths g maxlen
  filled.map fun (t, effort) => (t, [.insideEstimated t.kind.name t.size t.maxlen effort])

/-- The outside estimates, if there is a flat table for them. -/
def Outside.build (g : Grammar α) (inside : Table α) :
    Except EstimateError (Outside α × List (Event α)) :=
  if Cell.Fits g.dict.size inside.maxlen.toNat then
    let (o, effort) := estimate g inside
    .ok (o, [.outsideEstimated o.labels o.maxlen effort])
  else .error (.oversized g.dict.size inside.maxlen)

def Estimates.build (g : Grammar α) (kind : EstimateKind) (maxlen : Int) :
    Except EstimateError (Estimates α × List (Event α)) :=
  match kind with
  | .off => .ok (.zero, [])
  | kind => do
    let (inside, before) ← Table.estimate g kind maxlen
    let (o, after) ← Outside.build g inside
    return (.outside o, before ++ after)

/-- The estimates of the kind with this very name. -/
def Estimates.buildNamed (g : Grammar α) (name : String) (maxlen : Int) :
    Except EstimateError (Estimates α × List (Event α)) :=
  match EstimateKind.ofName? name with
  | none => .error (.unknownKind (Text.ofString name))
  | some kind => build g kind maxlen

end Discontinuous
