import Discontinuous.Agenda

/-!
Uniform-cost closures. Starting from priced keys, the cheapest key that is queued is settled at its
cost, and what follows from it together with the keys settled before is queued in turn. A settled
key is never queued again.
-/
namespace Discontinuous

/-- How settled keys are kept in a state `σ`, and what follows from them. -/
structure Rules (σ κ α : Type) where
  settle : σ → κ → α → σ
  isSettled : σ → κ → Bool
  consequences : σ → κ → α → List (κ × α)

structure Closure (σ κ α : Type) [Keyed κ] where
  settled : σ
  agenda : Agenda κ α Unit

namespace Closure

variable {σ κ α : Type} [Keyed κ] [Cost α]

def offer (rules : Rules σ κ α) (settled : σ) (agenda : Agenda κ α Unit) (keys : List (κ × α)) :
    Agenda κ α Unit :=
  keys.foldl (fun agenda (key, cost) =>
    if rules.isSettled settled key then agenda else (agenda.push key cost ()).1) agenda

/-- Settles the cheapest keys, until none is queued or `count` of them are settled. -/
def settle (rules : Rules σ κ α) : Nat → Closure σ κ α → Closure σ κ α
  | 0, c => c
  | count + 1, ⟨settled, agenda⟩ =>
    match agenda.pop with
    | (none, agenda) => ⟨settled, agenda⟩
    | (some e, agenda) =>
      let settled := rules.settle settled e.key e.priority
      let keys := rules.consequences settled e.key e.priority
      settle rules count ⟨settled, offer rules settled agenda keys⟩

/-- The closure of the given keys. At most `count` keys can be settled at all. -/
def run (rules : Rules σ κ α) (count : Nat) (start : σ) (keys : List (κ × α)) : Closure σ κ α :=
  settle rules count ⟨start, offer rules start .empty keys⟩

end Closure

end Discontinuous
