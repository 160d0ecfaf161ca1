import Discontinuous.Heap

/-!
Agendas: queues with at most one entry for each key. A key that is queued again keeps its place
among equals and its value; at most its priority is lowered.
-/
namespace Discontinuous

inductive PushOutcome where
  /-- The key is queued already, and not for more. -/
  | ignored
  | inserted
  /-- The key is queued already, and its priority has been lowered. -/
  | improved
deriving DecidableEq

def PushOutcome.name : PushOutcome → String
  | ignored => "ignored"
  | inserted => "inserted"
  | improved => "improved"

/-- Figures about the use of an agenda: the most entries at a time, and the pushes of any outcome. -/
structure Effort where
  maxSize : Nat
  pushes : Nat

def Effort.render (e : Effort) : String :=
  "agenda: max size " ++ toString e.maxSize ++ ", pushes " ++ toString e.pushes

structure Agenda (κ α β : Type) [Keyed κ] where
  heap : Heap κ α β
  nextSeq : Nat
  effort : Effort

namespace Agenda

variable {κ α β : Type} [Keyed κ] [Cost α]

def empty : Agenda κ α β := ⟨Heap.empty, 0, ⟨0, 0⟩⟩

/-- Drops all entries, and starts to number and to count anew. -/
def reset (a : Agenda κ α β) : Agenda κ α β :=
  { a with heap.entries := #[], heap.slots := ∅, nextSeq := 0, effort := ⟨0, 0⟩ }

def size (a : Agenda κ α β) : Nat := a.heap.entries.size

/-- Queues a value. The last result is the value that is stored for the key from now on. -/
def push (a : Agenda κ α β) (key : κ) (priority : α) (value : β) :
    Agenda κ α β × PushOutcome × β :=
  let effort := { a.effort with pushes := a.effort.pushes + 1 }
  match a.heap.slot? key with
  | some i =>
    let e := a.heap.entries[i]
    if Cost.le e.priority priority then ({ a with effort }, .ignored, e.value)
    else ({ a with heap := a.heap.reprioritize i priority, effort }, .improved, e.value)
  | none =>
    let heap := a.heap.push ⟨key, priority, value, a.nextSeq⟩
    let size := a.size + 1
    let maxSize := if effort.maxSize < size then size else effort.maxSize
    ({ heap, nextSeq := a.nextSeq + 1, effort := { effort with maxSize } }, .inserted, value)

def pop (a : Agenda κ α β) : Option (Entry κ α β) × Agenda κ α β :=
  let (e, heap) := a.heap.pop
  (e, { a with heap })

def peek? (a : Agenda κ α β) : Option α := a.heap.entries[0]?.map (·.priority)

def priority? (a : Agenda κ α β) (key : κ) : Option α :=
  (a.heap.slot? key).map fun i => a.heap.entries[i].priority

end Agenda

end Discontinuous
