import Discontinuous.Cost
import Discontinuous.Keyed

/-!
Binary heaps of keyed entries. An index tells for every key where its entry stands, so that an
entry can be moved after its priority has changed.
-/
namespace Discontinuous

/-- A queued value. Entries of the same priority are told apart by their sequence numbers. -/
structure Entry (κ α β : Type) where
  key : κ
  priority : α
  value : β
  seq : Nat

namespace Entry

variable {κ α β : Type} [Cost α]

/-- The entry `a` is to leave the heap earlier than `b`. -/
def before (a b : Entry κ α β) : Bool :=
  if Cost.same a.priority b.priority then a.seq < b.seq else Cost.lt a.priority b.priority

end Entry

structure Heap (κ α β : Type) [Keyed κ] where
  entries : Array (Entry κ α β)
  slots : Map κ Nat

namespace Heap

variable {κ α β : Type} [Keyed κ] [Cost α]

def empty : Heap κ α β := ⟨#[], ∅⟩

def swap (h : Heap κ α β) (i j : Nat) (hi : i < h.entries.size) (hj : j < h.entries.size) :
    Heap κ α β :=
  let a := h.entries[i].key
  let b := h.entries[j].key
  { entries := h.entries.swap i j hi hj
    slots := (h.slots.insert a j).insert b i }

omit [Cost α] in
theorem size_swap (h : Heap κ α β) (i j : Nat) (hi : i < h.entries.size)
    (hj : j < h.entries.size) : (h.swap i j hi hj).entries.size = h.entries.size :=
  Array.size_swap ..

def parent (i : Nat) : Nat := (i - 1) / 2

/-- Moves an entry towards the root while it is before its parent. -/
def siftUp (h : Heap κ α β) (i : Nat) : Heap κ α β :=
  if hi : 0 < i ∧ i < h.entries.size then
    have hp : parent i < h.entries.size := by unfold parent; omega
    if h.entries[i].before h.entries[parent i] then
      siftUp (h.swap (parent i) i hp hi.2) (parent i)
    else h
  else h
termination_by i
decreasing_by unfold parent; omega

/-- The child that is before the other, if there are children. -/
def firstChild (h : Heap κ α β) (i : Nat) : Option { c : Nat // i < c ∧ c < h.entries.size } :=
  if hl : 2 * i + 1 < h.entries.size then
    if hr : 2 * i + 2 < h.entries.size then
      if h.entries[2 * i + 2].before h.entries[2 * i + 1] then some ⟨2 * i + 2, by omega, hr⟩
      else some ⟨2 * i + 1, by omega, hl⟩
    else some ⟨2 * i + 1, by omega, hl⟩
  else none

/-- Moves an entry away from the root while one of its children is before it. -/
def siftDown (h : Heap κ α β) (i : Nat) : Heap κ α β :=
  match h.firstChild i with
  | none => h
  | some ⟨c, hi, hc⟩ =>
    if h.entries[c].before (h.entries[i]) then
      siftDown (h.swap i c (Nat.lt_trans hi hc) hc) c
    else h
termination_by h.entries.size - i
decreasing_by rw [size_swap]; omega

/-- Whether `siftDown` would move the entry. -/
def sinks (h : Heap κ α β) (i : Nat) : Bool :=
  match h.firstChild i with
  | none => false
  | some ⟨c, hi, hc⟩ =>
    have : i < h.entries.size := Nat.lt_trans hi hc
    h.entries[c].before h.entries[i]

def push (h : Heap κ α β) (e : Entry κ α β) : Heap κ α β :=
  let i := h.entries.size
  siftUp { entries := h.entries.push e, slots := h.slots.insert e.key i } i

def pop (h : Heap κ α β) : Option (Entry κ α β) × Heap κ α β :=
  if hne : 0 < h.entries.size then
    let e := h.entries[0]
    let h := h.swap 0 (h.entries.size - 1) hne (by omega)
    (some e, siftDown { entries := h.entries.pop, slots := h.slots.erase e.key } 0)
  else (none, h)

def slot? (h : Heap κ α β) (key : κ) : Option (Fin h.entries.size) :=
  match h.slots.get? key with
  | none => none
  | some i => if hi : i < h.entries.size then some ⟨i, hi⟩ else none

/-- Gives the entry at `i` another priority, and moves it to where it belongs. -/
def reprioritize (h : Heap κ α β) (i : Fin h.entries.size) (priority : α) : Heap κ α β :=
  let e := { h.entries[i] with priority }
  let h : Heap κ α β := { h with entries := h.entries.set i e }
  if h.sinks i then h.siftDown i else h.siftUp i

end Heap

end Discontinuous
