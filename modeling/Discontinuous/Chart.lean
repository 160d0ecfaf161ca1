import Discontinuous.Item
import Discontinuous.Join

/-!
Charts: which items are proven. They are found by label and span, and by label and one of the
boundaries of their ranges.
-/
namespace Discontinuous

/-- Where items with a boundary in common are listed. -/
structure ChartSlot where
  label : Label
  arity : Nat
  boundary : Boundary
  pos : Int
deriving DecidableEq

theorem Boundary.code_injective {a b : Boundary} (h : a.code = b.code) : a = b := by
  revert h
  cases a <;> cases b <;> simp [code]

instance : Keyed ChartSlot where
  code s := [s.label.id, (s.arity : Int), (s.boundary.code : Int), s.pos]
  code_injective a b h := by
    obtain ⟨⟨l⟩, n, x, p⟩ := a
    obtain ⟨⟨l'⟩, n', x', p'⟩ := b
    simp only [List.cons.injEq, and_true] at h
    obtain ⟨rfl, hn, hx, rfl⟩ := h
    have hn : n = n' := Int.ofNat_inj.mp hn
    have hx : x = x' := Boundary.code_injective (Int.ofNat_inj.mp hx)
    rw [hn, hx]

structure Chart where
  items : Map Key Nat
  index : Map ChartSlot (Array Nat)

namespace Chart

def empty : Chart := ⟨∅, ∅⟩

/-- Drops all items, and whatever is listed of them. -/
def reset (c : Chart) : Chart := { c with items := ∅, index := ∅ }

def size (c : Chart) : Nat := c.items.size

/-- The places of all proven items, in ascending order. -/
def ids (c : Chart) : List Nat := c.items.values.mergeSort fun a b => a ≤ b

def get? (c : Chart) (label : Label) (s : Span) : Option Nat := c.items.get? (.of label s)

def contains (c : Chart) (label : Label) (s : Span) : Bool := c.items.contains (.of label s)

def boundariesOf (s : Span) : List Boundary :=
  if s.arity = 2 then [.any, .start, .stop, .secondStart, .secondStop] else [.any, .start, .stop]

/-- Positions are told apart as half words. Every item is listed under the boundary `any`. -/
def slot (label : Label) (arity : Nat) (b : Boundary) (pos : Int) : ChartSlot :=
  ⟨label, arity, b, if b = .any then 0 else Word.wrapHalf pos⟩

def slotsOf (label : Label) (s : Span) : List ChartSlot :=
  (boundariesOf s).map fun b => slot label s.arity b (b.of s)

def list (index : Map ChartSlot (Array Nat)) (id : Nat) (slots : List ChartSlot) :
    Map ChartSlot (Array Nat) :=
  slots.foldl (fun index k => index.insert k ((index.getD k #[]).push id)) index

def record (c : Chart) (label : Label) (s : Span) (id : Nat) : Chart where
  items := c.items.insert (.of label s) id
  index := list c.index id (slotsOf label s)

/-- Marks an item as proven, unless its label and span are proven already. -/
def insert? {α : Type} (c : Chart) (id : Nat) (it : Item α) : Option Chart :=
  if c.contains it.label it.span then none else some (c.record it.label it.span id)

/-- The proven items of a label and a number of ranges that share a boundary, oldest first. -/
def lookup (c : Chart) (label : Label) (q : Query) : List Nat :=
  (c.index.getD (slot label q.arity q.boundary q.pos) #[]).toList

/-- The number of keys that can still be proven. -/
def room (c : Chart) : Nat := 0x10000000000000000 - c.size

theorem length_le_of_nodup (n : Nat) (l : List Nat) (hd : l.Nodup) (hlt : ∀ x ∈ l, x < n) :
    l.length ≤ n := by
  induction n generalizing l with
  | zero =>
    cases l with
    | nil => simp
    | cons x _ => exact absurd (hlt x (by simp)) (by omega)
  | succ n ih =>
    have hle := ih (l.erase n) (hd.erase n) fun x hx => by
      have hlt := hlt x (List.mem_of_mem_erase hx)
      have hne : x ≠ n := (hd.mem_erase_iff.mp hx).1
      omega
    have hlen := @List.length_erase _ _ _ n l
    split at hlen <;> omega

theorem size_le (c : Chart) : c.size ≤ 0x10000000000000000 := by
  have h := length_le_of_nodup 0x10000000000000000 (c.items.keys.map fun k => k.bits.toNat) ?_ ?_
  · simpa [size] using h
  · refine List.pairwise_map.mpr (c.items.distinct_keys.imp fun {a b} hne heq => hne ?_)
    have : a = b := by
      cases a
      cases b
      simpa using UInt64.toNat_inj.mp heq
    subst this
    exact Std.ReflCmp.compare_self
  · intro x hx
    obtain ⟨k, _, rfl⟩ := List.mem_map.mp hx
    exact k.bits.toNat_lt

theorem room_record_lt {c : Chart} {label : Label} {s : Span} (id : Nat)
    (h : c.contains label s = false) : (c.record label s id).room < c.room := by
  have hle := (c.record label s id).size_le
  have hs : (c.record label s id).size = c.size + 1 := by
    unfold size record contains at *
    rw [Std.TreeMap.size_insert]
    simp_all
  unfold room
  omega

end Chart

end Discontinuous
