import Discontinuous.Agenda
import Discontinuous.Proofs.Heap

/-!
Agendas as sets of entries with one entry for a key. A push leaves the entries of all other keys
alone, and a pop takes away one entry; which one matters only where costs are ordered.
-/
namespace Discontinuous.Agenda

variable {κ α β : Type} [Keyed κ] [Cost α] {a a' : Agenda κ α β}

theorem push_absent (hx : a.heap.Indexed) {key : κ} (hnew : ∀ e ∈ a.heap.entries, e.key ≠ key)
    (priority : α) (value : β) : a.push key priority value =
      (⟨a.heap.push ⟨key, priority, value, a.nextSeq⟩, a.nextSeq + 1,
        max a.effort.maxSize (a.size + 1), a.effort.pushes + 1⟩, .inserted, value) := by
  have hmax : (if a.effort.maxSize < a.size + 1 then a.size + 1 else a.effort.maxSize) =
      max a.effort.maxSize (a.size + 1) := by
    split <;> omega
  simp only [push, (Heap.slot?_eq_none_iff hx).mpr hnew, hmax]

theorem push_present (hx : a.heap.Indexed) {e : Entry κ α β} (he : e ∈ a.heap.entries)
    (priority : α) (value : β) :
    ∃ i : Fin a.heap.entries.size, a.heap.entries[i.val]? = some e ∧
      a.push e.key priority value =
        if Cost.le e.priority priority then
          ({ a with effort := { a.effort with pushes := a.effort.pushes + 1 } }, .ignored, e.value)
        else (⟨a.heap.reprioritize i priority, a.nextSeq,
          { a.effort with pushes := a.effort.pushes + 1 }⟩, .improved, e.value) := by
  cases hs : a.heap.slot? e.key with
  | none => exact absurd rfl ((Heap.slot?_eq_none_iff hx).mp hs e he)
  | some i =>
      obtain ⟨d, hd, hkey⟩ := Heap.exists_entry_of_slot? hx hs
      obtain rfl := hx.unique (Array.mem_of_getElem? hd) he hkey
      have hdi : a.heap.entries[i] = d := (Array.getElem?_eq_some_iff.mp hd).2
      refine ⟨i, hd, ?_⟩
      simp only [push, hs, hdi]

/-- What a push can do. The entries of other keys stay in each case. -/
theorem push_cases (hx : a.heap.Indexed) (key : κ) (priority : α) (value : β) :
    (∃ e ∈ a.heap.entries, e.key = key ∧ Cost.le e.priority priority = true ∧
      (a.push key priority value).1.heap = a.heap ∧
      (a.push key priority value).2 = (.ignored, e.value)) ∨
    (∃ (i : Fin a.heap.entries.size) (e : Entry κ α β), a.heap.entries[i.val]? = some e ∧
      e.key = key ∧ ¬ Cost.le e.priority priority = true ∧
      (a.push key priority value).1.heap = a.heap.reprioritize i priority ∧
      (a.push key priority value).2 = (.improved, e.value)) ∨
    ((∀ e ∈ a.heap.entries, e.key ≠ key) ∧
      (a.push key priority value).1.heap = a.heap.push ⟨key, priority, value, a.nextSeq⟩ ∧
      (a.push key priority value).2 = (.inserted, value)) := by
  by_cases hnew : ∀ e ∈ a.heap.entries, e.key ≠ key
  · rw [push_absent hx hnew]
    exact .inr (.inr ⟨hnew, rfl, rfl⟩)
  · push Not at hnew
    obtain ⟨e, he, rfl⟩ := hnew
    obtain ⟨i, hi, hpush⟩ := push_present hx he priority value
    by_cases hle : Cost.le e.priority priority = true
    · rw [hpush, if_pos hle]
      exact .inl ⟨e, he, rfl, hle, rfl, rfl⟩
    · rw [hpush, if_neg hle]
      exact .inr (.inl ⟨i, e, hi, rfl, hle, rfl, rfl⟩)

theorem indexed_push (hx : a.heap.Indexed) (key : κ) (priority : α) (value : β) :
    (a.push key priority value).1.heap.Indexed := by
  rcases push_cases hx key priority value with
    ⟨e, -, -, -, hheap, -⟩ | ⟨i, -, -, -, -, hheap, -⟩ | ⟨hnew, hheap, -⟩
  · rwa [hheap]
  · rw [hheap]
    exact hx.reprioritize i priority
  · rw [hheap]
    exact hx.push hnew

theorem ordered_push [TotalCost α] (hx : a.heap.Indexed) (ho : a.heap.Ordered) (key : κ)
    (priority : α) (value : β) : (a.push key priority value).1.heap.Ordered := by
  rcases push_cases hx key priority value with
    ⟨e, -, -, -, hheap, -⟩ | ⟨i, e, he, -, hle, hheap, -⟩ | ⟨-, hheap, -⟩
  · rwa [hheap]
  · rw [hheap]
    exact ho.reprioritize he (Cost.le_of_not_le hle)
  · rw [hheap]
    exact ho.push _

omit [Cost α] in
/-- Nothing of the entries, the numbers or the figures is left. -/
theorem reset_eq_empty (a : Agenda κ α β) : a.reset = empty := rfl

theorem pop_of_empty (h : a.size = 0) : a.pop = (none, a) := by
  simp only [pop]
  rw [Heap.pop_eq_none h]

theorem pop_none (hp : a.pop.1 = none) : a.heap.entries.size = 0 ∧ a.pop.2 = a := by
  simp only [pop] at hp ⊢
  by_cases hne : 0 < a.heap.entries.size
  · simp [Heap.pop_eq_some hne] at hp
  · have hempty : a.heap.entries.size = 0 := by omega
    rw [Heap.pop_eq_none hempty]
    exact ⟨hempty, rfl⟩

theorem heap_pop_of_pop {e : Entry κ α β} (hp : a.pop = (some e, a')) :
    a.heap.pop = (some e, a'.heap) := by
  simp only [pop] at hp
  obtain ⟨he, rfl⟩ := Prod.mk.inj hp
  exact Prod.ext he rfl

theorem indexed_pop {e : Entry κ α β} (hx : a.heap.Indexed) (hp : a.pop = (some e, a')) :
    a'.heap.Indexed := by
  have hx' := hx.pop
  rwa [heap_pop_of_pop hp] at hx'

theorem mem_of_pop {e : Entry κ α β} (hp : a.pop = (some e, a')) : e ∈ a.heap.entries :=
  (Heap.pop_perm (heap_pop_of_pop hp)).mem_iff.mp (by simp)

/-- A pop takes away the one entry of its key. -/
theorem mem_pop_iff {e : Entry κ α β} (hx : a.heap.Indexed) (hp : a.pop = (some e, a'))
    (d : Entry κ α β) : d ∈ a'.heap.entries ↔ d ∈ a.heap.entries ∧ d.key ≠ e.key := by
  have hperm := Heap.pop_perm (heap_pop_of_pop hp)
  have hmem : d ∈ a.heap.entries ↔ d ∈ a'.heap.entries ∨ d = e := by
    rw [← hperm.mem_iff, Array.mem_push]
  constructor
  · intro hd
    exact ⟨hmem.mpr (.inl hd), hx.key_ne_of_pop (heap_pop_of_pop hp) hd⟩
  · rintro ⟨hd, hkey⟩
    exact (hmem.mp hd).resolve_right fun heq => hkey (congrArg Entry.key heq)

theorem size_pop {e : Entry κ α β} (hp : a.pop = (some e, a')) : a.size = a'.size + 1 := by
  have hsize := (Heap.pop_perm (heap_pop_of_pop hp)).size_eq
  rw [Array.size_push] at hsize
  exact hsize.symm

section Order

variable [TotalCost α] {e : Entry κ α β}

theorem ordered_pop (ho : a.heap.Ordered) (hp : a.pop = (some e, a')) : a'.heap.Ordered := by
  have ho' := ho.pop
  rwa [heap_pop_of_pop hp] at ho'

theorem pop_le (ho : a.heap.Ordered) (hp : a.pop = (some e, a')) {d : Entry κ α β}
    (hd : d ∈ a.heap.entries) : Cost.le e.priority d.priority = true :=
  ho.pop_le (heap_pop_of_pop hp) hd

/-- The key is queued, for `y` or less. -/
def Offers (a : Agenda κ α β) (k : κ) (y : α) : Prop :=
  ∃ d ∈ a.heap.entries, d.key = k ∧ Cost.le d.priority y = true

omit [TotalCost α] in
theorem mem_push (hx : a.heap.Indexed) {key : κ} {priority : α} {value : β} {d : Entry κ α β}
    (hd : d ∈ (a.push key priority value).1.heap.entries) :
    d ∈ a.heap.entries ∨ (d.key = key ∧ d.priority = priority) := by
  rcases push_cases hx key priority value with
    ⟨-, -, -, -, hheap, -⟩ | ⟨i, e, he, hkey, -, hheap, -⟩ | ⟨-, hheap, -⟩
  · exact .inl (hheap ▸ hd)
  · rw [hheap, Heap.mem_reprioritize hx he] at hd
    rcases hd with rfl | ⟨hd, -⟩
    · exact .inr ⟨hkey, rfl⟩
    · exact .inl hd
  · rw [hheap, Heap.mem_push] at hd
    rcases hd with rfl | hd
    · exact .inr ⟨rfl, rfl⟩
    · exact .inl hd

theorem offers_push (hx : a.heap.Indexed) (key : κ) (priority : α) (value : β) :
    (a.push key priority value).1.Offers key priority := by
  simp only [Offers]
  rcases push_cases hx key priority value with
    ⟨d, hd, hkey, hle, hheap, -⟩ | ⟨i, e, he, hkey, -, hheap, -⟩ | ⟨-, hheap, -⟩
  · exact ⟨d, hheap ▸ hd, hkey, hle⟩
  · rw [hheap]
    exact ⟨_, (Heap.mem_reprioritize hx he priority _).mpr (.inl rfl), hkey, Cost.le_refl _⟩
  · rw [hheap]
    exact ⟨_, (Heap.mem_push _ _).mpr (.inl rfl), rfl, Cost.le_refl _⟩

theorem Offers.push (hx : a.heap.Indexed) {k : κ} {y : α} (h : a.Offers k y) (key : κ)
    (priority : α) (value : β) : (a.push key priority value).1.Offers k y := by
  obtain ⟨d, hd, hkey, hle⟩ := h
  simp only [Offers]
  rcases push_cases hx key priority value with
    ⟨-, -, -, -, hheap, -⟩ | ⟨i, e, he, -, hcheaper, hheap, -⟩ | ⟨-, hheap, -⟩
  · exact ⟨d, hheap ▸ hd, hkey, hle⟩
  · rw [hheap]
    by_cases hsame : d.key = e.key
    · obtain rfl := hx.unique hd (Array.mem_of_getElem? he) hsame
      refine ⟨_, (Heap.mem_reprioritize hx he priority _).mpr (.inl rfl), hkey, ?_⟩
      exact TotalCost.le_trans (Cost.le_of_not_le hcheaper) hle
    · exact ⟨d, (Heap.mem_reprioritize hx he priority d).mpr (.inr ⟨hd, hsame⟩), hkey, hle⟩
  · rw [hheap]
    exact ⟨d, (Heap.mem_push _ _).mpr (.inr hd), hkey, hle⟩

end Order

end Discontinuous.Agenda
