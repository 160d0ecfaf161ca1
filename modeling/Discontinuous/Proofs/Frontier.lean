import Discontinuous.Parser.Search
import Discontinuous.Proofs.Agenda
import Discontinuous.Proofs.Chart

/-!
Frontiers beside a chart. Queued items stand in the arena under the key and the priority of their
entries, nothing that is proven is queued, and queuing an item touches no proven one.
-/
namespace Discontinuous

namespace Arena

variable {α : Type}

/-- The place made last is the one that is given back. -/
theorem release_add (a : Arena α) (it : Item α) : (a.add it).1.release (a.add it).2 = a := by
  simp [add, release]

/-- What is overwritten stays so when the place made last is given back. -/
theorem release_set_add (a : Arena α) (it : Item α) (n : Nat) :
    Arena.release ((a.add it).1.setIfInBounds n it) (a.add it).2 = a.setIfInBounds n it := by
  have hsize : (a.add it).2 + 1 = ((a.add it).1.setIfInBounds n it).size := by
    simp [add]
  unfold release
  rw [if_pos hsize]
  refine Array.ext_getElem? fun i => ?_
  simp only [add, Array.getElem?_pop, Array.getElem?_setIfInBounds, Array.size_setIfInBounds,
    Array.size_push, Array.getElem?_push]
  grind

end Arena

namespace Frontier

variable {α : Type} {chart : Chart} {good : Item α → Prop} {f : Frontier α}
  {p : Problem α}

/-- Every queued item is `good`. The arena holds the queued items and the proven ones, and no
others. -/
structure Sound (chart : Chart) (good : Item α → Prop) (f : Frontier α) : Prop where
  indexed : f.agenda.heap.Indexed
  agrees : chart.Agrees f.arena
  queued : ∀ e ∈ f.agenda.heap.entries, ∃ it, f.arena[e.value]? = some it ∧ it.key = e.key ∧
    it.total = e.priority ∧ good it ∧ chart.items[e.key]? = none
  balance : chart.size + f.agenda.size = f.arena.size

/-- Places that are proven are not queued. -/
theorem Sound.value_ne (h : f.Sound chart good) {e : Entry Key α Nat}
    (he : e ∈ f.agenda.heap.entries) {k : Key} {id : Nat} (hk : chart.items[k]? = some id) :
    e.value ≠ id := by
  rintro rfl
  obtain ⟨it, hit, hkey, -, -, hnew⟩ := h.queued e he
  obtain ⟨it', hit', rfl⟩ := h.agrees.items k _ hk
  cases hit.symm.trans hit'
  rw [← hkey, hk] at hnew
  cases hnew

/-- What is known of queued items may be put in other terms. -/
theorem Sound.mono (h : f.Sound chart good) {good' : Item α → Prop}
    (hle : ∀ it, good it → good' it) : f.Sound chart good' := by
  refine ⟨h.indexed, h.agrees, ?_, h.balance⟩
  intro e he
  obtain ⟨it, hit, hkey, htotal, hgood, hnew⟩ := h.queued e he
  exact ⟨it, hit, hkey, htotal, hle it hgood, hnew⟩

@[simp] theorem tellIf_arena (f : Frontier α) (b : Bool) (e : Event α) :
    (f.tellIf b e).arena = f.arena := by
  cases b <;> rfl

@[simp] theorem tellIf_agenda (f : Frontier α) (b : Bool) (e : Event α) :
    (f.tellIf b e).agenda = f.agenda := by
  cases b <;> rfl

variable [Cost α]

/-- The item of a popped entry can be recorded. -/
theorem Sound.record (h : f.Sound chart good) {f' : Frontier α} {e : Entry Key α Nat}
    {it : Item α} (hpop : f.agenda.pop = (some e, f'.agenda)) (hit : f.arena[e.value]? = some it)
    (harena : f'.arena = f.arena) : f'.Sound (chart.record it.label it.span e.value) good := by
  obtain ⟨x, hx, hkey, -, -, hnew⟩ := h.queued e (Agenda.mem_of_pop hpop)
  cases hit.symm.trans hx
  have hnew : chart.items[it.key]? = none := hkey ▸ hnew
  refine ⟨?_, ?_, ?_, ?_⟩
  · exact Agenda.indexed_pop h.indexed hpop
  · rw [harena]
    exact h.agrees.record hit hnew
  · intro d hd
    obtain ⟨hd, hne⟩ := (Agenda.mem_pop_iff h.indexed hpop d).mp hd
    obtain ⟨y, hy, hykey, htotal, hgood, hynew⟩ := h.queued d hd
    refine ⟨y, harena ▸ hy, hykey, htotal, hgood, ?_⟩
    refine (Map.getElem?_insert_of_ne _ ?_ _).trans hynew
    rw [show Key.of it.label it.span = it.key from rfl, hkey]
    exact hne
  · have hbalance := h.balance
    rw [Chart.size_record e.value hnew, harena, ← hbalance, Agenda.size_pop hpop]
    omega

/-- The three ways in which queuing an item can go. -/
theorem enqueue_cases (hx : f.agenda.heap.Indexed) (p : Problem α) (it : Item α) :
    (∃ e ∈ f.agenda.heap.entries, e.key = it.key ∧ Cost.le e.priority it.total = true ∧
      (f.enqueue p it).agenda.heap = f.agenda.heap ∧ (f.enqueue p it).arena = f.arena) ∨
    (∃ (i : Fin f.agenda.heap.entries.size) (e : Entry Key α Nat),
      f.agenda.heap.entries[i.val]? = some e ∧ e.key = it.key ∧
      ¬ Cost.le e.priority it.total = true ∧
      (f.enqueue p it).agenda.heap = f.agenda.heap.reprioritize i it.total ∧
      (f.enqueue p it).arena = f.arena.setIfInBounds e.value it) ∨
    ((∀ e ∈ f.agenda.heap.entries, e.key ≠ it.key) ∧
      (f.enqueue p it).agenda.heap =
        f.agenda.heap.push ⟨it.key, it.total, f.arena.size, f.agenda.nextSeq⟩ ∧
      (f.enqueue p it).arena = f.arena.push it) := by
  obtain ⟨arena, agenda, log⟩ := f
  have hpush := Agenda.push_cases hx it.key it.total arena.size
  simp only [enqueue, Arena.add]
  dsimp only at hpush ⊢
  rcases hr : agenda.push it.key it.total arena.size with ⟨agenda', outcome, stored⟩
  rw [hr] at hpush
  dsimp only at hpush ⊢
  simp only [tellIf_arena, tellIf_agenda]
  rcases hpush with ⟨e, he, hkey, hle, hheap, hout⟩ | ⟨i, e, he, hkey, hle, hheap, hout⟩ |
    ⟨hnew, hheap, hout⟩
  · cases hout
    exact .inl ⟨e, he, hkey, hle, hheap, Arena.release_add arena it⟩
  · cases hout
    exact .inr (.inl ⟨i, e, he, hkey, hle, hheap, Arena.release_set_add arena it e.value⟩)
  · cases hout
    exact .inr (.inr ⟨hnew, hheap, rfl⟩)

/-- What queuing an item does to a frontier beside a chart. -/
structure Enqueued (chart : Chart) (good : Item α → Prop) (f f' : Frontier α) (it : Item α) :
    Prop where
  sound : f'.Sound chart good
  proves : ∀ id x, chart.Proves f'.arena id x ↔ chart.Proves f.arena id x
  keeps : ∀ e ∈ f.agenda.heap.entries, ∃ e' ∈ f'.agenda.heap.entries, e'.key = e.key ∧
    (e'.priority = e.priority ∨
      e'.priority = it.total ∧ ¬ Cost.le e.priority it.total = true)
  has : ∃ e ∈ f'.agenda.heap.entries, e.key = it.key ∧
    (e.priority = it.total ∨ Cost.le e.priority it.total = true)
  only : ∀ e ∈ f'.agenda.heap.entries, e ∈ f.agenda.heap.entries ∨
    e.key = it.key ∧ e.priority = it.total

section Enqueue

variable {it : Item α}

theorem enqueued_ignored (h : f.Sound chart good) {e : Entry Key α Nat}
    (he : e ∈ f.agenda.heap.entries) (hkey : e.key = it.key)
    (hle : Cost.le e.priority it.total = true)
    (hheap : (f.enqueue p it).agenda.heap = f.agenda.heap)
    (harena : (f.enqueue p it).arena = f.arena) : Enqueued chart good f (f.enqueue p it) it := by
  have hsize : (f.enqueue p it).agenda.size = f.agenda.size := by
    simp only [Agenda.size]
    rw [hheap]
  refine ⟨⟨?_, ?_, ?_, ?_⟩, ?_, ?_, ?_, ?_⟩
  · rw [hheap]
    exact h.indexed
  · rw [harena]
    exact h.agrees
  · rw [hheap, harena]
    exact h.queued
  · rw [hsize, harena]
    exact h.balance
  · rw [harena]
    exact fun _ _ => Iff.rfl
  · rw [hheap]
    exact fun d hd => ⟨d, hd, rfl, .inl rfl⟩
  · rw [hheap]
    exact ⟨e, he, hkey, .inr hle⟩
  · rw [hheap]
    exact fun d hd => .inl hd

theorem enqueued_improved (h : f.Sound chart good) (hgood : good it)
    (hnew : chart.items[it.key]? = none) {i : Fin f.agenda.heap.entries.size}
    {e : Entry Key α Nat} (he : f.agenda.heap.entries[i.val]? = some e) (hkey : e.key = it.key)
    (hle : ¬ Cost.le e.priority it.total = true)
    (hheap : (f.enqueue p it).agenda.heap = f.agenda.heap.reprioritize i it.total)
    (harena : (f.enqueue p it).arena = f.arena.setIfInBounds e.value it) :
    Enqueued chart good f (f.enqueue p it) it := by
  -- nobody else stands at the place of the item that is replaced
  have hmem : e ∈ f.agenda.heap.entries := Array.mem_of_getElem? he
  have hentries := Heap.mem_reprioritize h.indexed he it.total
  obtain ⟨old, hold, holdkey, -⟩ := h.queued _ hmem
  have hlt := (Array.getElem?_eq_some_iff.mp hold).1
  have hget : ∀ n : Nat, n ≠ e.value →
      (f.arena.setIfInBounds e.value it)[n]? = f.arena[n]? := fun n hn =>
    Array.getElem?_setIfInBounds_ne (Ne.symm hn)
  obtain ⟨hagrees, hproves⟩ := h.agrees.congr fun k id hk =>
    hget id (Ne.symm (h.value_ne hmem hk))
  refine ⟨⟨?_, ?_, ?_, ?_⟩, ?_, ?_, ?_, ?_⟩
  · rw [hheap]
    exact h.indexed.reprioritize i it.total
  · rw [harena]
    exact hagrees
  · intro d hd
    rw [hheap, hentries] at hd
    rw [harena]
    rcases hd with rfl | ⟨hd, hne⟩
    · refine ⟨it, ?_, hkey.symm, rfl, hgood, hkey ▸ hnew⟩
      rw [Array.getElem?_setIfInBounds_self, if_pos hlt]
    · obtain ⟨x, hx, hxkey, hrest⟩ := h.queued d hd
      refine ⟨x, ?_, hxkey, hrest⟩
      rw [hget]
      · exact hx
      · intro hvalue
        rw [hvalue, hold] at hx
        cases hx
        exact hne (hxkey.symm.trans holdkey)
  · rw [harena, Array.size_setIfInBounds, ← h.balance]
    simp only [Agenda.size]
    rw [hheap, Heap.size_reprioritize]
  · rw [harena]
    exact hproves
  · intro d hd
    rw [hheap]
    by_cases heq : d.key = e.key
    · obtain rfl := h.indexed.unique hd hmem heq
      exact ⟨_, (hentries _).mpr (.inl rfl), rfl, .inr ⟨rfl, hle⟩⟩
    · exact ⟨d, (hentries d).mpr (.inr ⟨hd, heq⟩), rfl, .inl rfl⟩
  · rw [hheap]
    exact ⟨_, (hentries _).mpr (.inl rfl), hkey, .inl rfl⟩
  · intro d hd
    rw [hheap, hentries] at hd
    rcases hd with rfl | ⟨hd, -⟩
    · exact .inr ⟨hkey, rfl⟩
    · exact .inl hd

theorem enqueued_inserted (h : f.Sound chart good) (hgood : good it)
    (hnew : chart.items[it.key]? = none) (hfresh : ∀ e ∈ f.agenda.heap.entries, e.key ≠ it.key)
    (hheap : (f.enqueue p it).agenda.heap =
      f.agenda.heap.push ⟨it.key, it.total, f.arena.size, f.agenda.nextSeq⟩)
    (harena : (f.enqueue p it).arena = f.arena.push it) :
    Enqueued chart good f (f.enqueue p it) it := by
  have hentries := Heap.mem_push (h := f.agenda.heap)
    ⟨it.key, it.total, f.arena.size, f.agenda.nextSeq⟩
  have hget : ∀ (n : Nat) (x : Item α), f.arena[n]? = some x →
      (f.arena.push it)[n]? = some x := fun n x hx => by
    rw [Array.getElem?_push, if_neg]
    · exact hx
    · rintro rfl
      rw [Array.getElem?_size] at hx
      cases hx
  obtain ⟨hagrees, hproves⟩ := h.agrees.congr fun k id hk => by
    obtain ⟨x, hx, -⟩ := h.agrees.items k id hk
    rw [hget id x hx, hx]
  refine ⟨⟨?_, ?_, ?_, ?_⟩, ?_, ?_, ?_, ?_⟩
  · rw [hheap]
    exact h.indexed.push hfresh
  · rw [harena]
    exact hagrees
  · intro d hd
    rw [hheap, hentries] at hd
    rw [harena]
    rcases hd with rfl | hd
    · exact ⟨it, by simp, rfl, rfl, hgood, hnew⟩
    · obtain ⟨x, hx, hrest⟩ := h.queued d hd
      exact ⟨x, hget _ x hx, hrest⟩
  · have hsize := (Heap.push_perm f.agenda.heap
      ⟨it.key, it.total, f.arena.size, f.agenda.nextSeq⟩).size_eq
    have hbalance := h.balance
    simp only [Agenda.size] at hbalance ⊢
    rw [hheap, harena, hsize, Array.size_push, Array.size_push]
    omega
  · rw [harena]
    exact hproves
  · intro d hd
    rw [hheap]
    exact ⟨d, (hentries d).mpr (.inr hd), rfl, .inl rfl⟩
  · rw [hheap]
    exact ⟨_, (hentries _).mpr (.inl rfl), rfl, .inl rfl⟩
  · intro d hd
    rw [hheap, hentries] at hd
    rcases hd with rfl | hd
    · exact .inr ⟨rfl, rfl⟩
    · exact .inl hd

theorem enqueued (h : f.Sound chart good) (hgood : good it)
    (hnew : chart.items[it.key]? = none) : Enqueued chart good f (f.enqueue p it) it := by
  rcases enqueue_cases h.indexed p it with ⟨e, he, hkey, hle, hheap, harena⟩ |
    ⟨i, e, he, hkey, hle, hheap, harena⟩ | ⟨hfresh, hheap, harena⟩
  · exact enqueued_ignored h he hkey hle hheap harena
  · exact enqueued_improved h hgood hnew he hkey hle hheap harena
  · exact enqueued_inserted h hgood hnew hfresh hheap harena

theorem indexed_enqueue (hx : f.agenda.heap.Indexed) (p : Problem α) (it : Item α) :
    (f.enqueue p it).agenda.heap.Indexed := by
  rcases enqueue_cases hx p it with ⟨e, -, -, -, hheap, -⟩ | ⟨i, -, -, -, -, hheap, -⟩ |
    ⟨hfresh, hheap, -⟩
  · rwa [hheap]
  · rw [hheap]
    exact hx.reprioritize i it.total
  · rw [hheap]
    exact hx.push hfresh

theorem ordered_enqueue [OrderedCost α] (hx : f.agenda.heap.Indexed) (ho : f.agenda.heap.Ordered)
    (p : Problem α) (it : Item α) : (f.enqueue p it).agenda.heap.Ordered := by
  rcases enqueue_cases hx p it with ⟨e, -, -, -, hheap, -⟩ | ⟨i, e, he, -, hle, hheap, -⟩ |
    ⟨-, hheap, -⟩
  · rwa [hheap]
  · rw [hheap]
    exact ho.reprioritize he (Cost.le_of_not_le hle)
  · rw [hheap]
    exact ho.push _

end Enqueue

end Frontier

end Discontinuous
