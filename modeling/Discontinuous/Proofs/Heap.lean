import Discontinuous.Heap
import Discontinuous.Proofs.Cost
import Discontinuous.Proofs.Keyed

/-!
Heaps keep their entries, their index and their order. The first two do not depend on how costs
compare: the sifts only exchange entries, and every exchange is told to the index. The order does,
and is stated for costs that are totally ordered.
-/
namespace Discontinuous

namespace Entry

variable {κ α β : Type} [Cost α] [TotalCost α] {a b c : Entry κ α β}

theorem before_iff : a.before b = true ↔ ¬ Cost.le b.priority a.priority = true ∨
    (Cost.le a.priority b.priority = true ∧ a.seq < b.seq) := by
  simp only [before]
  by_cases hs : Cost.same a.priority b.priority = true
  · obtain ⟨hab, hba⟩ := Bool.and_eq_true_iff.mp hs
    rw [if_pos hs]
    simp [hab, hba]
  · rw [if_neg hs, Cost.lt_iff]
    refine ⟨.inl, fun h => h.elim id ?_⟩
    rintro ⟨hab, -⟩ hba
    exact hs (Bool.and_eq_true_iff.mpr ⟨hab, hba⟩)

theorem not_before_iff : ¬ b.before a = true ↔ Cost.le a.priority b.priority = true ∧
    (Cost.le b.priority a.priority = true → a.seq ≤ b.seq) := by
  rw [before_iff, not_or, not_not, not_and, Nat.not_lt]

theorem not_before_self : ¬ a.before a = true :=
  not_before_iff.mpr ⟨Cost.le_refl _, fun _ => Nat.le_refl _⟩

theorem before_asymm (h : a.before b = true) : ¬ b.before a = true := by
  rw [not_before_iff]
  rcases before_iff.mp h with hlt | ⟨hle, hseq⟩
  · exact ⟨Cost.le_of_not_le hlt, fun hle => absurd hle hlt⟩
  · exact ⟨hle, fun _ => Nat.le_of_lt hseq⟩

theorem not_before_trans (hba : ¬ b.before a = true) (hcb : ¬ c.before b = true) :
    ¬ c.before a = true := by
  rw [not_before_iff] at *
  refine ⟨TotalCost.le_trans hba.1 hcb.1, ?_⟩
  intro hca
  exact Nat.le_trans (hba.2 (TotalCost.le_trans hcb.1 hca)) (hcb.2 (TotalCost.le_trans hca hba.1))

end Entry

namespace Heap

variable {κ α β : Type} [Keyed κ]

/-- The index tells for every key where its entry stands, and knows no other key. -/
def Indexed (h : Heap κ α β) : Prop :=
  ∀ (k : κ) (i : Nat), h.slots[k]? = some i ↔ ∃ e, h.entries[i]? = some e ∧ e.key = k

theorem indexed_empty : (empty : Heap κ α β).Indexed := by
  intro k i
  simp [empty]

/-- There is one entry for a key at most. -/
theorem Indexed.index_unique {h : Heap κ α β} (hi : h.Indexed) {i j : Nat} {d e : Entry κ α β}
    (hd : h.entries[i]? = some d) (he : h.entries[j]? = some e) (hkey : d.key = e.key) : i = j := by
  have hdk := (hi d.key i).mpr ⟨d, hd, rfl⟩
  have hek := (hi d.key j).mpr ⟨e, he, hkey.symm⟩
  exact Option.some.inj (hdk.symm.trans hek)

theorem Indexed.unique {h : Heap κ α β} (hi : h.Indexed) {d e : Entry κ α β}
    (hd : d ∈ h.entries) (he : e ∈ h.entries) (hkey : d.key = e.key) : d = e := by
  obtain ⟨i, hd⟩ := Array.mem_iff_getElem?.mp hd
  obtain ⟨j, he⟩ := Array.mem_iff_getElem?.mp he
  have hij := hi.index_unique hd he hkey
  subst hij
  exact Option.some.inj (hd.symm.trans he)

theorem slot?_eq_none_iff {h : Heap κ α β} (hx : h.Indexed) {key : κ} :
    h.slot? key = none ↔ ∀ e ∈ h.entries, e.key ≠ key := by
  simp only [slot?]
  rw [Std.TreeMap.get?_eq_getElem?]
  cases hs : h.slots[key]? with
  | none =>
      refine ⟨?_, fun _ => rfl⟩
      intro _ e he hkey
      obtain ⟨i, hi⟩ := Array.mem_iff_getElem?.mp he
      rw [(hx key i).mpr ⟨e, hi, hkey⟩] at hs
      cases hs
  | some i =>
      obtain ⟨e, he, hkey⟩ := (hx key i).mp hs
      have hi := (Array.getElem?_eq_some_iff.mp he).1
      simp only [dif_pos hi, reduceCtorEq, false_iff]
      exact fun hall => hall e (Array.mem_of_getElem? he) hkey

theorem exists_entry_of_slot? {h : Heap κ α β} (hx : h.Indexed) {key : κ}
    {i : Fin h.entries.size} (hs : h.slot? key = some i) :
    ∃ e, h.entries[i.val]? = some e ∧ e.key = key := by
  simp only [slot?] at hs
  rw [Std.TreeMap.get?_eq_getElem?] at hs
  cases hk : h.slots[key]? with
  | none => simp [hk] at hs
  | some j =>
      obtain ⟨e, he, hkey⟩ := (hx key j).mp hk
      have hj := (Array.getElem?_eq_some_iff.mp he).1
      simp only [hk, dif_pos hj, Option.some.injEq] at hs
      subst hs
      exact ⟨e, he, hkey⟩

theorem entries_swap (h : Heap κ α β) (i j : Nat) (hi : i < h.entries.size)
    (hj : j < h.entries.size) : (h.swap i j hi hj).entries = h.entries.swap i j hi hj := rfl

theorem Indexed.swap {h : Heap κ α β} (hx : h.Indexed) (i j : Nat) (hi : i < h.entries.size)
    (hj : j < h.entries.size) : (h.swap i j hi hj).Indexed := by
  intro k n
  have hei : h.entries[i]? = some h.entries[i] := Array.getElem?_eq_getElem hi
  have hej : h.entries[j]? = some h.entries[j] := Array.getElem?_eq_getElem hj
  have hslots : (h.swap i j hi hj).slots[k]? = some n ↔
      (k = h.entries[j].key ∧ i = n) ∨ (k ≠ h.entries[j].key ∧
        ((k = h.entries[i].key ∧ j = n) ∨ (k ≠ h.entries[i].key ∧ h.slots[k]? = some n))) := by
    simp only [Heap.swap, Map.getElem?_insert_eq_some_iff]
  rw [hslots, entries_swap, Array.getElem?_swap hi hj, hx k n]
  constructor
  · rintro (⟨rfl, rfl⟩ | ⟨hkj, ⟨rfl, rfl⟩ | ⟨hki, e, hen, hek⟩⟩)
    · refine ⟨h.entries[j], ?_, rfl⟩
      by_cases hij : j = i
      · simp [hij]
      · simp [hij]
    · exact ⟨h.entries[i], by simp, rfl⟩
    · have hjn : j ≠ n := by
        rintro rfl
        exact hkj (hek.symm.trans (congrArg Entry.key (Option.some.inj (hen.symm.trans hej))))
      have hin : i ≠ n := by
        rintro rfl
        exact hki (hek.symm.trans (congrArg Entry.key (Option.some.inj (hen.symm.trans hei))))
      exact ⟨e, by rwa [if_neg hjn, if_neg hin], hek⟩
  · rintro ⟨e, he, rfl⟩
    by_cases hjn : j = n
    · rw [if_pos hjn] at he
      cases he
      by_cases hkey : h.entries[i].key = h.entries[j].key
      · exact .inl ⟨hkey, (hx.index_unique hei hej hkey).trans hjn⟩
      · exact .inr ⟨hkey, .inl ⟨rfl, hjn⟩⟩
    · rw [if_neg hjn] at he
      by_cases hin : i = n
      · rw [if_pos hin] at he
        cases he
        exact .inl ⟨rfl, hin⟩
      · rw [if_neg hin] at he
        have hkj : e.key ≠ h.entries[j].key := fun hkey =>
          hjn (hx.index_unique he hej hkey).symm
        have hki : e.key ≠ h.entries[i].key := fun hkey =>
          hin (hx.index_unique he hei hkey).symm
        exact .inr ⟨hkj, .inr ⟨hki, e, he, rfl⟩⟩

theorem last_lt (h : Heap κ α β) (hne : 0 < h.entries.size) :
    h.entries.size - 1 < h.entries.size := Nat.sub_one_lt_of_lt hne

/-- The heap without its first entry, before the last one that took its place has sunk. -/
def beheaded (h : Heap κ α β) (hne : 0 < h.entries.size) : Heap κ α β :=
  let swapped := h.swap 0 (h.entries.size - 1) hne (h.last_lt hne)
  { entries := swapped.entries.pop, slots := swapped.slots.erase h.entries[0].key }

theorem beheaded_entries (h : Heap κ α β) (hne : 0 < h.entries.size) (n : Nat) :
    (h.beheaded hne).entries[n]? = if n < h.entries.size - 1 then
      if n = 0 then h.entries[h.entries.size - 1]? else h.entries[n]? else none := by
  rw [Array.getElem?_eq_getElem (h.last_lt hne)]
  simp only [beheaded, entries_swap, Array.getElem?_pop, Array.size_swap, Array.getElem?_swap]
  by_cases hn : n < h.entries.size - 1
  · rw [if_pos hn, if_pos hn, if_neg (by omega)]
    simp only [eq_comm]
  · rw [if_neg hn, if_neg hn]

theorem Indexed.beheaded {h : Heap κ α β} (hx : h.Indexed) (hne : 0 < h.entries.size) :
    (h.beheaded hne).Indexed := by
  have hlast := h.last_lt hne
  have hs := hx.swap 0 (h.entries.size - 1) hne hlast
  have hend : (h.swap 0 (h.entries.size - 1) hne hlast).entries[h.entries.size - 1]? =
      some h.entries[0] := by
    rw [entries_swap, Array.getElem?_swap, if_pos rfl]
  intro k n
  simp only [Heap.beheaded, Map.getElem?_erase_eq_some_iff, hs k n, Array.getElem?_pop, size_swap]
  constructor
  · rintro ⟨hk, e, he, rfl⟩
    have hlt : n < h.entries.size := by
      have := (Array.getElem?_eq_some_iff.mp he).1
      rwa [size_swap] at this
    have hn : n ≠ h.entries.size - 1 := by
      rintro rfl
      exact hk (congrArg Entry.key (Option.some.inj (he.symm.trans hend)))
    exact ⟨e, by rwa [if_pos (by omega)], rfl⟩
  · rintro ⟨e, he, rfl⟩
    by_cases hn : n < h.entries.size - 1
    · rw [if_pos hn] at he
      refine ⟨?_, e, he, rfl⟩
      intro hk
      have := hs.index_unique he hend hk
      omega
    · rw [if_neg hn] at he
      cases he

theorem beheaded_perm (h : Heap κ α β) (hne : 0 < h.entries.size) :
    ((h.beheaded hne).entries.push h.entries[0]).Perm h.entries := by
  have hlast := h.last_lt hne
  have hpush : (h.beheaded hne).entries.push h.entries[0] =
      h.entries.swap 0 (h.entries.size - 1) hne hlast := by
    apply Array.ext_getElem?
    intro n
    simp only [beheaded, entries_swap, Array.getElem?_push, Array.getElem?_pop, Array.size_pop,
      Array.size_swap]
    by_cases hn : n = h.entries.size - 1
    · rw [if_pos hn, Array.getElem?_swap, if_pos hn.symm]
    · rw [if_neg hn]
      split
      · rfl
      · rw [Array.getElem?_eq_none (by rw [Array.size_swap]; omega)]
  rw [hpush]
  exact Array.swap_perm ..

/-- The heap with another priority at `i`, before the entry has moved. -/
def repriced (h : Heap κ α β) (i : Nat) (priority : α) : Heap κ α β :=
  { h with entries := h.entries.modify i fun e => { e with priority } }

theorem repriced_entries {h : Heap κ α β} {i : Nat} {e : Entry κ α β}
    (he : h.entries[i]? = some e) (priority : α) (n : Nat) :
    (h.repriced i priority).entries[n]? =
      if i = n then some { e with priority } else h.entries[n]? := by
  rw [repriced, Array.getElem?_modify]
  by_cases hn : i = n
  · rw [if_pos hn, if_pos hn, ← hn, he]
    rfl
  · rw [if_neg hn, if_neg hn]

theorem Indexed.repriced {h : Heap κ α β} (hx : h.Indexed) (i : Nat) (priority : α) :
    (h.repriced i priority).Indexed := by
  intro k n
  simp only [Heap.repriced, hx k n, Array.getElem?_modify]
  by_cases hn : i = n
  · subst hn
    simp
  · simp only [if_neg hn]

section Sift

variable [Cost α]

theorem Indexed.siftUp {h : Heap κ α β} (hx : h.Indexed) (i : Nat) : (h.siftUp i).Indexed := by
  induction h, i using siftUp.induct with
  | case1 h i hi hp hb ih =>
      rw [Heap.siftUp, dif_pos hi, if_pos hb]
      exact ih (hx.swap _ _ _ _)
  | case2 h i hi hp hb =>
      rw [Heap.siftUp, dif_pos hi, if_neg hb]
      exact hx
  | case3 h i hi =>
      rw [Heap.siftUp, dif_neg hi]
      exact hx

theorem siftUp_perm (h : Heap κ α β) (i : Nat) : (h.siftUp i).entries.Perm h.entries := by
  induction h, i using siftUp.induct with
  | case1 h i hi hp hb ih =>
      rw [Heap.siftUp, dif_pos hi, if_pos hb]
      exact ih.trans (Array.swap_perm ..)
  | case2 h i hi hp hb =>
      rw [Heap.siftUp, dif_pos hi, if_neg hb]
  | case3 h i hi =>
      rw [Heap.siftUp, dif_neg hi]

theorem Indexed.siftDown {h : Heap κ α β} (hx : h.Indexed) (i : Nat) :
    (h.siftDown i).Indexed := by
  induction h, i using siftDown.induct with
  | case1 h i hc =>
      rw [Heap.siftDown, hc]
      exact hx
  | case2 h i c hi hc hfirst hb ih =>
      rw [Heap.siftDown, hfirst]
      dsimp only
      rw [if_pos hb]
      exact ih (hx.swap _ _ _ _)
  | case3 h i c hi hc hfirst hb =>
      rw [Heap.siftDown, hfirst]
      dsimp only
      rw [if_neg hb]
      exact hx

theorem siftDown_perm (h : Heap κ α β) (i : Nat) : (h.siftDown i).entries.Perm h.entries := by
  induction h, i using siftDown.induct with
  | case1 h i hc => rw [Heap.siftDown, hc]
  | case2 h i c hi hc hfirst hb ih =>
      rw [Heap.siftDown, hfirst]
      dsimp only
      rw [if_pos hb]
      exact ih.trans (Array.swap_perm ..)
  | case3 h i c hi hc hfirst hb =>
      rw [Heap.siftDown, hfirst]
      dsimp only
      rw [if_neg hb]

/-- A new entry goes to the end, and from there to its place. -/
theorem push_perm (h : Heap κ α β) (e : Entry κ α β) :
    (h.push e).entries.Perm (h.entries.push e) := siftUp_perm _ _

theorem Indexed.push {h : Heap κ α β} (hx : h.Indexed) {e : Entry κ α β}
    (hnew : ∀ d ∈ h.entries, d.key ≠ e.key) : (h.push e).Indexed := by
  refine Indexed.siftUp ?_ _
  intro k n
  simp only [Map.getElem?_insert_eq_some_iff, Array.getElem?_push, hx k n]
  constructor
  · rintro (⟨rfl, rfl⟩ | ⟨-, d, hd, rfl⟩)
    · exact ⟨e, by simp, rfl⟩
    · have hlt : n < h.entries.size := (Array.getElem?_eq_some_iff.mp hd).1
      exact ⟨d, by rwa [if_neg (Nat.ne_of_lt hlt)], rfl⟩
  · rintro ⟨d, hd, rfl⟩
    by_cases hn : n = h.entries.size
    · rw [if_pos hn] at hd
      cases hd
      exact .inl ⟨rfl, hn.symm⟩
    · rw [if_neg hn] at hd
      exact .inr ⟨hnew d (Array.mem_of_getElem? hd), d, hd, rfl⟩

theorem pop_eq_none {h : Heap κ α β} (hempty : h.entries.size = 0) : h.pop = (none, h) := by
  rw [pop, dif_neg (by omega)]

theorem pop_eq_some {h : Heap κ α β} (hne : 0 < h.entries.size) :
    h.pop = (some h.entries[0], (h.beheaded hne).siftDown 0) := by
  rw [pop, dif_pos hne]
  rfl

theorem Indexed.pop {h : Heap κ α β} (hx : h.Indexed) : h.pop.2.Indexed := by
  by_cases hne : 0 < h.entries.size
  · rw [pop_eq_some hne]
    exact (hx.beheaded hne).siftDown 0
  · rwa [pop_eq_none (by omega)]

theorem pop_perm {h h' : Heap κ α β} {e : Entry κ α β} (hp : h.pop = (some e, h')) :
    (h'.entries.push e).Perm h.entries := by
  by_cases hne : 0 < h.entries.size
  · rw [pop_eq_some hne] at hp
    obtain ⟨he, rfl⟩ := Prod.mk.inj hp
    cases he
    exact ((siftDown_perm _ 0).push _).trans (beheaded_perm h hne)
  · rw [pop_eq_none (by omega)] at hp
    cases hp

theorem reprioritize_eq (h : Heap κ α β) (i : Fin h.entries.size) (priority : α) :
    h.reprioritize i priority = if (h.repriced i priority).sinks i then
      (h.repriced i priority).siftDown i else (h.repriced i priority).siftUp i := by
  have hset : h.entries.set i { h.entries[i] with priority } = (h.repriced i priority).entries := by
    apply Array.ext_getElem?
    intro n
    rw [repriced_entries (Array.getElem?_eq_getElem i.isLt), Array.getElem?_set]
    rfl
  simp only [reprioritize, hset]
  rfl

theorem Indexed.reprioritize {h : Heap κ α β} (hx : h.Indexed) (i : Fin h.entries.size)
    (priority : α) : (h.reprioritize i priority).Indexed := by
  have hr := hx.repriced i priority
  rw [reprioritize_eq]
  split
  · exact hr.siftDown i
  · exact hr.siftUp i

theorem reprioritize_perm (h : Heap κ α β) (i : Fin h.entries.size) (priority : α) :
    (h.reprioritize i priority).entries.Perm (h.repriced i priority).entries := by
  rw [reprioritize_eq]
  split
  · exact siftDown_perm _ _
  · exact siftUp_perm _ _

/-- What is popped has the only entry of its key. -/
theorem Indexed.key_ne_of_pop {h h' : Heap κ α β} (hx : h.Indexed) {d e : Entry κ α β}
    (hp : h.pop = (some e, h')) (hd : d ∈ h'.entries) : d.key ≠ e.key := by
  by_cases hne : 0 < h.entries.size
  · rw [pop_eq_some hne] at hp
    obtain ⟨he, rfl⟩ := Prod.mk.inj hp
    cases he
    rw [(siftDown_perm _ 0).mem_iff] at hd
    obtain ⟨i, hi⟩ := Array.mem_iff_getElem?.mp hd
    have hslot := (hx.beheaded hne d.key i).mpr ⟨d, hi, rfl⟩
    exact ((Map.getElem?_erase_eq_some_iff _ _ _ _).mp hslot).1
  · rw [pop_eq_none (by omega)] at hp
    cases hp

theorem size_reprioritize (h : Heap κ α β) (i : Fin h.entries.size) (priority : α) :
    (h.reprioritize i priority).entries.size = h.entries.size :=
  (reprioritize_perm h i priority).size_eq.trans Array.size_modify

/-- After another priority for the entry at `i`, the entries are that one and those of other
keys. -/
theorem mem_reprioritize {h : Heap κ α β} (hx : h.Indexed) {i : Fin h.entries.size}
    {e : Entry κ α β} (he : h.entries[i.val]? = some e) (priority : α) (d : Entry κ α β) :
    d ∈ (h.reprioritize i priority).entries ↔
      d = { e with priority } ∨ (d ∈ h.entries ∧ d.key ≠ e.key) := by
  rw [(reprioritize_perm h i priority).mem_iff]
  constructor
  · intro hd
    obtain ⟨j, hj⟩ := Array.mem_iff_getElem?.mp hd
    rw [repriced_entries he] at hj
    by_cases hij : i.val = j
    · rw [if_pos hij] at hj
      exact .inl (Option.some.inj hj).symm
    · rw [if_neg hij] at hj
      exact .inr ⟨Array.mem_of_getElem? hj, fun hkey => hij (hx.index_unique he hj hkey.symm)⟩
  · rintro (rfl | ⟨hd, hkey⟩)
    · refine Array.mem_iff_getElem?.mpr ⟨i, ?_⟩
      rw [repriced_entries he, if_pos rfl]
    · obtain ⟨j, hj⟩ := Array.mem_iff_getElem?.mp hd
      have hij : i.val ≠ j := by
        rintro rfl
        exact hkey (congrArg Entry.key (Option.some.inj (hj.symm.trans he)))
      refine Array.mem_iff_getElem?.mpr ⟨j, ?_⟩
      rwa [repriced_entries he, if_neg hij]

theorem mem_push {h : Heap κ α β} (e d : Entry κ α β) :
    d ∈ (h.push e).entries ↔ d = e ∨ d ∈ h.entries := by
  rw [(push_perm h e).mem_iff, Array.mem_push, or_comm]

end Sift

section Order

variable [Cost α]

/-- Entry `j` is not before entry `i`, if both are there. -/
def InOrder (h : Heap κ α β) (i j : Nat) : Prop :=
  ∀ d e, h.entries[i]? = some d → h.entries[j]? = some e → ¬ e.before d = true

/-- No entry is before its parent. -/
def Ordered (h : Heap κ α β) : Prop := ∀ j, 0 < j → h.InOrder (parent j) j

theorem ordered_empty : (empty : Heap κ α β).Ordered := by
  intro j _ d e hd
  simp [empty] at hd

/-- The order is kept but for the entry at `i`, which may have to rise. -/
structure Rising (h : Heap κ α β) (i : Nat) : Prop where
  elsewhere : ∀ j, 0 < j → j ≠ i → h.InOrder (parent j) j
  below : 0 < i → ∀ j, 0 < j → parent j = i → h.InOrder (parent i) j

/-- The order is kept but for the entry at `i`, which may have to sink. -/
structure Sinking (h : Heap κ α β) (i : Nat) : Prop where
  elsewhere : ∀ j, 0 < j → parent j ≠ i → h.InOrder (parent j) j
  below : 0 < i → ∀ j, 0 < j → parent j = i → h.InOrder (parent i) j

theorem parent_lt {i : Nat} (h : 0 < i) : parent i < i := by
  simp only [parent]
  omega

theorem parent_eq_iff {i j : Nat} (h : 0 < j) : parent j = i ↔ j = 2 * i + 1 ∨ j = 2 * i + 2 := by
  simp only [parent]
  omega

variable {h : Heap κ α β}

theorem inOrder_iff {i j : Nat} (hi : i < h.entries.size) (hj : j < h.entries.size) :
    h.InOrder i j ↔ ¬ h.entries[j].before h.entries[i] = true := by
  simp only [InOrder]
  rw [Array.getElem?_eq_getElem hi, Array.getElem?_eq_getElem hj]
  simp

/-- Beyond the last entry there is nothing out of order. -/
theorem inOrder_of_size_le {i j : Nat} (hj : h.entries.size ≤ j) : h.InOrder i j := by
  intro d e _ he
  have := (Array.getElem?_eq_some_iff.mp he).1
  omega

/-- After an exchange the entries at `i` and `j` stand for each other. -/
theorem inOrder_swap {i j : Nat} (hi : i < h.entries.size) (hj : j < h.entries.size) (m n : Nat) :
    (h.swap i j hi hj).InOrder m n ↔
      h.InOrder (if m = i then j else if m = j then i else m)
        (if n = i then j else if n = j then i else n) := by
  have hget : ∀ k, (h.swap i j hi hj).entries[k]? =
      h.entries[if k = i then j else if k = j then i else k]? := by
    intro k
    rw [entries_swap, Array.getElem?_swap]
    by_cases hkj : j = k
    · subst hkj
      by_cases hki : j = i
      · simp [hki]
      · simp [hki]
    · by_cases hki : i = k
      · subst hki
        simp [hkj]
      · simp [hkj, hki, Ne.symm hkj, Ne.symm hki]
  simp only [InOrder, hget]

theorem firstChild_eq_none {i j : Nat} (hf : h.firstChild i = none) (hj : 0 < j)
    (hp : parent j = i) : h.entries.size ≤ j := by
  simp only [firstChild] at hf
  rcases (parent_eq_iff hj).mp hp with rfl | rfl
  all_goals
    split at hf
    next =>
      split at hf
      next =>
        split at hf <;> cases hf
      next => cases hf
    next hl => omega

variable [TotalCost α]

theorem InOrder.trans {i j k : Nat} {e : Entry κ α β} (he : h.entries[j]? = some e)
    (hij : h.InOrder i j) (hjk : h.InOrder j k) : h.InOrder i k := fun _ _ hc hd =>
  Entry.not_before_trans (hij _ _ hc he) (hjk _ _ he hd)

theorem Rising.swap {i : Nat} (hr : h.Rising i) (hpos : 0 < i) (hi : i < h.entries.size)
    (hp : parent i < h.entries.size) (hb : h.entries[i].before h.entries[parent i] = true) :
    (h.swap (parent i) i hp hi).Rising (parent i) := by
  have hlt := parent_lt hpos
  have hep : h.entries[parent i]? = some h.entries[parent i] := Array.getElem?_eq_getElem hp
  have hup : h.InOrder i (parent i) := (inOrder_iff hi hp).mpr (Entry.before_asymm hb)
  constructor
  · intro j hj hne
    rw [inOrder_swap]
    by_cases hji : j = i
    · subst hji
      simpa [Nat.ne_of_gt hlt] using hup
    · simp only [if_neg hne, if_neg hji]
      have hj' := hr.elsewhere j hj hji
      by_cases hjp : parent j = parent i
      · rw [if_pos hjp]
        rw [hjp] at hj'
        exact hup.trans hep hj'
      · rw [if_neg hjp]
        by_cases hpj : parent j = i
        · rw [if_pos hpj]
          exact hr.below hpos j hj hpj
        · rwa [if_neg hpj]
  · intro hppos j hj hjp
    have hpp := parent_lt hppos
    have hgrand := hr.elsewhere (parent i) hppos (Nat.ne_of_lt hlt)
    have hjlt := hjp ▸ parent_lt hj
    rw [inOrder_swap, if_neg (Nat.ne_of_lt hpp), if_neg (by omega), if_neg (by omega)]
    by_cases hji : j = i
    · rwa [if_pos hji]
    · rw [if_neg hji]
      have hj' := hr.elsewhere j hj hji
      rw [hjp] at hj'
      exact hgrand.trans hep hj'

theorem Rising.siftUp {i : Nat} (hr : h.Rising i) : (h.siftUp i).Ordered := by
  induction h, i using siftUp.induct with
  | case1 h i hi hp hb ih =>
      rw [Heap.siftUp, dif_pos hi, if_pos hb]
      exact ih (hr.swap hi.1 hi.2 hp hb)
  | case2 h i hi hp hb =>
      rw [Heap.siftUp, dif_pos hi, if_neg hb]
      intro j hj
      by_cases hji : j = i
      · subst hji
        exact (inOrder_iff hp hi.2).mpr hb
      · exact hr.elsewhere j hj hji
  | case3 h i hi =>
      rw [Heap.siftUp, dif_neg hi]
      intro j hj
      by_cases hji : j = i
      · exact inOrder_of_size_le (by omega)
      · exact hr.elsewhere j hj hji

/-- The first child is a child, and no other child is before it. -/
theorem firstChild_eq_some {i c : Nat} {hc : i < c ∧ c < h.entries.size}
    (hf : h.firstChild i = some ⟨c, hc⟩) :
    parent c = i ∧ ∀ j, 0 < j → parent j = i → h.InOrder c j := by
  simp only [firstChild] at hf
  have hself : ∀ k, h.InOrder k k := fun k d e hd he => by
    cases hd.symm.trans he
    exact Entry.not_before_self
  split at hf
  next hl =>
    split at hf
    next hr =>
      split at hf
      next hb =>
        cases hf
        refine ⟨(parent_eq_iff (by omega)).mpr (.inr rfl), ?_⟩
        intro j hj hpj
        rcases (parent_eq_iff hj).mp hpj with rfl | rfl
        · exact (inOrder_iff hr hl).mpr (Entry.before_asymm hb)
        · exact hself _
      next hb =>
        cases hf
        refine ⟨(parent_eq_iff (by omega)).mpr (.inl rfl), ?_⟩
        intro j hj hpj
        rcases (parent_eq_iff hj).mp hpj with rfl | rfl
        · exact hself _
        · exact (inOrder_iff hl hr).mpr hb
    next hr =>
      cases hf
      refine ⟨(parent_eq_iff (by omega)).mpr (.inl rfl), ?_⟩
      intro j hj hpj
      rcases (parent_eq_iff hj).mp hpj with rfl | rfl
      · exact hself _
      · exact inOrder_of_size_le (by omega)
  next => cases hf

theorem Sinking.swap {i c : Nat} (hs : h.Sinking i) (hi : i < h.entries.size)
    (hc : c < h.entries.size) (hpc : parent c = i) (hic : i < c)
    (hmin : ∀ j, 0 < j → parent j = i → h.InOrder c j)
    (hb : h.entries[c].before h.entries[i] = true) : (h.swap i c hi hc).Sinking c := by
  have hup : h.InOrder c i := (inOrder_iff hc hi).mpr (Entry.before_asymm hb)
  constructor
  · intro j hj hne
    rw [inOrder_swap]
    by_cases hjc : j = c
    · subst hjc
      simpa [hpc, Nat.ne_of_gt hic] using hup
    · by_cases hji : j = i
      · subst hji
        have hlt := parent_lt hj
        rw [if_pos rfl, if_neg (by omega), if_neg hne]
        exact hs.below hj c (by omega) hpc
      · rw [if_neg hji, if_neg hjc]
        by_cases hpj : parent j = i
        · rw [if_pos hpj]
          exact hmin j hj hpj
        · rw [if_neg hpj, if_neg hne]
          exact hs.elsewhere j hj hpj
  · intro _ j hj hpj
    have hlt := hpj ▸ parent_lt hj
    rw [inOrder_swap, if_pos hpc, if_neg (by omega), if_neg (by omega)]
    have hj' := hs.elsewhere j hj (by omega)
    rwa [hpj] at hj'

theorem Sinking.siftDown {i : Nat} (hs : h.Sinking i) : (h.siftDown i).Ordered := by
  induction h, i using siftDown.induct with
  | case1 h i hf =>
      rw [Heap.siftDown, hf]
      intro j hj
      by_cases hp : parent j = i
      · exact inOrder_of_size_le (firstChild_eq_none hf hj hp)
      · exact hs.elsewhere j hj hp
  | case2 h i c hi hc hf hb ih =>
      obtain ⟨hpc, hmin⟩ := firstChild_eq_some hf
      rw [Heap.siftDown, hf]
      dsimp only
      rw [if_pos hb]
      exact ih (hs.swap _ hc hpc hi hmin hb)
  | case3 h i c hi hc hf hb =>
      obtain ⟨hpc, hmin⟩ := firstChild_eq_some hf
      rw [Heap.siftDown, hf]
      dsimp only
      rw [if_neg hb]
      intro j hj
      by_cases hp : parent j = i
      · have hci : h.InOrder i c := (inOrder_iff (by omega) hc).mpr hb
        rw [hp]
        exact hci.trans (Array.getElem?_eq_getElem hc) (hmin j hj hp)
      · exact hs.elsewhere j hj hp

/-- The first entry of an ordered heap is before all others. -/
theorem Ordered.inOrder_root (ho : h.Ordered) (j : Nat) : h.InOrder 0 j := by
  induction j using Nat.strongRecOn with
  | ind j ih =>
      by_cases hj : j < h.entries.size
      · by_cases hpos : 0 < j
        · have hlt := parent_lt hpos
          exact (ih (parent j) hlt).trans (Array.getElem?_eq_getElem (by omega)) (ho j hpos)
        · obtain rfl : j = 0 := by omega
          exact (inOrder_iff hj hj).mpr Entry.not_before_self
      · exact inOrder_of_size_le (by omega)

theorem Ordered.push (ho : h.Ordered) (e : Entry κ α β) : (h.push e).Ordered := by
  refine Rising.siftUp ⟨?_, ?_⟩
  · intro j hj hne d f hd hf
    have hlt := parent_lt hj
    simp only [Array.getElem?_push] at hd hf
    rw [if_neg hne] at hf
    have hj := (Array.getElem?_eq_some_iff.mp hf).1
    rw [if_neg (by omega)] at hd
    exact ho j (by omega) d f hd hf
  · intro _ j hj hp
    apply inOrder_of_size_le
    have := parent_lt hj
    rw [Array.size_push]
    omega

theorem Ordered.pop (ho : h.Ordered) : h.pop.2.Ordered := by
  by_cases hne : 0 < h.entries.size
  · rw [pop_eq_some hne]
    refine Sinking.siftDown ⟨?_, fun hpos => absurd hpos (Nat.lt_irrefl 0)⟩
    intro j hj hp d e hd he
    have hlt := parent_lt hj
    rw [beheaded_entries] at hd he
    split at he
    next hjlt =>
      rw [if_neg (Nat.ne_of_gt hj)] at he
      rw [if_pos (by omega), if_neg hp] at hd
      exact ho j hj d e hd he
    next => cases he
  · rwa [pop_eq_none (by omega)]

/-- What is popped from an ordered heap costs no more than what stays. -/
theorem Ordered.pop_le (ho : h.Ordered) {h' : Heap κ α β} {e : Entry κ α β}
    (hp : h.pop = (some e, h')) {d : Entry κ α β} (hd : d ∈ h.entries) :
    Cost.le e.priority d.priority = true := by
  by_cases hne : 0 < h.entries.size
  · rw [pop_eq_some hne] at hp
    obtain ⟨he, -⟩ := Prod.mk.inj hp
    cases he
    obtain ⟨j, hj⟩ := Array.mem_iff_getElem?.mp hd
    have hroot := ho.inOrder_root j _ _ (Array.getElem?_eq_getElem hne) hj
    exact (Entry.not_before_iff.mp hroot).1
  · rw [pop_eq_none (by omega)] at hp
    cases hp

/-- An entry that becomes cheaper is not before its children any less than it was. -/
theorem Ordered.reprioritize (ho : h.Ordered) {i : Fin h.entries.size} {x : Entry κ α β}
    (hx : h.entries[i.val]? = some x) {priority : α}
    (hle : Cost.le priority x.priority = true) : (h.reprioritize i priority).Ordered := by
  have hget := repriced_entries hx priority
  have hcheaper : ∀ d, ¬ Entry.before d x = true →
      ¬ d.before { x with priority } = true := by
    intro d hd
    rw [Entry.not_before_iff] at hd ⊢
    exact ⟨TotalCost.le_trans hle hd.1, fun hback => hd.2 (TotalCost.le_trans hback hle)⟩
  have hchild : ∀ j, 0 < j → parent j = i.val → (h.repriced i priority).InOrder i j := by
    intro j hj hp d e hd he
    have hlt := parent_lt hj
    rw [hget, if_pos rfl] at hd
    rw [hget, if_neg (by omega)] at he
    cases hd
    exact hcheaper e (ho j hj _ e (hp ▸ hx) he)
  have hrising : (h.repriced i priority).Rising i := by
    constructor
    · intro j hj hne
      by_cases hp : parent j = i.val
      · rw [hp]
        exact hchild j hj hp
      · intro d e hd he
        rw [hget, if_neg (Ne.symm hp)] at hd
        rw [hget, if_neg (Ne.symm hne)] at he
        exact ho j hj d e hd he
    · intro hpos j hj hp d e hd he
      have hlt := parent_lt hj
      have hlt' := parent_lt hpos
      rw [hget, if_neg (by omega)] at hd
      rw [hget, if_neg (by omega)] at he
      exact Entry.not_before_trans (ho i hpos d _ hd hx) (ho j hj _ e (hp ▸ hx) he)
  have hstays : (h.repriced i priority).sinks i = false := by
    simp only [sinks]
    split
    · rfl
    next c hi hc hf =>
      obtain ⟨hpc, -⟩ := firstChild_eq_some hf
      simpa using (inOrder_iff _ hc).mp (hchild c (by omega) hpc)
  rw [reprioritize_eq, hstays]
  exact hrising.siftUp

end Order

end Heap

end Discontinuous
