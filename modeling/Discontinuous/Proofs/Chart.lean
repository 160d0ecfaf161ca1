import Discontinuous.Proofs.Join
import Discontinuous.Proofs.Key
import Discontinuous.Proofs.Keyed

/-!
Charts and the arena that their places point into. What is recorded is found under its key, and
under its label together with any boundary that a sibling may ask for; nothing else is found.
-/
namespace Discontinuous

theorem Key.InRange.of_within {l : Label} {s : Span} {n : Int} (hnonneg : 0 ≤ l.id)
    (hlt : l.id < Key.labelLimit) (hs : s.Within n) (hn : n ≤ Key.maxPosition) :
    Key.InRange l s := by
  obtain ⟨⟨h0, h1, h2⟩, h3, h4⟩ := hs
  have hsecond : -1 ≤ s.l2 ∧ -1 ≤ s.r2 ∧ s.l2 ≤ n := by
    unfold Span.unset at h2
    split at h2 <;> omega
  refine ⟨hnonneg, hlt, ⟨?_, ?_⟩, ⟨?_, ?_⟩, ⟨?_, ?_⟩, ⟨?_, ?_⟩⟩ <;> omega

namespace Chart

variable {α : Type}

/-- The item `it` is proven, and stands at place `id`. -/
def Proves (c : Chart) (arena : Arena α) (id : Nat) (it : Item α) : Prop :=
  c.items[it.key]? = some id ∧ arena[id]? = some it

/-- The chart tells the truth about an arena. -/
structure Agrees (c : Chart) (arena : Arena α) : Prop where
  items : ∀ (k : Key) (id : Nat), c.items[k]? = some id → ∃ it, arena[id]? = some it ∧ it.key = k
  index : ∀ (slot : ChartSlot) (id : Nat), id ∈ c.index.getD slot #[] ↔
    ∃ it, c.Proves arena id it ∧ slot ∈ slotsOf it.label it.span

variable {c : Chart} {arena arena' : Arena α}

theorem agrees_empty (arena : Arena α) : empty.Agrees arena := by
  constructor
  · intro k id h
    simp [empty] at h
  · intro slot id
    simp [empty, Proves, Std.TreeMap.getD_emptyc]

theorem Agrees.exists_proves (ha : c.Agrees arena) {k : Key} {id : Nat}
    (h : c.items[k]? = some id) : ∃ it, c.Proves arena id it ∧ it.key = k := by
  obtain ⟨it, hit, rfl⟩ := ha.items k id h
  exact ⟨it, ⟨h, hit⟩, rfl⟩

/-- Places that are not recorded may change. -/
theorem Agrees.congr (ha : c.Agrees arena)
    (hsame : ∀ (k : Key) (id : Nat), c.items[k]? = some id → arena'[id]? = arena[id]?) :
    c.Agrees arena' ∧ ∀ id it, c.Proves arena' id it ↔ c.Proves arena id it := by
  have hproves : ∀ id it, c.Proves arena' id it ↔ c.Proves arena id it := fun id it =>
    and_congr_right fun hk => by rw [hsame _ id hk]
  refine ⟨⟨?_, ?_⟩, hproves⟩
  · intro k id h
    rw [hsame k id h]
    exact ha.items k id h
  · intro slot id
    simp only [hproves]
    exact ha.index slot id

theorem nodup_slotsOf (l : Label) (s : Span) : (slotsOf l s).Nodup := by
  have hboundaries : (boundariesOf s).Nodup := by
    unfold boundariesOf
    split <;> decide
  exact List.pairwise_map.mpr
    (hboundaries.imp fun hne heq => hne (congrArg ChartSlot.boundary heq))

theorem getD_list (index : Map ChartSlot (Array Nat)) (id : Nat) {slots : List ChartSlot}
    (hslots : slots.Nodup) (slot : ChartSlot) : (list index id slots).getD slot #[] =
      if slot ∈ slots then (index.getD slot #[]).push id else index.getD slot #[] := by
  unfold list
  induction slots generalizing index with
  | nil => rfl
  | cons k slots ih =>
      obtain ⟨hk, hslots⟩ := List.nodup_cons.mp hslots
      rw [List.foldl_cons, ih _ hslots, Std.TreeMap.getD_insert]
      by_cases heq : slot = k
      · subst heq
        rw [if_neg hk, if_pos Std.ReflCmp.compare_self, if_pos List.mem_cons_self]
      · have hcmp : ¬ Keyed.cmp k slot = .eq := by
          rw [Keyed.cmp_eq_iff]
          exact Ne.symm heq
        simp only [hcmp, if_false, List.mem_cons, heq, false_or]

theorem mem_list (index : Map ChartSlot (Array Nat)) (id : Nat) {slots : List ChartSlot}
    (hslots : slots.Nodup) (slot : ChartSlot) (n : Nat) :
    n ∈ (list index id slots).getD slot #[] ↔
      n ∈ index.getD slot #[] ∨ (n = id ∧ slot ∈ slots) := by
  rw [getD_list index id hslots slot]
  split
  next hmem => simp only [Array.mem_push, hmem, and_true]
  next hmem => simp only [hmem, and_false, or_false]

theorem proves_record {id : Nat} {it : Item α} (hit : arena[id]? = some it)
    (hnew : c.items[it.key]? = none) (n : Nat) (x : Item α) :
    (c.record it.label it.span id).Proves arena n x ↔
      c.Proves arena n x ∨ (n = id ∧ x = it) := by
  simp only [Proves, record]
  rw [show Key.of it.label it.span = it.key from rfl, Map.getElem?_insert_eq_some_iff]
  constructor
  · rintro ⟨⟨-, rfl⟩ | ⟨-, hx⟩, hn⟩
    · exact .inr ⟨rfl, Option.some.inj (hn.symm.trans hit)⟩
    · exact .inl ⟨hx, hn⟩
  · rintro (⟨hx, hn⟩ | ⟨rfl, rfl⟩)
    · refine ⟨.inr ⟨?_, hx⟩, hn⟩
      intro hkey
      rw [hkey, hnew] at hx
      cases hx
    · exact ⟨.inl ⟨rfl, rfl⟩, hit⟩

theorem Agrees.record (ha : c.Agrees arena) {id : Nat} {it : Item α} (hit : arena[id]? = some it)
    (hnew : c.items[it.key]? = none) : (c.record it.label it.span id).Agrees arena := by
  constructor
  · intro k n h
    rcases (Map.getElem?_insert_eq_some_iff _ _ _ _ _).mp h with ⟨rfl, rfl⟩ | ⟨-, h⟩
    · exact ⟨it, hit, rfl⟩
    · exact ha.items k n h
  · intro slot n
    simp only [proves_record hit hnew]
    refine (mem_list _ _ (nodup_slotsOf it.label it.span) _ _).trans ?_
    rw [ha.index]
    constructor
    · rintro (⟨x, hx, hslot⟩ | ⟨rfl, hslot⟩)
      · exact ⟨x, .inl hx, hslot⟩
      · exact ⟨it, .inr ⟨rfl, rfl⟩, hslot⟩
    · rintro ⟨x, hx | ⟨rfl, rfl⟩, hslot⟩
      · exact .inl ⟨x, hx, hslot⟩
      · exact .inr ⟨rfl, hslot⟩

theorem size_record {l : Label} {s : Span} (id : Nat) (hnew : c.items[Key.of l s]? = none) :
    (c.record l s id).size = c.size + 1 := by
  simp only [size, record]
  exact Map.size_insert_of_none c.items hnew _

/-- Whoever is found carries the label. -/
theorem Agrees.proves_of_lookup (ha : c.Agrees arena) {l : Label} {q : Query} {id : Nat}
    (h : id ∈ c.lookup l q) : ∃ it, c.Proves arena id it ∧ it.label = l := by
  simp only [lookup] at h
  rw [Array.mem_toList_iff, ha.index] at h
  obtain ⟨it, hit, hslot⟩ := h
  obtain ⟨b, -, hb⟩ := List.mem_map.mp hslot
  exact ⟨it, hit, congrArg ChartSlot.label hb⟩

/-- Whoever is asked for is found. -/
theorem Agrees.mem_lookup (ha : c.Agrees arena) {q : Query} {id : Nat} {it : Item α}
    (hit : c.Proves arena id it) (hq : q.Asks it.span) : id ∈ c.lookup it.label q := by
  obtain ⟨harity, hb, hpos⟩ := hq
  simp only [lookup]
  rw [Array.mem_toList_iff, ha.index]
  refine ⟨it, hit, List.mem_map.mpr ⟨q.boundary, hb, ?_⟩⟩
  simp only [slot]
  rw [harity]
  rcases hpos with hany | hpos
  · simp [hany]
  · rw [hpos]

end Chart

end Discontinuous
