import Discontinuous.Keyed

/-!
Finite maps, read through their look-ups. Codes are injective, so a value is found under its own
key only.
-/
namespace Discontinuous

variable {κ β : Type} [Keyed κ]

@[simp] theorem Keyed.cmp_eq_iff {a b : κ} : Keyed.cmp a b = .eq ↔ a = b :=
  Std.LawfulEqCmp.compare_eq_iff_eq

namespace Map

theorem getElem?_insert_of_ne (m : Map κ β) {k a : κ} (h : a ≠ k) (v : β) :
    (m.insert k v)[a]? = m[a]? := by
  rw [Std.TreeMap.getElem?_insert, if_neg]
  rw [Keyed.cmp_eq_iff]
  exact h.symm

theorem getElem?_insert_eq_some_iff (m : Map κ β) (k a : κ) (v w : β) :
    (m.insert k v)[a]? = some w ↔ (a = k ∧ v = w) ∨ (a ≠ k ∧ m[a]? = some w) := by
  by_cases h : a = k
  · subst h
    simp
  · rw [getElem?_insert_of_ne m h]
    simp [h]

/-- Under a new key nothing is lost. -/
theorem getElem?_insert_of_none (m : Map κ β) {k a : κ} {v w : β} (hk : m[k]? = none)
    (ha : m[a]? = some w) : (m.insert k v)[a]? = some w := by
  rw [getElem?_insert_of_ne m _ v, ha]
  rintro rfl
  cases hk.symm.trans ha

theorem getElem?_erase_eq_some_iff (m : Map κ β) (k a : κ) (w : β) :
    (m.erase k)[a]? = some w ↔ a ≠ k ∧ m[a]? = some w := by
  by_cases h : a = k
  · subst h
    simp
  · have hne : Keyed.cmp k a ≠ .eq := fun heq => h (Keyed.cmp_eq_iff.mp heq).symm
    rw [Std.TreeMap.getElem?_erase, if_neg hne]
    simp [h]

theorem contains_eq_false_iff (m : Map κ β) (a : κ) : m.contains a = false ↔ m[a]? = none := by
  rw [Std.TreeMap.contains_eq_isSome_getElem?]
  exact Option.isSome_eq_false_iff.trans Option.isNone_iff_eq_none

theorem size_insert_of_none (m : Map κ β) {k : κ} (h : m[k]? = none) (v : β) :
    (m.insert k v).size = m.size + 1 := by
  have hnew := (contains_eq_false_iff m k).mpr h
  rw [Std.TreeMap.size_insert, hnew, if_neg Bool.false_ne_true]

theorem size_insert_of_some (m : Map κ β) {k : κ} {w : β} (h : m[k]? = some w) (v : β) :
    (m.insert k v).size = m.size := by
  have hold : m.contains k = true := by
    rw [Std.TreeMap.contains_eq_isSome_getElem?, h]
    rfl
  rw [Std.TreeMap.size_insert, if_pos hold]

theorem nodup_keys (m : Map κ β) : m.keys.Nodup := by
  refine Std.TreeMap.distinct_keys.imp ?_
  rintro a b hne rfl
  exact hne Std.ReflCmp.compare_self

theorem mem_keys (m : Map κ β) (k : κ) : k ∈ m.keys ↔ ∃ v, m[k]? = some v := by
  rw [Std.TreeMap.mem_keys, ← Std.TreeMap.isSome_getElem?_iff_mem]
  exact Option.isSome_iff_exists

theorem values_eq_map_toList (m : Map κ β) : m.values = m.toList.map Prod.snd := by
  change m.foldr (fun _ v l => v :: l) [] = _
  rw [Std.TreeMap.foldr_eq_foldr_toList]
  induction m.toList with
  | nil => rfl
  | cons x l ih => rw [List.foldr_cons, List.map_cons, ih]

/-- The values of a map are those found under some key. -/
theorem mem_values (m : Map κ β) (v : β) : v ∈ m.values ↔ ∃ k : κ, m[k]? = some v := by
  rw [values_eq_map_toList, List.mem_map]
  constructor
  · rintro ⟨⟨k, v⟩, hmem, rfl⟩
    exact ⟨k, Std.TreeMap.mem_toList_iff_getElem?_eq_some.mp hmem⟩
  · rintro ⟨k, hk⟩
    exact ⟨(k, v), Std.TreeMap.mem_toList_iff_getElem?_eq_some.mpr hk, rfl⟩

end Map

end Discontinuous
