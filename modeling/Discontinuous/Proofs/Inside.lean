import Discontinuous.Proofs.Closure
import Discontinuous.Proofs.Grammar
import Discontinuous.Proofs.Scheme

/-!
Inside tables. Filling a table is a closure under the clauses of a grammar, so that nothing follows
from its entries for less than what is entered.
-/
namespace Discontinuous

variable {α : Type} [Cost α]

namespace Filling

variable {g : Grammar α} {scheme : Scheme} {f : Filling α} {signatures : List UInt64}

/-- The cost that is entered for a label and a signature. -/
def view (f : Filling α) (k : TableKey) : Option α := f.table.costs[k]?

/-- What follows from entered costs by a clause, and what there is to start from. -/
inductive Follows (g : Grammar α) (scheme : Scheme) (v : TableKey → Option α) :
    TableKey → α → Prop where
  | seed {l : Label} : l ∈ g.preterminalList → Follows g scheme v ⟨l, scheme.seed⟩ Cost.zero
  | unary {c : Clause α} {a : UInt64} {x : α} : c ∈ g.clauses → c.right = none →
      v ⟨c.left, a⟩ = some x → Follows g scheme v ⟨c.lhs, a⟩ (Cost.add x c.cost)
  | binary {c : Clause α} {r : Label} {a b d : UInt64} {x y : α} : c ∈ g.clauses →
      c.right = some r → v ⟨c.left, a⟩ = some x → v ⟨r, b⟩ = some y →
      scheme.join c.yield c.join a b = some d →
      Follows g scheme v ⟨c.lhs, d⟩ (Cost.add (Cost.add x y) c.cost)

structure Good (scheme : Scheme) (f : Filling α) : Prop where
  maxlen : f.table.maxlen = scheme.maxlen
  listed : ∀ l a, a ∈ f.signaturesOf l ↔ ∃ x, f.view ⟨l, a⟩ = some x
  admitted : ∀ k x, f.view k = some x → Cost.isAdmitted x = true
  byLength_le : ∀ k x, f.view k = some x → ∃ y : α,
    f.table.byLength[(⟨k.label, scheme.length k.signature⟩ : LengthKey)]? = some y ∧
      Cost.le y x = true
  attained : ∀ (k : LengthKey) (y : α), f.table.byLength[k]? = some y →
    ∃ a, (scheme.length a : Int) = k.length ∧ f.view ⟨k.label, a⟩ = some y

theorem good_empty (scheme : Scheme) :
    Good scheme (⟨.empty scheme.kind scheme.maxlen, ∅⟩ : Filling α) := by
  refine ⟨rfl, ?_, ?_, ?_, ?_⟩
  · intro l a
    simp [signaturesOf, view, Table.empty, Std.TreeMap.getD_emptyc]
  · intro k x h
    simp [view, Table.empty] at h
  · intro k x h
    simp [view, Table.empty] at h
  · intro k y h
    simp [Table.empty] at h

theorem view_settle_self (f : Filling α) (k : TableKey) (x : α) :
    (f.settle scheme k x).view k = some x := by
  simp only [view, settle, Table.set]
  exact Std.TreeMap.getElem?_insert_self

theorem view_settle_of_ne (f : Filling α) {k k' : TableKey} (hne : k' ≠ k) (x : α) :
    (f.settle scheme k x).view k' = f.view k' :=
  Map.getElem?_insert_of_ne _ hne _

theorem view_settle_cases {k k' : TableKey} {x y : α} (h : (f.settle scheme k x).view k' = some y) :
    (k' = k ∧ y = x) ∨ f.view k' = some y := by
  rcases eq_or_ne k' k with rfl | hne
  · rw [view_settle_self] at h
    exact .inl ⟨rfl, (Option.some.inj h).symm⟩
  · exact .inr (view_settle_of_ne f hne x ▸ h)

theorem mem_signaturesOf_settle (f : Filling α) (k : TableKey) (x : α) (l : Label) (a : UInt64) :
    a ∈ (f.settle scheme k x).signaturesOf l ↔
      a ∈ f.signaturesOf l ∨ (l = k.label ∧ a = k.signature) := by
  simp only [signaturesOf, settle]
  rw [Std.TreeMap.getD_insert]
  by_cases hl : k.label = l
  · subst hl
    rw [if_pos Std.ReflCmp.compare_self, Array.toList_push, List.mem_append, List.mem_singleton]
    simp
  · rw [if_neg (by rw [Keyed.cmp_eq_iff]; exact hl)]
    simp [Ne.symm hl]

end Filling

namespace Table

theorem byLength_set_of_ne (t : Table α) {k : TableKey} {n : Int} (x : α) {k' : LengthKey}
    (hne : k' ≠ ⟨k.label, n⟩) : (t.set k n x).byLength[k']? = t.byLength[k']? := by
  simp only [set]
  split
  · split
    · exact Map.getElem?_insert_of_ne _ hne _
    · rfl
  · exact Map.getElem?_insert_of_ne _ hne _

/-- Entering a cost leaves the lesser of it and the least cost of its length so far. -/
theorem byLength_set_self [OrderedCost α] (t : Table α) (k : TableKey) (n : Int) (x : α) :
    ∃ y : α, (t.set k n x).byLength[(⟨k.label, n⟩ : LengthKey)]? = some y ∧ Cost.le y x = true ∧
      (y = x ∨ t.byLength[(⟨k.label, n⟩ : LengthKey)]? = some y) ∧
      ∀ z : α, t.byLength[(⟨k.label, n⟩ : LengthKey)]? = some z → Cost.le y z = true := by
  simp only [set]
  rw [Std.TreeMap.get?_eq_getElem?]
  cases hold : t.byLength[(⟨k.label, n⟩ : LengthKey)]? with
  | none =>
      refine ⟨x, Std.TreeMap.getElem?_insert_self, Cost.le_refl x, .inl rfl, ?_⟩
      intro z hz
      cases hz
  | some w =>
      dsimp only
      by_cases hlt : Cost.lt x w = true
      · rw [if_pos hlt]
        refine ⟨x, Std.TreeMap.getElem?_insert_self, Cost.le_refl x, .inl rfl, ?_⟩
        rintro z ⟨⟩
        exact Cost.le_of_not_le (Cost.lt_iff.mp hlt)
      · rw [if_neg hlt]
        refine ⟨w, hold, ?_, .inr rfl, ?_⟩
        · by_contra hle
          exact hlt (Cost.lt_iff.mpr hle)
        · rintro z ⟨⟩
          exact Cost.le_refl w

end Table

namespace Filling

variable {g : Grammar α} {scheme : Scheme} {f : Filling α} {signatures : List UInt64}

/-- No cost that follows is refused. -/
theorem Follows.admitted [OrderedCost α] (hg : g.WellFormed) (hf : f.Good scheme) {k : TableKey}
    {x : α} (h : Follows g scheme f.view k x) : Cost.isAdmitted x = true := by
  cases h with
  | seed _ => exact Cost.isAdmitted_zero
  | unary hc _ hx => exact Cost.isAdmitted_add (hf.admitted _ _ hx) (hg.clause _ hc).cost
  | binary hc _ hx hy _ =>
      exact Cost.isAdmitted_add (Cost.isAdmitted_add (hf.admitted _ _ hx) (hf.admitted _ _ hy))
        (hg.clause _ hc).cost

theorem Good.settle [OrderedCost α] (hf : f.Good scheme) {k : TableKey} {x : α}
    (hnew : f.view k = none) (hx : Cost.isAdmitted x = true) :
    (f.settle scheme k x).Good scheme := by
  have hkeep : ∀ k' y, f.view k' = some y → (f.settle scheme k x).view k' = some y := by
    intro k' y hy
    rw [view_settle_of_ne f fun heq => ?_]
    · exact hy
    · rw [heq, hnew] at hy
      cases hy
  obtain ⟨z, hz, hzx, hattained, hleast⟩ :=
    Table.byLength_set_self f.table k (scheme.length k.signature) x
  refine ⟨hf.maxlen, ?_, ?_, ?_, ?_⟩
  · intro l a
    rw [mem_signaturesOf_settle, hf.listed]
    constructor
    · rintro (⟨y, hy⟩ | ⟨rfl, rfl⟩)
      · exact ⟨y, hkeep _ _ hy⟩
      · exact ⟨x, view_settle_self f k x⟩
    · rintro ⟨y, hy⟩
      rcases view_settle_cases hy with ⟨rfl, -⟩ | hy
      · exact .inr ⟨rfl, rfl⟩
      · exact .inl ⟨y, hy⟩
  · intro k' y hy
    rcases view_settle_cases hy with ⟨-, rfl⟩ | hy
    · exact hx
    · exact hf.admitted k' y hy
  · intro k' y hy
    rcases view_settle_cases hy with ⟨rfl, rfl⟩ | hy
    · exact ⟨z, hz, hzx⟩
    · obtain ⟨w, hw, hwy⟩ := hf.byLength_le k' y hy
      rcases eq_or_ne (⟨k'.label, scheme.length k'.signature⟩ : LengthKey)
        ⟨k.label, scheme.length k.signature⟩ with heq | hne
      · rw [heq] at hw ⊢
        exact ⟨z, hz, OrderedCost.le_trans (hleast w hw) hwy⟩
      · exact ⟨w, (Table.byLength_set_of_ne f.table x hne).trans hw, hwy⟩
  · intro k' y hy
    rcases eq_or_ne k' ⟨k.label, scheme.length k.signature⟩ with rfl | hne
    · cases hz.symm.trans hy
      rcases hattained with rfl | hold
      · exact ⟨k.signature, rfl, view_settle_self f k z⟩
      · obtain ⟨a, ha, hview⟩ := hf.attained _ _ hold
        exact ⟨a, ha, hkeep _ _ hview⟩
    · have hold := (Table.byLength_set_of_ne f.table x hne).symm.trans hy
      obtain ⟨a, ha, hview⟩ := hf.attained k' y hold
      exact ⟨a, ha, hkeep _ _ hview⟩

/-- Every label with every signature. -/
def keys (g : Grammar α) (signatures : List UInt64) : List TableKey :=
  (List.range g.dict.size).flatMap fun (i : Nat) => signatures.map fun a => ⟨⟨i⟩, a⟩

omit [Cost α] in
theorem mem_keys {k : TableKey} :
    k ∈ keys g signatures ↔ g.dict.Has k.label ∧ k.signature ∈ signatures := by
  simp only [keys, Dictionary.Has]
  rw [List.mem_flatMap]
  constructor
  · rintro ⟨i, hi, hk⟩
    obtain ⟨a, ha, rfl⟩ := List.mem_map.mp hk
    rw [List.mem_range] at hi
    exact ⟨⟨Int.natCast_nonneg i, Int.ofNat_lt.mpr hi⟩, ha⟩
  · rintro ⟨⟨hlow, hhigh⟩, ha⟩
    refine ⟨k.label.id.toNat, List.mem_range.mpr (by omega), List.mem_map.mpr ⟨_, ha, ?_⟩⟩
    rw [Int.toNat_of_nonneg hlow]

omit [Cost α] in
theorem length_keys : (keys g signatures).length = g.dict.size * signatures.length := by
  simp [keys, List.length_flatMap, List.map_const']

theorem lookup_eq {k : TableKey} {x : α} (h : f.view k = some x) :
    f.table.lookup k.label k.signature = x := by
  simp only [Table.lookup]
  rw [Std.TreeMap.getD_eq_getD_getElem?]
  exact congrArg (Option.getD · _) h

section Lawful

variable (hg : g.WellFormed)

include hg

theorem mem_consequences [OrderedCost α] {k k' : TableKey} {x y : α} (hf : f.Good scheme)
    (hk : f.view k = some x) (h : (k', y) ∈ (rules g scheme).consequences f k x) :
    Follows g scheme f.view k' y ∧ Cost.le x y = true := by
  rcases List.mem_append.mp h with h | h
  · obtain ⟨c, hc, h⟩ := List.mem_flatMap.mp h
    obtain ⟨hc, hl⟩ := hg.mem_byLeft.mp hc
    have hcost := (hg.clause c hc).cost
    have hk' : f.view ⟨c.left, k.signature⟩ = some x := by
      rw [hl]
      exact hk
    simp only [followLeft] at h
    split at h
    next hr =>
      cases List.mem_singleton.mp h
      exact ⟨.unary hc hr hk', OrderedCost.le_add_right x hcost⟩
    next r hr =>
      obtain ⟨a, ha, h⟩ := List.mem_filterMap.mp h
      obtain ⟨d, hd, heq⟩ := Option.map_eq_some_iff.mp h
      obtain ⟨z, hz⟩ := (hf.listed r a).mp ha
      have hz' : f.table.lookup r a = z := lookup_eq hz
      cases heq
      rw [hz']
      exact ⟨.binary hc hr hk' hz hd, OrderedCost.le_trans
        (OrderedCost.le_add_right x (hf.admitted _ _ hz)) (OrderedCost.le_add_right _ hcost)⟩
  · obtain ⟨c, hc, h⟩ := List.mem_flatMap.mp h
    obtain ⟨hc, hr⟩ := hg.mem_byRight.mp hc
    have hcost := (hg.clause c hc).cost
    obtain ⟨a, ha, h⟩ := List.mem_filterMap.mp h
    obtain ⟨d, hd, heq⟩ := Option.map_eq_some_iff.mp h
    obtain ⟨z, hz⟩ := (hf.listed c.left a).mp ha
    have hz' : f.table.lookup c.left a = z := lookup_eq hz
    cases heq
    rw [hz']
    exact ⟨.binary hc hr hz hk hd, OrderedCost.le_trans
      (OrderedCost.le_add_left x (hf.admitted _ _ hz)) (OrderedCost.le_add_right _ hcost)⟩

/-- What follows with the help of the key that is settled is among its consequences. -/
theorem follows_settle {k k' : TableKey} {x y : α} (hf : (f.settle scheme k x).Good scheme)
    (h : Follows g scheme (f.settle scheme k x).view k' y) : Follows g scheme f.view k' y ∨
      (k', y) ∈ (rules g scheme).consequences (f.settle scheme k x) k x := by
  cases h with
  | seed hl => exact .inl (.seed hl)
  | @unary c a z hc hr hz =>
      rcases view_settle_cases hz with ⟨rfl, rfl⟩ | hold
      · refine .inr (List.mem_append_left _ (List.mem_flatMap.mpr ⟨c, ?_, ?_⟩))
        · exact hg.mem_byLeft.mpr ⟨hc, rfl⟩
        · simp only [followLeft]
          rw [hr]
          exact List.mem_singleton.mpr rfl
      · exact .inl (.unary hc hr hold)
  | @binary c r a b d z w hc hr hz hw hd =>
      have hleft : (f.settle scheme k x).table.lookup c.left a = z := lookup_eq hz
      have hright : (f.settle scheme k x).table.lookup r b = w := lookup_eq hw
      rcases view_settle_cases hz with ⟨rfl, rfl⟩ | holdz
      · refine .inr (List.mem_append_left _ (List.mem_flatMap.mpr ⟨c, ?_, ?_⟩))
        · exact hg.mem_byLeft.mpr ⟨hc, rfl⟩
        · simp only [followLeft]
          rw [hr]
          refine List.mem_filterMap.mpr ⟨b, (hf.listed r b).mpr ⟨w, hw⟩, ?_⟩
          simp [hd, hright]
      · rcases view_settle_cases hw with ⟨rfl, rfl⟩ | holdw
        · refine .inr (List.mem_append_right _ (List.mem_flatMap.mpr ⟨c, ?_, ?_⟩))
          · exact hg.mem_byRight.mpr ⟨hc, hr⟩
          · refine List.mem_filterMap.mpr ⟨a, (hf.listed c.left a).mpr ⟨z, hz⟩, ?_⟩
            simp [hd, hleft]
        · exact .inl (.binary hc hr holdz holdw hd)

theorem mem_keys_of_follows (hb : scheme.Bounded signatures) {v : TableKey → Option α}
    (hv : ∀ k x, v k = some x → k ∈ keys g signatures) {k : TableKey} {y : α}
    (h : Follows g scheme v k y) : k ∈ keys g signatures := by
  cases h with
  | @seed l hl =>
      exact mem_keys.mpr ⟨hg.preterminal l (Grammar.mem_preterminalList.mp hl), hb.seed⟩
  | unary hc _ hx => exact mem_keys.mpr ⟨hg.has_lhs hc, (mem_keys.mp (hv _ _ hx)).2⟩
  | binary hc _ hx hy hd =>
      rw [hg.yield_eq hc] at hd
      exact mem_keys.mpr ⟨hg.has_lhs hc,
        hb.join (mem_keys.mp (hv _ _ hx)).2 (mem_keys.mp (hv _ _ hy)).2 hd⟩

theorem lawful [OrderedCost α] (hb : scheme.Bounded signatures) :
    Closure.Lawful (rules g scheme) view
      (fun f => f.Good scheme ∧ ∀ k x, f.view k = some x → k ∈ keys g signatures)
      (Follows g scheme) (keys g signatures) where
  isSettled f k := Std.TreeMap.contains_eq_isSome_getElem?
  view_self f k x _ _ := view_settle_self f k x
  view_of_ne f k x k' hne := view_settle_of_ne f hne x
  good := by
    rintro f k x ⟨hf, hknown⟩ hnew hk hx
    refine ⟨hf.settle hnew (hx.admitted hg hf), ?_⟩
    intro k' y hy
    rcases view_settle_cases hy with ⟨rfl, -⟩ | hold
    · exact hk
    · exact hknown k' y hold
  mono := by
    intro v v' k y hle h
    cases h with
    | seed hl => exact .seed hl
    | unary hc hr hx => exact .unary hc hr (hle _ _ hx)
    | binary hc hr hx hy hd => exact .binary hc hr (hle _ _ hx) (hle _ _ hy) hd
  sound := by
    rintro f k x k' y ⟨hf, hknown⟩ hk h
    obtain ⟨hfollows, hle⟩ := mem_consequences hg hf hk h
    exact ⟨mem_keys_of_follows hg hb hknown hfollows, hle, hfollows⟩
  complete := by
    rintro f k x k' y ⟨hf, -⟩ _ h
    exact follows_settle hg hf h

end Lawful

end Filling

namespace Table

variable {g : Grammar α} {scheme : Scheme} {signatures : List UInt64}

/-- The end of filling a table: the table, and the queue that is left. -/
def filling (g : Grammar α) (scheme : Scheme) : Closure (Filling α) TableKey α :=
  Closure.run (Filling.rules g scheme) (g.dict.size * scheme.count)
    ⟨.empty scheme.kind scheme.maxlen, ∅⟩
    (g.preterminalList.map fun l => (⟨l, scheme.seed⟩, Cost.zero))

theorem fill_eq (g : Grammar α) (scheme : Scheme) :
    fill g scheme = ((filling g scheme).settled.table, (filling g scheme).agenda.effort) := rfl

theorem byLengths_eq {maxlen : Int} (hpos : 1 ≤ maxlen) :
    byLengths g maxlen = .ok (fill g (.lengths maxlen.toNat)) := by
  simp only [byLengths]
  rw [if_neg (by omega)]

theorem byPatterns_eq {maxlen : Int} (hpos : 1 ≤ maxlen) (hmax : maxlen ≤ 60) :
    byPatterns g maxlen = .ok (fill g (.patterns maxlen.toNat)) := by
  rw [byPatterns, if_neg]
  simp only [maxPatternHorizon, Pattern.maxWidth]
  omega

theorem byLengths_ok {maxlen : Int} {t : Table α} {effort : Effort}
    (h : byLengths g maxlen = .ok (t, effort)) :
    1 ≤ maxlen ∧ t = (fill g (.lengths maxlen.toNat)).1 := by
  by_cases hpos : 1 ≤ maxlen
  · cases (byLengths_eq hpos).symm.trans h
    exact ⟨hpos, rfl⟩
  · rw [byLengths, if_pos (by omega)] at h
    cases h

theorem byPatterns_ok {maxlen : Int} {t : Table α} {effort : Effort}
    (h : byPatterns g maxlen = .ok (t, effort)) :
    1 ≤ maxlen ∧ maxlen ≤ 60 ∧ t = (fill g (.patterns maxlen.toNat)).1 := by
  by_cases hmax : 1 ≤ maxlen ∧ maxlen ≤ 60
  · cases (byPatterns_eq hmax.1 hmax.2).symm.trans h
    exact ⟨hmax.1, hmax.2, rfl⟩
  · have hbad : maxlen < 1 ∨ maxlen > maxPatternHorizon := by
      simp only [maxPatternHorizon, Pattern.maxWidth]
      omega
    rw [byPatterns, if_pos hbad] at h
    cases h

/-- What is known of a table at the end of filling it. The property `P` is one that passes from
entries to what follows from them. -/
structure Filled (g : Grammar α) (scheme : Scheme) (P : TableKey → α → Prop)
    (c : Closure (Filling α) TableKey α) : Prop where
  drained : c.agenda.size = 0
  good : c.settled.Good scheme
  least : ∀ k x, Filling.Follows g scheme c.settled.view k x →
    ∃ y, c.settled.view k = some y ∧ Cost.le y x = true
  known : ∀ k x, c.settled.view k = some x → P k x

theorem filled [OrderedCost α] (hg : g.WellFormed) (hb : scheme.Bounded signatures)
    {P : TableKey → α → Prop}
    (hP : ∀ v k y, (∀ k' z, v k' = some z → P k' z) → Filling.Follows g scheme v k y → P k y) :
    Filled g scheme P (filling g scheme) := by
  have hempty : ∀ k, (⟨.empty scheme.kind scheme.maxlen, ∅⟩ : Filling α).view k = none := by
    intro k
    simp [Filling.view, empty]
  have hfollows : ∀ k y, Filling.Follows g scheme
      (⟨.empty scheme.kind scheme.maxlen, ∅⟩ : Filling α).view k y ↔
        (k, y) ∈ g.preterminalList.map fun l => ((⟨l, scheme.seed⟩ : TableKey), Cost.zero) := by
    intro k y
    constructor
    · intro h
      cases h with
      | seed hl => exact List.mem_map.mpr ⟨_, hl, rfl⟩
      | unary _ _ hx => exact nomatch (hempty _).symm.trans hx
      | binary _ _ hx _ _ => exact nomatch (hempty _).symm.trans hx
    · intro h
      obtain ⟨l, hl, heq⟩ := List.mem_map.mp h
      cases heq
      exact .seed hl
  have hknown : ∀ k x, (⟨.empty scheme.kind scheme.maxlen, ∅⟩ : Filling α).view k = some x →
      k ∈ Filling.keys g signatures := fun k x hx => nomatch (hempty k).symm.trans hx
  have hcount : (Filling.keys g signatures).length ≤ g.dict.size * scheme.count := by
    rw [Filling.length_keys]
    exact Nat.mul_le_mul_left _ hb.length_le
  obtain ⟨hend, hsize⟩ := Closure.run_ends ((Filling.lawful hg hb).and hP)
    ⟨⟨Filling.good_empty scheme, hknown⟩, fun k x hx => nomatch (hempty k).symm.trans hx⟩ hempty
    (fun k y h => Filling.mem_keys_of_follows hg hb hknown ((hfollows k y).mpr h)) hfollows hcount
  exact ⟨hsize, hend.good.1.1, hend.closed hsize, hend.good.2⟩

theorem lookup_eq_getD (t : Table α) (l : Label) (a : UInt64) :
    t.lookup l a = (t.costs[(⟨l, a⟩ : TableKey)]?).getD Cost.infinity :=
  Std.TreeMap.getD_eq_getD_getElem?

theorem lookupLength_eq_getD (t : Table α) (l : Label) (n : Int) :
    t.lookupLength l n = (t.byLength[(⟨l, n⟩ : LengthKey)]?).getD Cost.infinity :=
  Std.TreeMap.getD_eq_getD_getElem?

/-- Everything that a table tells of its entries, by signature and by length. -/
structure Closed (g : Grammar α) (scheme : Scheme) (t : Table α) : Prop where
  maxlen : t.maxlen = scheme.maxlen
  least : ∀ k x, Filling.Follows g scheme (fun k => t.costs[k]?) k x →
    ∃ y : α, t.costs[k]? = some y ∧ Cost.le y x = true
  byLength_le : ∀ (k : TableKey) (x : α), t.costs[k]? = some x →
    Cost.le (t.lookupLength k.label (scheme.length k.signature)) x = true
  admitted : ∀ l n, Cost.isAdmitted (t.lookupLength l n) = true

theorem closed_fill [BoundedCost α] (hg : g.WellFormed) (hb : scheme.Bounded signatures) :
    Closed g scheme (fill g scheme).1 := by
  have hfilled := filled (P := fun _ _ => True) hg hb fun _ _ _ _ _ => trivial
  have hgood := hfilled.good
  rw [fill_eq]
  refine ⟨hgood.maxlen, hfilled.least, ?_, ?_⟩
  · intro k x hx
    obtain ⟨y, hy, hle⟩ := hgood.byLength_le k x hx
    rw [lookupLength_eq_getD, hy]
    exact hle
  · intro l n
    rw [lookupLength_eq_getD]
    cases hy : (filling g scheme).settled.table.byLength[(⟨l, n⟩ : LengthKey)]? with
    | none => exact Cost.isAdmitted_infinity
    | some y =>
        obtain ⟨a, -, hview⟩ := hgood.attained _ _ hy
        exact hgood.admitted _ _ hview

end Table

end Discontinuous
