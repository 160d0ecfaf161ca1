import Discontinuous.Estimate.Build
import Discontinuous.Proofs.Inside

/-!
Outside estimates. They are a closure from the start symbol down to the children of clauses, with
siblings at their inside estimates. Hence the estimate of a child is never more than that of its
parent and what the clause and the sibling add to it. Estimates are kept in a flat table, where
every cell within the horizon has a place of its own, as long as the size of the table is a word.
-/
namespace Discontinuous

namespace Cell

variable {n : Nat}

/-- Numbers stay in order when a digit of base `n + 1` is appended to the lesser one. -/
theorem digit_lt {a b j : Nat} (ha : a < b) (hj : j ≤ n) : a * (n + 1) + j < b * (n + 1) := by
  have hmul := Nat.mul_le_mul_right (n + 1) (Nat.succ_le_of_lt ha)
  rw [Nat.succ_mul] at hmul
  omega

theorem digit_div {j : Nat} (a : Nat) (hj : j ≤ n) : (a * (n + 1) + j) / (n + 1) = a := by
  rw [Nat.mul_comm, Nat.mul_add_div (Nat.succ_pos n), Nat.div_eq_of_lt (by omega), Nat.add_zero]

theorem digit_mod {j : Nat} (a : Nat) (hj : j ≤ n) : (a * (n + 1) + j) % (n + 1) = j := by
  rw [Nat.mul_comm, Nat.mul_add_mod, Nat.mod_eq_of_lt (by omega)]

theorem Fits.places_eq {labels : Nat} (h : Fits labels n) :
    places labels n = labels * (n + 1) * (n + 1) := by
  rw [places, ← Word.unsigned_of_lt h]
  push_cast
  rfl

theorem Fits.mono {labels m : Nat} (h : Fits labels n) (hle : m ≤ n) : Fits labels m :=
  Nat.lt_of_le_of_lt (Nat.mul_le_mul (Nat.mul_le_mul_left labels (Nat.succ_le_succ hle))
    (Nat.succ_le_succ hle)) h

theorem number_lt {labels : Nat} {k : Cell} (hlabel : k.label.id.toNat < labels)
    (hlength : k.length ≤ n) (hcovered : k.covered ≤ n) :
    (k.label.id.toNat * (n + 1) + k.length) * (n + 1) + k.covered <
      labels * (n + 1) * (n + 1) :=
  digit_lt (digit_lt hlabel hlength) hcovered

/-- Places do not wrap in a table whose size does not wrap. -/
theorem Fits.place_eq {labels : Nat} (h : Fits labels n) {k : Cell} (hlow : 0 ≤ k.label.id)
    (hlabel : k.label.id.toNat < labels) (hlength : k.length ≤ n) (hcovered : k.covered ≤ n) :
    k.place n = (k.label.id.toNat * (n + 1) + k.length) * (n + 1) + k.covered := by
  have hlt := Nat.lt_trans (number_lt hlabel hlength hcovered) h
  rw [place, ← Word.unsigned_of_lt hlt]
  push_cast
  rw [Int.toNat_of_nonneg hlow]

theorem ofPlace_place {labels : Nat} (h : Fits labels n) {k : Cell} (hlow : 0 ≤ k.label.id)
    (hlabel : k.label.id.toNat < labels) (hlength : k.length ≤ n) (hcovered : k.covered ≤ n) :
    ofPlace n (k.place n) = k := by
  rw [h.place_eq hlow hlabel hlength hcovered]
  simp only [ofPlace]
  rw [digit_div _ hcovered, digit_mod _ hcovered, digit_div _ hlength, digit_mod _ hlength,
    Int.toNat_of_nonneg hlow]

theorem place_lt_places {labels : Nat} (h : Fits labels n) {k : Cell} (hlow : 0 ≤ k.label.id)
    (hlabel : k.label.id.toNat < labels) (hlength : k.length ≤ n) (hcovered : k.covered ≤ n) :
    k.place n < places labels n := by
  rw [h.place_eq hlow hlabel hlength hcovered, h.places_eq]
  exact number_lt hlabel hlength hcovered

end Cell

namespace Outside

variable {α : Type} [Cost α] {g : Grammar α} {inside : Table α}

theorem mem_splits {a b m : Nat} {x : Nat × Nat} :
    x ∈ splits a b m ↔ a ≤ x.1 ∧ b ≤ x.2 ∧ x.1 + x.2 = m := by
  simp only [splits]
  rw [List.mem_map]
  constructor
  · rintro ⟨k, hk, rfl⟩
    rw [List.mem_range] at hk
    dsimp only
    omega
  · rintro ⟨ha, hb, hsum⟩
    refine ⟨x.1 - a, List.mem_range.mpr (by omega), Prod.ext ?_ ?_⟩ <;> dsimp only <;> omega

/-- The children of a clause: one with all positions, or two with a share of them each. -/
theorem mem_descend {cell k : Cell} {x y : α} {c : Clause α} :
    (k, y) ∈ descend g inside cell x c ↔
      (c.right = none ∧ k = { cell with label := c.left } ∧ y = Cost.add x c.cost) ∨
      ∃ r nl nr, c.right = some r ∧ g.arity c.left ≤ nl ∧ g.arity r ≤ nr ∧
        nl + nr = cell.covered ∧
        ((k = ⟨c.left, cell.length, nl⟩ ∧
            y = Cost.add (Cost.add x (inside.lookupLength r nr)) c.cost) ∨
          (k = ⟨r, cell.length, nr⟩ ∧
            y = Cost.add (Cost.add x (inside.lookupLength c.left nl)) c.cost)) := by
  simp only [descend]
  cases hr : c.right with
  | none => simp
  | some r =>
      simp only [List.mem_flatMap, Prod.exists, mem_splits, List.mem_cons, List.not_mem_nil,
        or_false, Prod.mk.injEq, reduceCtorEq, false_and, false_or, Option.some.injEq]
      constructor
      · rintro ⟨nl, nr, ⟨hl, hr, hsum⟩, h⟩
        exact ⟨r, nl, nr, rfl, hl, hr, hsum, h⟩
      · rintro ⟨_, nl, nr, rfl, hl, hr, hsum, h⟩
        exact ⟨nl, nr, ⟨hl, hr, hsum⟩, h⟩

/-- Every label with every length and every number of positions up to the horizon. -/
def cells (g : Grammar α) (inside : Table α) : List Cell :=
  (List.range g.dict.size).flatMap fun (i : Nat) =>
    (List.range inside.maxlen.toNat).flatMap fun m =>
      (List.range inside.maxlen.toNat).map fun k => ⟨⟨i⟩, m + 1, k + 1⟩

omit [Cost α] in
theorem mem_cells {k : Cell} : k ∈ cells g inside ↔ g.dict.Has k.label ∧
    (1 ≤ k.length ∧ k.length ≤ inside.maxlen.toNat) ∧
    1 ≤ k.covered ∧ k.covered ≤ inside.maxlen.toNat := by
  simp only [cells, Dictionary.Has, List.mem_flatMap, List.mem_map, List.mem_range]
  constructor
  · rintro ⟨i, hi, m, hm, j, hj, rfl⟩
    dsimp only
    omega
  · rintro ⟨⟨hlow, hhigh⟩, hlength, hcovered⟩
    obtain ⟨⟨id⟩, m, j⟩ := k
    dsimp only at hlow hhigh hlength hcovered
    refine ⟨id.toNat, by omega, m - 1, by omega, j - 1, by omega, ?_⟩
    rw [Int.toNat_of_nonneg hlow, Nat.sub_add_cancel hlength.1, Nat.sub_add_cancel hcovered.1]

omit [Cost α] in
theorem length_cells : (cells g inside).length =
    g.dict.size * (inside.maxlen.toNat * inside.maxlen.toNat) := by
  simp [cells, List.length_flatMap, List.map_const']

section Places

omit [Cost α]

variable (hfits : Cell.Fits g.dict.size inside.maxlen.toNat)

include hfits

theorem ofPlace_of_mem_cells {k : Cell} (hk : k ∈ cells g inside) :
    Cell.ofPlace inside.maxlen.toNat (k.place inside.maxlen.toNat) = k := by
  obtain ⟨⟨hlow, hhigh⟩, hlength, hcovered⟩ := mem_cells.mp hk
  exact Cell.ofPlace_place hfits hlow (by omega) hlength.2 hcovered.2

theorem place_injOn {k k' : Cell} (hk : k ∈ cells g inside) (hk' : k' ∈ cells g inside)
    (h : k.place inside.maxlen.toNat = k'.place inside.maxlen.toNat) : k = k' := by
  rw [← ofPlace_of_mem_cells hfits hk, h, ofPlace_of_mem_cells hfits hk']

theorem place_lt_of_mem_cells {k : Cell} (hk : k ∈ cells g inside) :
    k.place inside.maxlen.toNat < Cell.places g.dict.size inside.maxlen.toNat := by
  obtain ⟨⟨hlow, hhigh⟩, hlength, hcovered⟩ := mem_cells.mp hk
  exact Cell.place_lt_places hfits hlow (by omega) hlength.2 hcovered.2

end Places

/-- What follows from settled estimates, and what there is to start from. -/
inductive Follows (g : Grammar α) (inside : Table α) (v : Cell → Option α) :
    Cell → α → Prop where
  | start {m : Nat} : 1 ≤ m → m ≤ inside.maxlen.toNat →
      Follows g inside v ⟨g.start, m, m⟩ Cost.zero
  | descend {cell k : Cell} {x y : α} {c : Clause α} : c ∈ g.clauses → c.lhs = cell.label →
      cell ∈ cells g inside → v cell = some x → (k, y) ∈ descend g inside cell x c →
      Cost.isInfinite y = false → Follows g inside v k y

/-- The estimate of a cell in a flat table. -/
def costAt (inside : Table α) (costs : Array (Option α)) (k : Cell) : Option α :=
  costs.getD (k.place inside.maxlen.toNat) none

/-- What follows in a flat table, by places. -/
def FollowsAt (g : Grammar α) (inside : Table α) (v : Nat → Option α) (i : Nat) (y : α) : Prop :=
  ∃ k : Cell, k.place inside.maxlen.toNat = i ∧
    Follows g inside (fun k => v (k.place inside.maxlen.toNat)) k y

def keys (g : Grammar α) (inside : Table α) : List Nat :=
  (cells g inside).map (Cell.place inside.maxlen.toNat)

theorem childArity_pos (jt : JoinType) : 1 ≤ jt.childArity .left := by
  cases jt <;> decide

/-- A flat table with a place for every cell, and nothing in the places of no cell. -/
structure Flat (g : Grammar α) (inside : Table α) (costs : Array (Option α)) : Prop where
  size : costs.size = Cell.places g.dict.size inside.maxlen.toNat
  known : ∀ i x, costs.getD i none = some x → i ∈ keys g inside

omit [Cost α] in
theorem Flat.lt_size (hfits : Cell.Fits g.dict.size inside.maxlen.toNat)
    {costs : Array (Option α)} (h : Flat g inside costs) {i : Nat} (hi : i ∈ keys g inside) :
    i < costs.size := by
  obtain ⟨k, hk, rfl⟩ := List.mem_map.mp hi
  rw [h.size]
  exact place_lt_of_mem_cells hfits hk

omit [Cost α] in
theorem getD_setIfInBounds_self {costs : Array (Option α)} {i : Nat} (hi : i < costs.size)
    (x : α) : (costs.setIfInBounds i (some x)).getD i none = some x := by
  rw [Array.getD_eq_getD_getElem?, Array.getElem?_setIfInBounds_self_of_lt hi, Option.getD_some]

omit [Cost α] in
theorem getD_setIfInBounds_of_ne (costs : Array (Option α)) {i j : Nat} (hne : j ≠ i) (x : α) :
    (costs.setIfInBounds i (some x)).getD j none = costs.getD j none := by
  rw [Array.getD_eq_getD_getElem?, Array.getElem?_setIfInBounds_ne hne.symm,
    Array.getD_eq_getD_getElem?]

section Lawful

variable (hg : g.WellFormed) (hfits : Cell.Fits g.dict.size inside.maxlen.toNat)
  (hadmitted : ∀ l n, Cost.isAdmitted (inside.lookupLength l n) = true)

include hg

theorem mem_cells_of_follows {v : Cell → Option α} {k : Cell} {y : α}
    (h : Follows g inside v k y) : k ∈ cells g inside := by
  cases h with
  | start hpos hle => exact mem_cells.mpr ⟨hg.start, ⟨hpos, hle⟩, hpos, hle⟩
  | @descend cell _ x _ c hc hl hcell _ hmem _ =>
      obtain ⟨-, hlength, hcovered⟩ := mem_cells.mp hcell
      obtain ⟨hleft, harity⟩ := hg.arity_left hc
      have hpos := childArity_pos c.join
      rcases mem_descend.mp hmem with ⟨-, rfl, -⟩ |
        ⟨r, nl, nr, hr, hnl, hnr, hsum, ⟨rfl, -⟩ | ⟨rfl, -⟩⟩
      · exact mem_cells.mpr ⟨hleft, hlength, hcovered⟩
      · refine mem_cells.mpr ⟨hleft, hlength, ?_, ?_⟩ <;> dsimp only <;> omega
      · obtain ⟨hright, harity'⟩ := hg.arity_right hc hr
        have hpos' := JoinType.childArity_right_ne_zero (hg.isUnary_eq_false hc hr)
        refine mem_cells.mpr ⟨hright, hlength, ?_, ?_⟩ <;> dsimp only <;> omega

include hfits in
/-- The consequences of a place are what follows from its cell by one clause. -/
theorem mem_consequences {cell : Cell} (hcell : cell ∈ cells g inside) {i : Nat} {x y : α} :
    (i, y) ∈ consequences g inside (cell.place inside.maxlen.toNat) x ↔
      ∃ k c, c ∈ g.clauses ∧ c.lhs = cell.label ∧ (k, y) ∈ descend g inside cell x c ∧
        Cost.isInfinite y = false ∧ k.place inside.maxlen.toNat = i := by
  simp only [consequences]
  rw [ofPlace_of_mem_cells hfits hcell]
  simp only [List.mem_map, List.mem_filter, List.mem_flatMap, Prod.exists, Prod.mk.injEq,
    Bool.not_eq_true', hg.mem_byLhs]
  constructor
  · rintro ⟨k, _, ⟨⟨c, ⟨hc, hl⟩, hmem⟩, hfin⟩, hplace, rfl⟩
    exact ⟨k, c, hc, hl, hmem, hfin, hplace⟩
  · rintro ⟨k, c, hc, hl, hmem, hfin, hplace⟩
    exact ⟨k, y, ⟨⟨c, ⟨hc, hl⟩, hmem⟩, hfin⟩, hplace, rfl⟩

include hadmitted

theorem le_of_mem_descend [OrderedCost α] {cell k : Cell} {x y : α} {c : Clause α}
    (hc : c ∈ g.clauses) (h : (k, y) ∈ descend g inside cell x c) : Cost.le x y = true := by
  have hcost := (hg.clause c hc).cost
  rcases mem_descend.mp h with ⟨-, -, rfl⟩ | ⟨r, nl, nr, -, -, -, -, ⟨-, rfl⟩ | ⟨-, rfl⟩⟩
  · exact OrderedCost.le_add_right x hcost
  · exact OrderedCost.le_trans (OrderedCost.le_add_right x (hadmitted _ _))
      (OrderedCost.le_add_right _ hcost)
  · exact OrderedCost.le_trans (OrderedCost.le_add_right x (hadmitted _ _))
      (OrderedCost.le_add_right _ hcost)

include hfits in
theorem lawful [OrderedCost α] :
    Closure.Lawful (rules g inside) (fun costs i => costs.getD i none) (Flat g inside)
      (FollowsAt g inside) (keys g inside) where
  isSettled costs i := rfl
  view_self costs i x hcosts hi := getD_setIfInBounds_self (hcosts.lt_size hfits hi) x
  view_of_ne costs i x j hne := getD_setIfInBounds_of_ne costs hne x
  good := by
    intro costs i x hcosts _ hi _
    refine ⟨(Array.size_setIfInBounds ..).trans hcosts.size, ?_⟩
    intro j y hy
    rcases eq_or_ne j i with rfl | hne
    · exact hi
    · exact hcosts.known j y (getD_setIfInBounds_of_ne costs hne x ▸ hy)
  mono := by
    rintro v v' i y hle ⟨k, hk, h⟩
    refine ⟨k, hk, ?_⟩
    cases h with
    | start hpos hle => exact .start hpos hle
    | descend hc hl hcell hx hmem hfin => exact .descend hc hl hcell (hle _ _ hx) hmem hfin
  sound := by
    intro costs i x j y hcosts hi h
    obtain ⟨cell, hcell, rfl⟩ := List.mem_map.mp (hcosts.known i x hi)
    obtain ⟨k, c, hc, hl, hmem, hfin, rfl⟩ := (mem_consequences hg hfits hcell).mp h
    have hfollows : Follows g inside (costAt inside costs) k y :=
      .descend hc hl hcell hi hmem hfin
    exact ⟨List.mem_map_of_mem (mem_cells_of_follows hg hfollows),
      le_of_mem_descend hg hadmitted hc hmem, k, rfl, hfollows⟩
  complete := by
    rintro costs i x j y hcosts - ⟨k, rfl, h⟩
    cases h with
    | start hpos hle => exact .inl ⟨_, rfl, .start hpos hle⟩
    | @descend cell _ z _ c hc hl hcell hz hmem hfin =>
        rcases eq_or_ne (cell.place inside.maxlen.toNat) i with rfl | hne
        · have hlt : cell.place inside.maxlen.toNat < costs.size := by
            simpa [rules] using hcosts.lt_size hfits (List.mem_map_of_mem hcell)
          cases (getD_setIfInBounds_self hlt x).symm.trans hz
          exact .inr ((mem_consequences hg hfits hcell).mpr ⟨k, c, hc, hl, hmem, hfin, rfl⟩)
        · have hz := (getD_setIfInBounds_of_ne costs hne x).symm.trans hz
          exact .inl ⟨k, rfl, .descend hc hl hcell hz hmem hfin⟩

end Lawful

omit [Cost α] in
theorem getD_blank (i : Nat) : (blank g inside).getD i none = none := by
  rw [blank, Array.getD_eq_getD_getElem?, Array.getElem?_replicate]
  split <;> rfl

omit [Cost α] in
theorem flat_blank : Flat g inside (blank g inside) :=
  ⟨Array.size_replicate, fun i _ hx => nomatch (getD_blank i).symm.trans hx⟩

theorem followsAt_blank (i : Nat) (y : α) :
    FollowsAt g inside (fun i => (blank g inside).getD i none) i y ↔ (i, y) ∈ seeds g inside := by
  unfold seeds
  rw [List.mem_map]
  constructor
  · rintro ⟨k, rfl, h⟩
    cases h with
    | @start m hpos hle =>
        refine ⟨m - 1, List.mem_range.mpr (by omega), ?_⟩
        rw [Nat.sub_add_cancel hpos]
    | descend _ _ _ hx _ _ => exact nomatch (getD_blank _).symm.trans hx
  · rintro ⟨m, hm, heq⟩
    cases heq
    exact ⟨_, rfl, .start (by omega) (List.mem_range.mp hm)⟩

theorem mem_keys_of_mem_seeds (hg : g.WellFormed) (i : Nat) (y : α) (h : (i, y) ∈ seeds g inside) :
    i ∈ keys g inside := by
  obtain ⟨k, rfl, hk⟩ := (followsAt_blank i y).mpr h
  exact List.mem_map_of_mem (mem_cells_of_follows hg hk)

omit [Cost α] in
theorem length_keys_le (hfits : Cell.Fits g.dict.size inside.maxlen.toNat) :
    (keys g inside).length ≤ Cell.places g.dict.size inside.maxlen.toNat := by
  rw [keys, List.length_map, length_cells, hfits.places_eq, Nat.mul_assoc]
  exact Nat.mul_le_mul_left _ (Nat.mul_le_mul (Nat.le_succ _) (Nat.le_succ _))

/-- What is known at the end of the estimates. The property `P` is one that passes from cells to
what follows from them. -/
structure Ended (g : Grammar α) (inside : Table α) (P : Cell → α → Prop)
    (c : Closure (Array (Option α)) Nat α) : Prop where
  drained : c.agenda.size = 0
  size : c.settled.size = Cell.places g.dict.size inside.maxlen.toNat
  least : ∀ k y, Follows g inside (costAt inside c.settled) k y →
    ∃ z, costAt inside c.settled k = some z ∧ Cost.le z y = true
  known : ∀ k z, k ∈ cells g inside → costAt inside c.settled k = some z → P k z

theorem ended [OrderedCost α] (hg : g.WellFormed)
    (hfits : Cell.Fits g.dict.size inside.maxlen.toNat)
    (hadmitted : ∀ l n, Cost.isAdmitted (inside.lookupLength l n) = true) {P : Cell → α → Prop}
    (hP : ∀ v k y, (∀ k' z, k' ∈ cells g inside → v k' = some z → P k' z) →
      Follows g inside v k y → P k y) : Ended g inside P (descent g inside) := by
  have hplaced : ∀ v i y, (∀ j z, v j = some z →
      ∀ k ∈ cells g inside, k.place inside.maxlen.toNat = j → P k z) → FollowsAt g inside v i y →
      ∀ k ∈ cells g inside, k.place inside.maxlen.toNat = i → P k y := by
    rintro v i y hv ⟨k', hk', h⟩ k hk rfl
    cases place_injOn hfits (mem_cells_of_follows hg h) hk hk'
    exact hP _ _ _ (fun k z hk hz => hv _ z hz k hk rfl) h
  obtain ⟨hend, hsize⟩ := Closure.run_ends ((lawful hg hfits hadmitted).and hplaced)
    ⟨flat_blank, fun i x hx => nomatch (getD_blank i).symm.trans hx⟩ getD_blank
    (mem_keys_of_mem_seeds hg) followsAt_blank (length_keys_le hfits)
  refine ⟨hsize, hend.good.1.size, ?_, fun k z hk hz => hend.good.2 _ z hz k hk rfl⟩
  intro k y h
  exact hend.closed hsize _ y ⟨k, rfl, h⟩

/-- Nothing follows from the estimates for less than what is estimated. -/
structure Closed (g : Grammar α) (inside : Table α) (o : Outside α) : Prop where
  maxlen : o.maxlen = inside.maxlen
  labels : o.labels = g.dict.size
  least : ∀ k y, Follows g inside (costAt inside o.costs) k y →
    ∃ z : α, costAt inside o.costs k = some z ∧ Cost.le z y = true
  admitted : ∀ k z, k ∈ cells g inside → costAt inside o.costs k = some z →
    Cost.isAdmitted z = true

theorem closed_estimate [OrderedCost α] (hg : g.WellFormed)
    (hfits : Cell.Fits g.dict.size inside.maxlen.toNat)
    (hadmitted : ∀ l n, Cost.isAdmitted (inside.lookupLength l n) = true) :
    Closed g inside (estimate g inside).1 := by
  have hended : Ended g inside (fun _ z => Cost.isAdmitted z = true) (descent g inside) := by
    apply ended hg hfits hadmitted
    intro v k y hv h
    cases h with
    | start _ _ => exact Cost.isAdmitted_zero
    | descend hc _ hcell hx hmem _ =>
        exact OrderedCost.le_trans (hv _ _ hcell hx) (le_of_mem_descend hg hadmitted hc hmem)
  exact ⟨rfl, rfl, hended.least, hended.known⟩

/-- A cell within the horizon. -/
structure InRange (g : Grammar α) (inside : Table α) (k : Cell) : Prop where
  label : g.dict.Has k.label
  length_le : (k.length : Int) ≤ inside.maxlen
  covered_pos : 1 ≤ k.covered
  covered_le : k.covered ≤ k.length

omit [Cost α] in
theorem InRange.mem_cells {k : Cell} (hk : InRange g inside k) : k ∈ cells g inside := by
  obtain ⟨hlabel, hlength, hpos, hle⟩ := hk
  exact Outside.mem_cells.mpr ⟨hlabel, by omega, hpos, by omega⟩

section Lookup

variable {o : Outside α} (ho : Closed g inside o)

include ho

theorem lookup_eq {k : Cell} (hk : InRange g inside k) :
    o.lookup k.label k.length k.covered = (costAt inside o.costs k).getD Cost.infinity := by
  obtain ⟨⟨hlow, hhigh⟩, hlength, hpos, hle⟩ := hk
  have hmaxlen := ho.maxlen
  have hlabels := ho.labels
  simp only [lookup]
  rw [if_neg (by omega), if_neg (by omega), hmaxlen, Int.toNat_natCast, Int.toNat_natCast]
  rfl

theorem lookup_of_lt {l : Label} {m k : Int} (h : inside.maxlen < m) :
    o.lookup l m k = Cost.zero := by
  have hmaxlen := ho.maxlen
  simp only [lookup]
  rw [if_pos (by omega)]

variable [BoundedCost α] (hg : g.WellFormed)

include hg

theorem lookup_start {m : Nat} (hpos : 1 ≤ m) (hle : (m : Int) ≤ inside.maxlen) :
    o.lookup g.start m m = Cost.zero := by
  obtain ⟨z, hz, hzero⟩ := ho.least _ _ (.start hpos (by omega))
  have hk : InRange g inside ⟨g.start, m, m⟩ := ⟨hg.start, hle, hpos, Nat.le_refl m⟩
  rw [lookup_eq ho hk, hz]
  exact OrderedCost.le_antisymm hzero (ho.admitted _ z hk.mem_cells hz)

/-- The estimate of a child is no more than what follows from that of its parent. -/
theorem lookup_le_of_mem_descend
    (hadmitted : ∀ l n, Cost.isAdmitted (inside.lookupLength l n) = true) {cell k : Cell} {y : α}
    {c : Clause α} (hc : c ∈ g.clauses) (hl : c.lhs = cell.label) (hcell : InRange g inside cell)
    (hk : InRange g inside k)
    (h : (k, y) ∈ descend g inside cell (o.lookup cell.label cell.length cell.covered) c) :
    Cost.le (o.lookup k.label k.length k.covered) y = true := by
  cases hinf : Cost.isInfinite y with
  | true => exact Cost.le_of_isInfinite _ hinf
  | false =>
      rw [lookup_eq ho hcell] at h
      cases hx : costAt inside o.costs cell with
      | none =>
          rw [hx] at h
          have hbig := le_of_mem_descend hg hadmitted hc h
          rw [show Cost.isInfinite y = true from hbig] at hinf
          cases hinf
      | some x =>
          rw [hx] at h
          obtain ⟨z, hz, hle⟩ := ho.least k y (.descend hc hl hcell.mem_cells hx h hinf)
          rw [lookup_eq ho hk, hz]
          exact hle

end Lookup

end Outside

namespace Table

variable {α : Type} [Cost α] {g : Grammar α} {maxlen : Int} {t : Table α}

/-- Tables are made by lengths or by patterns, up to the horizon that was asked for. -/
theorem closed_of_estimate [BoundedCost α] (hg : g.WellFormed) {kind : EstimateKind}
    {events : List (Event α)} (h : estimate g kind maxlen = .ok (t, events)) :
    ∃ scheme, Closed g scheme t ∧ t.maxlen = maxlen ∧
      (scheme = .lengths maxlen.toNat ∨ maxlen ≤ 60 ∧ scheme = .patterns maxlen.toNat) := by
  simp only [estimate, Except.map] at h
  split at h
  · cases h
  next filled hfilled =>
    cases h
    cases kind with
    | bitset =>
        obtain ⟨hpos, hmax, heq⟩ := byPatterns_ok hfilled
        have hbounded : (Scheme.patterns maxlen.toNat).Bounded _ :=
          Scheme.bounded_patterns (by omega) (by omega)
        have hclosed := closed_fill hg hbounded
        exact ⟨_, heq ▸ hclosed, heq ▸ hclosed.maxlen.trans (Int.toNat_of_nonneg (by omega)),
          .inr ⟨hmax, rfl⟩⟩
    | length | off =>
        obtain ⟨hpos, heq⟩ := byLengths_ok hfilled
        have hbounded : (Scheme.lengths maxlen.toNat).Bounded _ :=
          Scheme.bounded_lengths (by omega)
        have hclosed := closed_fill hg hbounded
        exact ⟨_, heq ▸ hclosed, heq ▸ hclosed.maxlen.trans (Int.toNat_of_nonneg (by omega)),
          .inl rfl⟩

theorem estimate_bitset (hpos : 1 ≤ maxlen) (hmax : maxlen ≤ 60) : ∃ events,
    estimate g .bitset maxlen = .ok ((fill g (.patterns maxlen.toNat)).1, events) := by
  simp only [estimate]
  rw [byPatterns_eq hpos hmax]
  exact ⟨_, rfl⟩

theorem estimate_length (hpos : 1 ≤ maxlen) : ∃ events,
    estimate g .length maxlen = .ok ((fill g (.lengths maxlen.toNat)).1, events) := by
  simp only [estimate]
  rw [byLengths_eq hpos]
  exact ⟨_, rfl⟩

end Table

namespace Estimates

variable {α : Type} [Cost α]

/-- What is built of a kind that has an inside table. -/
theorem build_of_table {g : Grammar α} {kind : EstimateKind} {maxlen : Int} {inside : Table α}
    {before : List (Event α)} (h : Table.estimate g kind maxlen = .ok (inside, before))
    (hkind : kind ≠ .off) :
    build g kind maxlen = (Outside.build g inside).bind fun (o, after) =>
      .ok (.outside o, before ++ after) := by
  cases kind with
  | off => exact absurd rfl hkind
  | length | bitset =>
      simp only [build]
      rw [h]
      rfl

theorem build_of_fits {g : Grammar α} {kind : EstimateKind} {maxlen : Int} {inside : Table α}
    {before : List (Event α)} (h : Table.estimate g kind maxlen = .ok (inside, before))
    (hkind : kind ≠ .off) (hfits : Cell.Fits g.dict.size inside.maxlen.toNat) :
    ∃ events, build g kind maxlen = .ok (.outside (Outside.estimate g inside).1, events) := by
  rw [build_of_table h hkind, Outside.build, if_pos hfits]
  exact ⟨_, rfl⟩

/-- Estimates are off, or outside estimates from an inside table. They stand in a flat table whose
size is a word. -/
theorem build_ok {g : Grammar α} {kind : EstimateKind} {maxlen : Int} {est : Estimates α}
    {events : List (Event α)} (h : build g kind maxlen = .ok (est, events)) :
    est = .zero ∨ ∃ inside before, Table.estimate g kind maxlen = .ok (inside, before) ∧
      Cell.Fits g.dict.size inside.maxlen.toNat ∧ est = .outside (Outside.estimate g inside).1 := by
  by_cases hkind : kind = .off
  · subst hkind
    cases h
    exact .inl rfl
  right
  rcases hinside : Table.estimate g kind maxlen with e | ⟨inside, before⟩
  · cases kind with
    | off => exact absurd rfl hkind
    | length | bitset =>
        simp only [build] at h
        rw [hinside] at h
        cases h
  · rw [build_of_table hinside hkind, Outside.build] at h
    split at h
    next hfits =>
      cases h
      exact ⟨inside, before, rfl, hfits, rfl⟩
    next => cases h

end Estimates

end Discontinuous
