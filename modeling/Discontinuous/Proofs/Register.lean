import Discontinuous.Proofs.Chart

/-!
Charts under any use. Beside the chart a register of what was inserted is kept, oldest first, and
started anew when the chart is emptied. Whatever is asked of the chart, it answers as a search
through the register would.
-/
namespace Discontinuous

/-- Half words are their own residues. -/
theorem Word.wrapHalf_of_bounds {x : Int} (hlow : -0x80000000 ≤ x) (hhigh : x < 0x80000000) :
    wrapHalf x = x := by
  unfold wrapHalf
  rw [Int.bmod_eq_of_le] <;> omega

/-- A boundary of a span is at a position. Spans of one range have no second boundaries. -/
def Boundary.At (b : Boundary) (s : Span) (pos : Int) : Prop :=
  match b with
  | .any => True
  | .start => s.l1 = pos
  | .stop => s.r1 = pos
  | .secondStart => s.arity = 2 ∧ s.l2 = pos
  | .secondStop => s.arity = 2 ∧ s.r2 = pos

instance (b : Boundary) (s : Span) (pos : Int) : Decidable (b.At s pos) := by
  cases b <;> unfold Boundary.At <;> infer_instance

/-- Positions are told apart as half words, unless the query takes no notice of them. -/
def Query.Fits (q : Query) : Prop :=
  q.boundary = .any ∨ -0x80000000 ≤ q.pos ∧ q.pos < 0x80000000

instance (q : Query) : Decidable q.Fits := inferInstanceAs (Decidable (_ ∨ _))

theorem Key.InRange.wrapHalf_of {l : Label} {s : Span} (h : Key.InRange l s) (b : Boundary) :
    Word.wrapHalf (b.of s) = b.of s := by
  have hfits : Key.Fits (b.of s) := by
    cases b
    case any => exact (by decide : Key.Fits Span.unset)
    case start => exact h.l1
    case stop => exact h.r1
    case secondStart => exact h.l2
    case secondStop => exact h.r2
  obtain ⟨hlow, hhigh⟩ := hfits
  unfold Key.maxPosition at hhigh
  exact Word.wrapHalf_of_bounds (by omega) (by omega)

theorem Query.asks_iff (q : Query) (s : Span) :
    q.Asks s ↔ s.arity = q.arity ∧ q.boundary.At s q.pos := by
  unfold Query.Asks
  refine and_congr_right fun _ => ?_
  rcases s.arity_eq_one_or_two with harity | harity
  all_goals
    cases q.boundary <;> simp [Chart.boundariesOf, Boundary.At, Boundary.of, harity]

namespace Chart

/-- An item is listed where a query looks if the query asks for it. -/
theorem mem_slotsOf {l' : Label} {s : Span} (l : Label) (h : Key.InRange l' s) {q : Query}
    (hq : q.Fits) : slot l q.arity q.boundary q.pos ∈ slotsOf l' s ↔
      l' = l ∧ s.arity = q.arity ∧ q.boundary.At s q.pos := by
  rw [← q.asks_iff]
  unfold slotsOf Query.Asks
  rw [List.mem_map]
  constructor
  · rintro ⟨b, hb, heq⟩
    simp only [slot, ChartSlot.mk.injEq, h.wrapHalf_of b] at heq
    obtain ⟨rfl, harity, rfl, hpos⟩ := heq
    refine ⟨rfl, harity, hb, ?_⟩
    rcases hq with hany | ⟨hlow, hhigh⟩
    · exact .inl hany
    · by_cases hany : q.boundary = .any
      · exact .inl hany
      -- both positions are half words, so their residues are the positions themselves
      · rw [if_neg hany, if_neg hany, Word.wrapHalf_of_bounds hlow hhigh] at hpos
        exact .inr hpos
  · rintro ⟨rfl, harity, hb, hpos⟩
    refine ⟨q.boundary, hb, ?_⟩
    unfold slot
    rw [harity]
    rcases hpos with hany | hpos
    · simp only [hany, if_true]
    · rw [hpos]

variable {α : Type}

theorem insert?_of_proven {c : Chart} {id n : Nat} {it : Item α}
    (h : c.items[it.key]? = some n) : c.insert? id it = none := by
  unfold insert? contains
  rw [if_pos]
  rw [Std.TreeMap.contains_eq_isSome_getElem?]
  exact Option.isSome_iff_exists.mpr ⟨n, h⟩

theorem insert?_of_new {c : Chart} {id : Nat} {it : Item α} (h : c.items[it.key]? = none) :
    c.insert? id it = some (c.record it.label it.span id) := by
  unfold insert? contains
  rw [if_neg]
  rw [Bool.not_eq_true]
  exact (Map.contains_eq_false_iff _ _).mpr h

/-- What is done with a chart and the arena of its items. -/
inductive Call (α : Type) where
  | add (it : Item α)
  /-- Puts another item in the place of one. -/
  | revise (id : Nat) (it : Item α)
  | insert (id : Int)
  | reset

inductive Reply where
  | added (id : Nat)
  | revised
  | inserted
  | duplicate
  /-- There is no item at the place. -/
  | missing
  | cleared
deriving DecidableEq

/-- A chart with its arena, and what was inserted since the chart was emptied, oldest first. -/
structure Desk (α : Type) where
  arena : Arena α
  chart : Chart
  register : List (Nat × Item α)

namespace Desk

def empty : Desk α := ⟨#[], .empty, []⟩

/-- The register follows the answers of the chart and has no influence on them. -/
def serve (d : Desk α) : Call α → Desk α × Reply
  | .add it => ({ d with arena := (d.arena.add it).1 }, .added (d.arena.add it).2)
  | .revise id it => ({ d with arena := d.arena.setIfInBounds id it }, .revised)
  | .insert id =>
    match d.arena.at? id with
    | none => (d, .missing)
    | some it =>
      match d.chart.insert? id.toNat it with
      | none => (d, .duplicate)
      | some chart => ({ d with chart, register := d.register ++ [(id.toNat, it)] }, .inserted)
  | .reset => ({ d with chart := d.chart.reset, register := [] }, .cleared)

def serveAll (d : Desk α) (calls : List (Call α)) : Desk α :=
  calls.foldl (fun d c => (d.serve c).1) d

/-- Items have labels and spans that keys tell apart, and stay as they are once inserted. -/
def Allows (d : Desk α) : Call α → Prop
  | .add it => Key.InRange it.label it.span
  | .revise id it => Key.InRange it.label it.span ∧ id ∉ d.register.map Prod.fst
  | .insert _ | .reset => True

instance (d : Desk α) : (c : Call α) → Decidable (d.Allows c)
  | .add it => inferInstanceAs (Decidable (Key.InRange it.label it.span))
  | .revise _ _ => inferInstanceAs (Decidable (_ ∧ _))
  | .insert _ | .reset => inferInstanceAs (Decidable True)

def AllowsAll (d : Desk α) : List (Call α) → Prop
  | [] => True
  | c :: calls => d.Allows c ∧ (d.serve c).1.AllowsAll calls

instance decidableAllowsAll : (d : Desk α) → (calls : List (Call α)) → Decidable (d.AllowsAll calls)
  | _, [] => inferInstanceAs (Decidable True)
  | d, c :: calls =>
    have := decidableAllowsAll (d.serve c).1 calls
    inferInstanceAs (Decidable (_ ∧ _))

/-- An item of this label and span was inserted. -/
def Holds (d : Desk α) (l : Label) (s : Span) (id : Nat) : Prop :=
  ∃ it, (id, it) ∈ d.register ∧ it.label = l ∧ it.span = s

theorem holds_iff (d : Desk α) (l : Label) (s : Span) (id : Nat) :
    d.Holds l s id ↔ (id, l, s) ∈ d.register.map fun p => (p.1, p.2.label, p.2.span) := by
  unfold Holds
  rw [List.mem_map]
  constructor
  · rintro ⟨it, hit, rfl, rfl⟩
    exact ⟨_, hit, rfl⟩
  · rintro ⟨⟨_, it⟩, hit, heq⟩
    cases heq
    exact ⟨it, hit, rfl, rfl⟩

instance (d : Desk α) (l : Label) (s : Span) (id : Nat) : Decidable (d.Holds l s id) :=
  decidable_of_iff' _ (d.holds_iff l s id)

/-- The places of all that a query is about. -/
def search (d : Desk α) (l : Label) (q : Query) : List Nat :=
  (d.register.filter fun p =>
    p.2.label = l ∧ p.2.span.arity = q.arity ∧ q.boundary.At p.2.span q.pos).map Prod.fst

/-- The register is of items in the arena that have different keys, and chart and index are made
from it. -/
structure Kept (d : Desk α) : Prop where
  inRange : ∀ it ∈ d.arena, Key.InRange it.label it.span
  placed : ∀ p ∈ d.register, d.arena[p.1]? = some p.2
  distinct : d.register.Pairwise fun p q => p.2.key ≠ q.2.key
  items : ∀ (k : Key) (id : Nat),
    d.chart.items[k]? = some id ↔ ∃ it, (id, it) ∈ d.register ∧ it.key = k
  index : ∀ slot, (d.chart.index.getD slot #[]).toList =
    (d.register.filter fun p => slot ∈ slotsOf p.2.label p.2.span).map Prod.fst

variable {d : Desk α}

theorem kept_empty : (empty : Desk α).Kept := by
  refine ⟨?_, ?_, List.Pairwise.nil, ?_, ?_⟩
  · intro it hit
    cases hit
    contradiction
  · intro p hp
    cases hp
  · intro k id
    simp [empty, Chart.empty]
  · intro slot
    simp [empty, Chart.empty, Std.TreeMap.getD_emptyc]

theorem at?_eq_some {a : Arena α} {id : Int} {it : Item α} (h : a.at? id = some it) :
    a[id.toNat]? = some it := by
  unfold Arena.at? at h
  split at h
  · exact h
  · cases h

theorem serve_insert_missing {id : Int} (h : d.arena.at? id = none) :
    d.serve (.insert id) = (d, .missing) := by
  simp only [serve, h]

theorem serve_insert_proven {id : Int} {it : Item α} {n : Nat} (hit : d.arena.at? id = some it)
    (h : d.chart.items[it.key]? = some n) : d.serve (.insert id) = (d, .duplicate) := by
  simp only [serve, hit, insert?_of_proven h]

theorem serve_insert_new {id : Int} {it : Item α} (hit : d.arena.at? id = some it)
    (h : d.chart.items[it.key]? = none) : d.serve (.insert id) =
      (⟨d.arena, d.chart.record it.label it.span id.toNat, d.register ++ [(id.toNat, it)]⟩,
        .inserted) := by
  simp only [serve, hit, insert?_of_new h]

namespace Kept

theorem add (h : d.Kept) {it : Item α} (hit : Key.InRange it.label it.span) :
    (d.serve (.add it)).1.Kept := by
  refine ⟨?_, ?_, h.distinct, h.items, h.index⟩
  · intro x hx
    rcases Array.mem_push.mp hx with hx | rfl
    · exact h.inRange x hx
    · exact hit
  · intro p hp
    have hlt : p.1 < d.arena.size := (Array.getElem?_eq_some_iff.mp (h.placed p hp)).1
    exact (Array.getElem?_push_lt hlt).trans (h.placed p hp ▸ (Array.getElem?_eq_getElem hlt).symm)

theorem revise (h : d.Kept) {id : Nat} {it : Item α} (hit : Key.InRange it.label it.span)
    (hid : id ∉ d.register.map Prod.fst) : (d.serve (.revise id it)).1.Kept := by
  refine ⟨?_, ?_, h.distinct, h.items, h.index⟩
  · intro x hx
    rcases Array.mem_or_eq_of_mem_setIfInBounds hx with hx | rfl
    · exact h.inRange x hx
    · exact hit
  · intro p hp
    refine Eq.trans (Array.getElem?_setIfInBounds_ne ?_) (h.placed p hp)
    rintro rfl
    exact hid (List.mem_map_of_mem hp)

/-- Nothing is held when the chart is emptied. -/
theorem reset (h : d.Kept) : (d.serve .reset).1.Kept := by
  refine ⟨h.inRange, ?_, List.Pairwise.nil, ?_, ?_⟩
  · intro p hp
    cases hp
  · intro k id
    simp [serve, Chart.reset]
  · intro slot
    simp [serve, Chart.reset, Std.TreeMap.getD_emptyc]

/-- What has not been inserted yet is, under its key and in each of its lists. -/
theorem record (h : d.Kept) {id : Nat} {it : Item α} (hit : d.arena[id]? = some it)
    (hnew : d.chart.items[it.key]? = none) :
    Kept ⟨d.arena, d.chart.record it.label it.span id, d.register ++ [(id, it)]⟩ := by
  have hother : ∀ p ∈ d.register, p.2.key ≠ it.key := by
    intro p hp heq
    have hfound := (h.items it.key p.1).mpr ⟨p.2, hp, heq⟩
    rw [hnew] at hfound
    cases hfound
  refine ⟨h.inRange, ?_, ?_, ?_, ?_⟩
  · intro p hp
    rcases List.mem_append.mp hp with hp | hp
    · exact h.placed p hp
    · cases List.mem_singleton.mp hp
      exact hit
  · refine List.pairwise_append.mpr ⟨h.distinct, List.pairwise_singleton _ _, ?_⟩
    intro p hp q hq
    cases List.mem_singleton.mp hq
    exact hother p hp
  · intro k n
    change (d.chart.items.insert it.key id)[k]? = some n ↔ _
    rw [Map.getElem?_insert_eq_some_iff, h.items]
    constructor
    · rintro (⟨rfl, rfl⟩ | ⟨-, x, hx, rfl⟩)
      · exact ⟨it, List.mem_append_right _ (List.mem_singleton.mpr rfl), rfl⟩
      · exact ⟨x, List.mem_append_left _ hx, rfl⟩
    · rintro ⟨x, hx, rfl⟩
      rcases List.mem_append.mp hx with hx | hx
      · exact .inr ⟨hother (n, x) hx, x, hx, rfl⟩
      · obtain ⟨rfl, rfl⟩ := Prod.mk.inj (List.mem_singleton.mp hx)
        exact .inl ⟨rfl, rfl⟩
  · intro slot
    change ((list d.chart.index id (slotsOf it.label it.span)).getD slot #[]).toList = _
    rw [getD_list _ _ (nodup_slotsOf _ _), List.filter_append, List.map_append, ← h.index]
    split
    next hslot => simp [hslot]
    next hslot => simp [hslot]

theorem insert (h : d.Kept) (id : Int) : (d.serve (.insert id)).1.Kept := by
  cases hit : d.arena.at? id with
  | none =>
      rw [serve_insert_missing hit]
      exact h
  | some it =>
      cases hitem : d.chart.items[it.key]? with
      | some n =>
          rw [serve_insert_proven hit hitem]
          exact h
      | none =>
          rw [serve_insert_new hit hitem]
          exact h.record (at?_eq_some hit) hitem

/-- What is allowed keeps the chart and the register in step. -/
theorem serve (h : d.Kept) {c : Call α} (hc : d.Allows c) : (d.serve c).1.Kept := by
  cases c with
  | add it => exact h.add hc
  | revise id it => exact h.revise hc.1 hc.2
  | insert id => exact h.insert id
  | reset => exact h.reset

theorem serveAll (h : d.Kept) {calls : List (Call α)} (hcalls : d.AllowsAll calls) :
    (d.serveAll calls).Kept := by
  induction calls generalizing d with
  | nil => exact h
  | cons c calls ih => exact ih (h.serve hcalls.1) hcalls.2

theorem inRange_of_mem (h : d.Kept) {p : Nat × Item α} (hp : p ∈ d.register) :
    Key.InRange p.2.label p.2.span :=
  h.inRange _ (Array.mem_of_getElem? (h.placed p hp))

/-- Keys stand for labels and spans. -/
theorem items_of (h : d.Kept) {l : Label} {s : Span} (hr : Key.InRange l s) (id : Nat) :
    d.chart.items[Key.of l s]? = some id ↔ d.Holds l s id := by
  rw [h.items]
  refine exists_congr fun it => and_congr_right fun hit => ⟨?_, ?_⟩
  · exact Key.of_injective (h.inRange_of_mem hit) hr
  · rintro ⟨rfl, rfl⟩
    rfl

theorem get?_iff (h : d.Kept) {l : Label} {s : Span} (hr : Key.InRange l s) (id : Nat) :
    d.chart.get? l s = some id ↔ d.Holds l s id := by
  unfold Chart.get?
  rw [Std.TreeMap.get?_eq_getElem?, h.items_of hr]

theorem contains_iff (h : d.Kept) {l : Label} {s : Span} (hr : Key.InRange l s) :
    d.chart.contains l s = true ↔ ∃ id, d.Holds l s id := by
  unfold Chart.contains
  rw [Std.TreeMap.contains_eq_isSome_getElem?, Option.isSome_iff_exists]
  exact exists_congr (h.items_of hr)

theorem insert_of_holds (h : d.Kept) {id : Int} {it : Item α} (hit : d.arena.at? id = some it)
    {n : Nat} (hn : d.Holds it.label it.span n) : d.serve (.insert id) = (d, .duplicate) := by
  have hr := h.inRange it (Array.mem_of_getElem? (at?_eq_some hit))
  exact serve_insert_proven hit ((h.items_of hr n).mpr hn)

theorem insert_of_not_holds (h : d.Kept) {id : Int} {it : Item α} (hit : d.arena.at? id = some it)
    (hnone : ¬ ∃ n, d.Holds it.label it.span n) : (d.serve (.insert id)).2 = .inserted := by
  have hr := h.inRange it (Array.mem_of_getElem? (at?_eq_some hit))
  have hnew : d.chart.items[it.key]? = none :=
    Option.eq_none_iff_forall_ne_some.mpr fun n hn => hnone ⟨n, (h.items_of hr n).mp hn⟩
  rw [serve_insert_new hit hnew]

theorem lookup_eq (h : d.Kept) (l : Label) {q : Query} (hq : q.Fits) :
    d.chart.lookup l q = d.search l q := by
  unfold Chart.lookup search
  rw [h.index]
  congr 1
  refine List.filter_congr fun p hp => ?_
  simp only [mem_slotsOf l (h.inRange_of_mem hp) hq]

/-- No item was inserted twice, so no place is found twice. -/
theorem nodup_search (h : d.Kept) (l : Label) (q : Query) : (d.search l q).Nodup := by
  -- at one place there is one item, and its key is registered once
  have hplaces : d.register.Pairwise fun p r => p.1 ≠ r.1 := by
    refine h.distinct.imp_of_mem fun {p r} hp hr hne heq => hne ?_
    have hsame : some p.2 = some r.2 := by rw [← h.placed p hp, ← h.placed r hr, heq]
    rw [Option.some.inj hsame]
  exact List.pairwise_map.mpr (hplaces.filter _)

end Kept

/-- However a chart is used, it refuses what is inserted already and nothing else, finds what was
inserted under its label and span, and lists it, once and in order, under each of its boundaries. -/
theorem lookups_exact (calls : List (Call α)) (h : (empty : Desk α).AllowsAll calls) :
    let d := (empty : Desk α).serveAll calls
    (∀ p ∈ d.register, d.arena[p.1]? = some p.2) ∧
      (∀ id it, d.arena.at? id = some it →
        ((∃ n, d.Holds it.label it.span n) → d.serve (.insert id) = (d, .duplicate)) ∧
        ((¬ ∃ n, d.Holds it.label it.span n) → (d.serve (.insert id)).2 = .inserted)) ∧
      (∀ l s, Key.InRange l s →
        (∀ id, d.chart.get? l s = some id ↔ d.Holds l s id) ∧
        (d.chart.contains l s = true ↔ ∃ id, d.Holds l s id)) ∧
      ∀ (l : Label) (q : Query), q.Fits →
        d.chart.lookup l q = d.search l q ∧ (d.chart.lookup l q).Nodup := by
  intro d
  have hkept : d.Kept := kept_empty.serveAll h
  refine ⟨hkept.placed, ?_, ?_, ?_⟩
  · intro id it hit
    exact ⟨fun ⟨n, hn⟩ => hkept.insert_of_holds hit hn, hkept.insert_of_not_holds hit⟩
  · intro l s hr
    exact ⟨hkept.get?_iff hr, hkept.contains_iff hr⟩
  · intro l q hq
    rw [hkept.lookup_eq l hq]
    exact ⟨rfl, hkept.nodup_search l q⟩

/-- A chart that is emptied once. The last item comes with the label and span of the first one, is
refused, and is inserted after it has got another span. -/
def reopened : List (Call Nat) :=
  let item := fun s => (⟨⟨1⟩, s, 0, 0, none, none, none⟩ : Item Nat)
  [.add (item (.one 0 1)), .add (item (.two 0 1 4 1022)), .insert 1, .reset, .insert 1, .insert 0,
    .add (item (.one 0 1)), .insert 2, .revise 2 (item (.one 0 2)), .insert 2, .insert 3]

theorem lookups_exact_reopened :
    (empty : Desk Nat).AllowsAll reopened ∧
      let d := (empty : Desk Nat).serveAll reopened
      d.serve (.insert 0) = (d, .duplicate) ∧ d.chart.get? ⟨1⟩ (.one 0 2) = some 2 ∧
        d.chart.contains ⟨1⟩ (.one 0 1) = true ∧ d.chart.lookup ⟨1⟩ ⟨1, .start, 0⟩ = [0, 2] ∧
        d.chart.lookup ⟨1⟩ ⟨1, .any, 7⟩ = [0, 2] ∧ d.chart.lookup ⟨1⟩ ⟨1, .secondStart, -1⟩ = [] ∧
        d.chart.lookup ⟨1⟩ ⟨2, .secondStop, 1022⟩ = [1] := by
  have hallows : (empty : Desk Nat).AllowsAll reopened := by decide +kernel
  obtain ⟨-, hinsert, hfind, hlist⟩ := lookups_exact reopened hallows
  refine ⟨hallows, ?_, ?_, ?_, ?_, ?_, ?_, ?_⟩
  · exact (hinsert 0 ⟨⟨1⟩, .one 0 1, 0, 0, none, none, none⟩ rfl).1 ⟨0, by decide +kernel⟩
  · exact ((hfind _ _ (by decide)).1 2).mpr (by decide +kernel)
  · exact (hfind _ _ (by decide)).2.mpr ⟨0, by decide +kernel⟩
  · exact (hlist _ _ (by decide)).1.trans (by decide +kernel)
  · exact (hlist _ _ (by decide)).1.trans (by decide +kernel)
  · exact (hlist _ _ (by decide)).1.trans (by decide +kernel)
  · exact (hlist _ _ (by decide)).1.trans (by decide +kernel)

end Desk

end Chart

end Discontinuous
