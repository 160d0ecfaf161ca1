import Discontinuous.Closure
import Discontinuous.Proofs.Agenda

/-!
Uniform-cost closures settle every key at the least cost at which it follows. What follows from
settled keys is described by a relation, and a closure has found all of it when it ends: nothing
follows for less than what has been settled. That it ends takes a list of all keys there are.
-/
namespace Discontinuous.Closure

variable {σ κ α : Type} [Keyed κ] [Cost α]

/-- What a closure relies on. `view` tells the costs of settled keys, `Good` holds of the states on
the way, `Follows` relates settled costs to the keys and costs that follow from them, and `keys`
are all there are. -/
structure Lawful (rules : Rules σ κ α) (view : σ → κ → Option α) (Good : σ → Prop)
    (Follows : (κ → Option α) → κ → α → Prop) (keys : List κ) : Prop where
  isSettled : ∀ s k, rules.isSettled s k = (view s k).isSome
  view_self : ∀ s k c, Good s → k ∈ keys → view (rules.settle s k c) k = some c
  view_of_ne : ∀ s k c k', k' ≠ k → view (rules.settle s k c) k' = view s k'
  good : ∀ s k c, Good s → view s k = none → k ∈ keys → Follows (view s) k c →
    Good (rules.settle s k c)
  mono : ∀ {v v' : κ → Option α} {k : κ} {y : α}, (∀ k z, v k = some z → v' k = some z) →
    Follows v k y → Follows v' k y
  sound : ∀ s k c k' y, Good s → view s k = some c →
    (k', y) ∈ rules.consequences s k c → k' ∈ keys ∧ Cost.le c y = true ∧ Follows (view s) k' y
  complete : ∀ s k c k' y, Good (rules.settle s k c) → view s k = none →
    Follows (view (rules.settle s k c)) k' y →
    Follows (view s) k' y ∨ (k', y) ∈ rules.consequences (rules.settle s k c) k c

variable {rules : Rules σ κ α} {view : σ → κ → Option α} {Good : σ → Prop}
  {Follows : (κ → Option α) → κ → α → Prop} {keys : List κ}

/-- A key that may be queued for `y`: it is not settled yet, and nothing settled is dearer. -/
structure Candidate (Follows : (κ → Option α) → κ → α → Prop) (keys : List κ) (v : κ → Option α)
    (k : κ) (y : α) : Prop where
  unsettled : v k = none
  mem : k ∈ keys
  follows : Follows v k y
  settled_le : ∀ k' z, v k' = some z → Cost.le z y = true

/-- A queue of candidates in its order. -/
structure Queue (Follows : (κ → Option α) → κ → α → Prop) (keys : List κ) (v : κ → Option α)
    (a : Agenda κ α Unit) : Prop where
  indexed : a.heap.Indexed
  ordered : a.heap.Ordered
  candidates : ∀ e ∈ a.heap.entries, Candidate Follows keys v e.key e.priority

/-- Settled costs are costs at which their keys follow, and all that follows is settled or queued
for no more. -/
structure Invariant (view : σ → κ → Option α) (Good : σ → Prop)
    (Follows : (κ → Option α) → κ → α → Prop) (keys : List κ) (c : Closure σ κ α) : Prop where
  good : Good c.settled
  queue : Queue Follows keys (view c.settled) c.agenda
  founded : ∀ k z, view c.settled k = some z → k ∈ keys ∧ Follows (view c.settled) k z
  covered : ∀ k y, Follows (view c.settled) k y →
    (∃ z, view c.settled k = some z ∧ Cost.le z y = true) ∨ c.agenda.Offers k y

/-- With nothing left in the queue, all that follows from the settled keys is settled for no
more. -/
theorem Invariant.closed {c : Closure σ κ α} (h : Invariant view Good Follows keys c)
    (hsize : c.agenda.size = 0) (k : κ) (y : α) (hy : Follows (view c.settled) k y) :
    ∃ z, view c.settled k = some z ∧ Cost.le z y = true := by
  rcases h.covered k y hy with hsettled | ⟨e, he, -⟩
  · exact hsettled
  · rw [Array.eq_empty_of_size_eq_zero hsize] at he
    simp at he

omit [Keyed κ] in
/-- A property that passes from settled keys to what follows from them is known of all settled
keys, on top of what is known of the states. -/
theorem Lawful.and (hl : Lawful rules view Good Follows keys) {P : κ → α → Prop}
    (hP : ∀ v k y, (∀ k' z, v k' = some z → P k' z) → Follows v k y → P k y) :
    Lawful rules view (fun s => Good s ∧ ∀ k z, view s k = some z → P k z) Follows keys where
  isSettled := hl.isSettled
  view_self s k c hs := hl.view_self s k c hs.1
  view_of_ne := hl.view_of_ne
  good := by
    rintro s k c ⟨hs, hknown⟩ hnew hk hc
    refine ⟨hl.good s k c hs hnew hk hc, ?_⟩
    intro k' z hz
    rcases eq_or_ne k' k with rfl | hne
    · cases (hl.view_self s k' c hs hk).symm.trans hz
      exact hP _ _ _ hknown hc
    · exact hknown k' z (hl.view_of_ne s k c k' hne ▸ hz)
  mono := hl.mono
  sound s k c k' y hs := hl.sound s k c k' y hs.1
  complete s k c k' y hs := hl.complete s k c k' y hs.1

/-- What settling a key leaves true of a state holds at the end. -/
theorem settled_run {P : σ → Prop} (hsettle : ∀ s k c, P s → P (rules.settle s k c)) (count : Nat)
    {start : σ} (hstart : P start) (xs : List (κ × α)) : P (run rules count start xs).settled := by
  have hcount : ∀ c : Closure σ κ α, P c.settled → P (settle rules count c).settled := by
    induction count with
    | zero => exact fun c hc => hc
    | succ count ih =>
        rintro ⟨s, a⟩ hs
        unfold settle
        rcases a.pop with ⟨_ | e, a'⟩
        · exact hs
        · exact ih _ (hsettle s e.key e.priority hs)
  exact hcount _ hstart

section

variable [OrderedCost α] {a a' : Agenda κ α Unit} {v : κ → Option α} {s : σ}

theorem Queue.push (h : Queue Follows keys v a) {k : κ} {y : α}
    (hk : Candidate Follows keys v k y) : Queue Follows keys v (a.push k y ()).1 := by
  refine ⟨Agenda.indexed_push h.indexed k y (), Agenda.ordered_push h.indexed h.ordered k y (), ?_⟩
  intro e he
  rcases Agenda.mem_push h.indexed he with he | ⟨hkey, hpriority⟩
  · exact h.candidates e he
  · rw [hkey, hpriority]
    exact hk

theorem queue_offer (hl : Lawful rules view Good Follows keys) (xs : List (κ × α))
    (ha : Queue Follows keys (view s) a)
    (hxs : ∀ k y, (k, y) ∈ xs → view s k = none → Candidate Follows keys (view s) k y) :
    Queue Follows keys (view s) (offer rules s a xs) ∧
      (∀ k y, a.Offers k y → (offer rules s a xs).Offers k y) ∧
      ∀ k y, (k, y) ∈ xs → view s k = none → (offer rules s a xs).Offers k y := by
  induction xs generalizing a with
  | nil => exact ⟨ha, fun _ _ h => h, fun _ _ h => nomatch h⟩
  | cons x xs ih =>
      obtain ⟨key, cost⟩ := x
      have hrest : ∀ k y, (k, y) ∈ xs → view s k = none → Candidate Follows keys (view s) k y :=
        fun k y hmem => hxs k y (List.mem_cons_of_mem _ hmem)
      cases hview : view s key with
      | some z =>
          have hskip : offer rules s a ((key, cost) :: xs) = offer rules s a xs := by
            simp [offer, hl.isSettled, hview]
          rw [hskip]
          obtain ⟨hqueue, hkeeps, hall⟩ := ih ha hrest
          refine ⟨hqueue, hkeeps, ?_⟩
          intro k y hmem hk
          rcases List.mem_cons.mp hmem with heq | hmem
          · cases heq
            rw [hview] at hk
            cases hk
          · exact hall k y hmem hk
      | none =>
          have hpush : offer rules s a ((key, cost) :: xs) =
              offer rules s (a.push key cost ()).1 xs := by
            simp [offer, hl.isSettled, hview]
          rw [hpush]
          have hnew := hxs key cost List.mem_cons_self hview
          obtain ⟨hqueue, hkeeps, hall⟩ := ih (ha.push hnew) hrest
          refine ⟨hqueue, fun k y hoff => hkeeps k y (hoff.push ha.indexed _ _ _), ?_⟩
          intro k y hmem hk
          rcases List.mem_cons.mp hmem with heq | hmem
          · cases heq
            exact hkeeps _ _ (Agenda.offers_push ha.indexed _ _ _)
          · exact hall k y hmem hk

omit [Keyed κ] [OrderedCost α] in
theorem Lawful.view_of_view (hl : Lawful rules view Good Follows keys) {k : κ} (c : α)
    (hk : view s k = none) (k' : κ) (z : α) (hz : view s k' = some z) :
    view (rules.settle s k c) k' = some z := by
  rw [hl.view_of_ne _ _ _ _ fun heq => ?_]
  · exact hz
  · rw [heq, hk] at hz
    cases hz

/-- Settling the key that is popped, before anything follows from it. -/
theorem Queue.settle (hl : Lawful rules view Good Follows keys) (h : Queue Follows keys (view s) a)
    (hgood : Good s) {e : Entry κ α Unit} (hpop : a.pop = (some e, a')) :
    Queue Follows keys (view (rules.settle s e.key e.priority)) a' := by
  have hcandidate := h.candidates e (Agenda.mem_of_pop hpop)
  refine ⟨Agenda.indexed_pop h.indexed hpop, Agenda.ordered_pop h.ordered hpop, ?_⟩
  intro d hd
  obtain ⟨hd, hne⟩ := (Agenda.mem_pop_iff h.indexed hpop d).mp hd
  have hold := h.candidates d hd
  refine ⟨?_, hold.mem, ?_, ?_⟩
  · rw [hl.view_of_ne _ _ _ _ hne]
    exact hold.unsettled
  · exact hl.mono (hl.view_of_view e.priority hcandidate.unsettled) hold.follows
  · intro k z hz
    by_cases hk : k = e.key
    · rw [hk, hl.view_self _ _ _ hgood hcandidate.mem] at hz
      cases hz
      exact Agenda.pop_le h.ordered hpop hd
    · rw [hl.view_of_ne _ _ _ _ hk] at hz
      exact hold.settled_le k z hz

/-- One key after another is settled, and the invariant stays. -/
theorem Invariant.step (hl : Lawful rules view Good Follows keys)
    (h : Invariant view Good Follows keys ⟨s, a⟩) {e : Entry κ α Unit}
    (hpop : a.pop = (some e, a')) : Invariant view Good Follows keys
      ⟨rules.settle s e.key e.priority, offer rules (rules.settle s e.key e.priority) a'
        (rules.consequences (rules.settle s e.key e.priority) e.key e.priority)⟩ := by
  have hmem := Agenda.mem_of_pop hpop
  have hcandidate := h.queue.candidates e hmem
  have hgood := hl.good s e.key e.priority h.good hcandidate.unsettled
    hcandidate.mem hcandidate.follows
  have hself := hl.view_self s e.key e.priority h.good hcandidate.mem
  have hkeep := hl.view_of_view e.priority hcandidate.unsettled
  -- nothing settled is dearer than the key that is settled now
  have hlast : ∀ k z, view (rules.settle s e.key e.priority) k = some z →
      Cost.le z e.priority = true := by
    intro k z hz
    by_cases hk : k = e.key
    · rw [hk, hself] at hz
      cases hz
      exact Cost.le_refl _
    · rw [hl.view_of_ne _ _ _ _ hk] at hz
      exact hcandidate.settled_le k z hz
  have hsound := fun k y => hl.sound _ e.key e.priority k y hgood hself
  obtain ⟨hqueue, hkeeps, hall⟩ := queue_offer hl
    (rules.consequences (rules.settle s e.key e.priority) e.key e.priority)
    (h.queue.settle hl h.good hpop)
    fun k y hy hk => by
      obtain ⟨hkmem, hle, hfollows⟩ := hsound k y hy
      exact ⟨hk, hkmem, hfollows, fun k' z hz => OrderedCost.le_trans (hlast k' z hz) hle⟩
  refine ⟨hgood, hqueue, ?_, ?_⟩
  · intro k z hz
    rcases eq_or_ne k e.key with rfl | hk
    · cases hself.symm.trans hz
      exact ⟨hcandidate.mem, hl.mono hkeep hcandidate.follows⟩
    · rw [hl.view_of_ne _ _ _ _ hk] at hz
      obtain ⟨hkmem, hfollows⟩ := h.founded k z hz
      exact ⟨hkmem, hl.mono hkeep hfollows⟩
  · intro k y hy
    rcases hl.complete s e.key e.priority k y hgood hcandidate.unsettled hy with hold | hnew
    · rcases h.covered k y hold with ⟨z, hz, hle⟩ | ⟨d, hd, hkey, hle⟩
      · exact .inl ⟨z, hkeep k z hz, hle⟩
      · by_cases hsame : d.key = e.key
        · obtain rfl := h.queue.indexed.unique hd hmem hsame
          exact .inl ⟨d.priority, hkey ▸ hself, hle⟩
        · exact .inr (hkeeps k y ⟨d, (Agenda.mem_pop_iff h.queue.indexed hpop d).mpr ⟨hd, hsame⟩,
            hkey, hle⟩)
    · cases hview : view (rules.settle s e.key e.priority) k with
      | none => exact .inr (hall k y hnew hview)
      | some z => exact .inl ⟨z, rfl, OrderedCost.le_trans (hlast k z hview) (hsound k y hnew).2.1⟩

/-- As long as a key is queued there is one that is not settled, so `count` steps are enough. -/
theorem settle_closed (hl : Lawful rules view Good Follows keys) (count : Nat)
    (c : Closure σ κ α) (h : Invariant view Good Follows keys c) (done : List κ)
    (hnodup : done.Nodup)
    (hdone : ∀ k, k ∈ done ↔ (view c.settled k).isSome = true)
    (hcount : keys.length ≤ done.length + count) :
    Invariant view Good Follows keys (settle rules count c) ∧
      (settle rules count c).agenda.size = 0 := by
  have hsubset : done ⊆ keys := by
    intro k hk
    obtain ⟨z, hz⟩ := Option.isSome_iff_exists.mp ((hdone k).mp hk)
    exact (h.founded k z hz).1
  induction count generalizing c done with
  | zero =>
      refine ⟨h, ?_⟩
      have hperm := (List.subperm_of_subset hnodup hsubset).perm_of_length_le (by omega)
      by_contra hsize
      have hlt : 0 < c.agenda.heap.entries.size := Nat.pos_of_ne_zero hsize
      have hcandidate := h.queue.candidates _ (Array.getElem_mem hlt)
      have hsettled := (hdone _).mp (hperm.mem_iff.mpr hcandidate.mem)
      rw [hcandidate.unsettled] at hsettled
      cases hsettled
  | succ count ih =>
      obtain ⟨s, a⟩ := c
      rw [settle]
      rcases hpop : a.pop with ⟨_ | e, a'⟩
      · obtain ⟨hsize, heq⟩ := Agenda.pop_none (congrArg Prod.fst hpop)
        rw [hpop] at heq
        dsimp only at heq ⊢
        rw [heq]
        exact ⟨h, hsize⟩
      · have hcandidate := h.queue.candidates e (Agenda.mem_of_pop hpop)
        have hnot : e.key ∉ done := by
          rw [hdone, hcandidate.unsettled]
          exact Bool.false_ne_true
        have hstep := h.step hl hpop
        refine ih _ hstep (e.key :: done) (List.nodup_cons.mpr ⟨hnot, hnodup⟩) ?_ ?_ ?_
        · intro k
          rw [List.mem_cons]
          by_cases hk : k = e.key
          · rw [hk, hl.view_self _ _ _ h.good hcandidate.mem]
            simp
          · rw [hl.view_of_ne _ _ _ _ hk, ← hdone]
            simp [hk]
        · rw [List.length_cons]
          omega
        · intro k hk
          rcases List.mem_cons.mp hk with rfl | hk
          · exact hcandidate.mem
          · exact hsubset hk

theorem invariant_start (hl : Lawful rules view Good Follows keys) {start : σ} {xs : List (κ × α)}
    (hgood : Good start) (hview : ∀ k, view start k = none) (hxs : ∀ k y, (k, y) ∈ xs → k ∈ keys)
    (hfollows : ∀ k y, Follows (view start) k y ↔ (k, y) ∈ xs) :
    Invariant view Good Follows keys ⟨start, offer rules start .empty xs⟩ := by
  have hempty : Queue Follows keys (view start) Agenda.empty := by
    refine ⟨Heap.indexed_empty, Heap.ordered_empty, ?_⟩
    intro e he
    simp [Agenda.empty, Heap.empty] at he
  obtain ⟨hqueue, -, hall⟩ := queue_offer hl xs hempty fun k y hmem hk =>
    ⟨hk, hxs k y hmem, (hfollows k y).mpr hmem, fun k' z hz => by rw [hview] at hz; cases hz⟩
  refine ⟨hgood, hqueue, ?_, ?_⟩
  · intro k z hz
    rw [hview] at hz
    cases hz
  · intro k y hy
    exact .inr (hall k y ((hfollows k y).mp hy) (hview k))

/-- The queue runs empty, with the invariant kept. -/
theorem run_ends (hl : Lawful rules view Good Follows keys) {count : Nat} {start : σ}
    {xs : List (κ × α)} (hgood : Good start) (hview : ∀ k, view start k = none)
    (hxs : ∀ k y, (k, y) ∈ xs → k ∈ keys)
    (hfollows : ∀ k y, Follows (view start) k y ↔ (k, y) ∈ xs) (hcount : keys.length ≤ count) :
    Invariant view Good Follows keys (run rules count start xs) ∧
      (run rules count start xs).agenda.size = 0 :=
  settle_closed hl count _ (invariant_start hl hgood hview hxs hfollows) [] List.nodup_nil
    (fun k => by simp [hview]) (by simpa using hcount)

end

section Within

variable (within : σ → κ → Bool)

/-- Offering keys that are looked up in a state, which fails at one that the state has no room
for. -/
def offerWithin (rules : Rules σ κ α) (s : σ) (a : Agenda κ α Unit) :
    List (κ × α) → Option (Agenda κ α Unit)
  | [] => some a
  | x :: xs => if within s x.1 then offerWithin rules s (offer rules s a [x]) xs else none

/-- Settling keys in a state, which fails at one that the state has no room for. -/
def settleWithin (rules : Rules σ κ α) : Nat → Closure σ κ α → Option (Closure σ κ α)
  | 0, c => some c
  | count + 1, ⟨s, a⟩ =>
    match a.pop with
    | (none, a) => some ⟨s, a⟩
    | (some e, a) =>
      if within s e.key then
        let s := rules.settle s e.key e.priority
        (offerWithin within rules s a (rules.consequences s e.key e.priority)).bind fun a =>
          settleWithin rules count ⟨s, a⟩
      else none

def runWithin (rules : Rules σ κ α) (count : Nat) (start : σ) (xs : List (κ × α)) :
    Option (Closure σ κ α) :=
  (offerWithin within rules start .empty xs).bind fun a =>
    settleWithin within rules count ⟨start, a⟩

theorem offerWithin_eq {within : σ → κ → Bool} (rules : Rules σ κ α) (s : σ) (xs : List (κ × α))
    (hxs : ∀ k y, (k, y) ∈ xs → within s k = true) (a : Agenda κ α Unit) :
    offerWithin within rules s a xs = some (offer rules s a xs) := by
  induction xs generalizing a with
  | nil => rfl
  | cons x xs ih =>
      rw [offerWithin, if_pos (hxs x.1 x.2 List.mem_cons_self),
        ih fun k y hmem => hxs k y (List.mem_cons_of_mem x hmem)]
      rfl

variable {within} [OrderedCost α] (hl : Lawful rules view Good Follows keys)
  (hwithin : ∀ s k, Good s → k ∈ keys → within s k = true)

include hl hwithin

theorem settleWithin_eq (count : Nat) (c : Closure σ κ α)
    (h : Invariant view Good Follows keys c) :
    settleWithin within rules count c = some (settle rules count c) := by
  induction count generalizing c with
  | zero => rfl
  | succ count ih =>
      obtain ⟨s, a⟩ := c
      rw [settleWithin, settle]
      rcases hpop : a.pop with ⟨_ | e, a'⟩
      · rfl
      · have hcandidate := h.queue.candidates e (Agenda.mem_of_pop hpop)
        have hself := hl.view_self s e.key e.priority h.good hcandidate.mem
        have hstep := h.step hl hpop
        have hoffer := offerWithin_eq rules (rules.settle s e.key e.priority)
          (rules.consequences (rules.settle s e.key e.priority) e.key e.priority)
          (fun k y hy => hwithin _ k hstep.good (hl.sound _ _ _ k y hstep.good hself hy).1) a'
        dsimp only
        rw [if_pos (hwithin s e.key h.good hcandidate.mem), hoffer]
        exact ih _ hstep

/-- No key that a run looks up or settles is one that its state has no room for. -/
theorem runWithin_eq (count : Nat) {start : σ} {xs : List (κ × α)}
    (h : Invariant view Good Follows keys ⟨start, offer rules start .empty xs⟩)
    (hxs : ∀ k y, (k, y) ∈ xs → k ∈ keys) :
    runWithin within rules count start xs = some (run rules count start xs) := by
  rw [runWithin, offerWithin_eq rules start xs fun k y hy => hwithin start k h.good (hxs k y hy)]
  exact settleWithin_eq hl hwithin count _ h

end Within

end Discontinuous.Closure
