import Discontinuous.Proofs.Agenda

/-!
Agendas as seen from outside. A ledger is a finite map with a sequence number for every key and no
order of its own: it looks for the least posting each time. Whatever is asked of an agenda, the
answers are those of a ledger, so the heap, its index and the sifts do not show.
-/
namespace Discontinuous

/-- What is kept for a key. -/
structure Posting (α β : Type) where
  priority : α
  value : β
  seq : Nat

namespace Posting

variable {α β : Type} [Cost α]

/-- Postings are compared by priority, and by sequence number where the priorities are equal. -/
def le (x y : Posting α β) : Bool :=
  Cost.le x.priority y.priority && (!Cost.le y.priority x.priority || decide (x.seq ≤ y.seq))

theorem le_iff (x y : Posting α β) : x.le y = true ↔ Cost.le x.priority y.priority = true ∧
    (Cost.le y.priority x.priority = true → x.seq ≤ y.seq) := by
  simp only [le, Bool.and_eq_true, Bool.or_eq_true, Bool.not_eq_true', ← Bool.not_eq_true,
    decide_eq_true_eq, imp_iff_not_or]

theorem seq_eq_of_le {x y : Posting α β} (hxy : x.le y = true) (hyx : y.le x = true) :
    x.seq = y.seq := by
  rw [le_iff] at hxy hyx
  exact Nat.le_antisymm (hxy.2 hyx.1) (hyx.2 hxy.1)

end Posting

/-- A finite map of postings, with the most postings at a time and the pushes since it was empty
and unused. -/
structure Ledger (κ α β : Type) [Keyed κ] where
  postings : Map κ (Posting α β)
  nextSeq : Nat
  peak : Nat
  pushes : Nat

namespace Ledger

variable {κ α β : Type} [Keyed κ] [Cost α]

def empty : Ledger κ α β := ⟨∅, 0, 0, 0⟩

/-- The posting that is not above any other. -/
def first? (l : Ledger κ α β) : Option (κ × Posting α β) :=
  l.postings.toList.find? fun x => l.postings.toList.all fun y => x.2.le y.2

/-- A new key gets the next sequence number. A key that is there keeps its number and its value, and
at most its priority is lowered. -/
def push (l : Ledger κ α β) (key : κ) (priority : α) (value : β) :
    Ledger κ α β × PushOutcome × β :=
  let l := { l with pushes := l.pushes + 1 }
  match l.postings[key]? with
  | none =>
    ({ l with
        postings := l.postings.insert key ⟨priority, value, l.nextSeq⟩
        nextSeq := l.nextSeq + 1 }, .inserted, value)
  | some x =>
    if Cost.lt priority x.priority then
      ({ l with postings := l.postings.insert key { x with priority } }, .improved, x.value)
    else (l, .ignored, x.value)

def pop (l : Ledger κ α β) : Option (κ × Posting α β) × Ledger κ α β :=
  match l.first? with
  | none => (none, l)
  | some x => (some x, { l with postings := l.postings.erase x.1 })

def peek? (l : Ledger κ α β) : Option α := l.first?.map (·.2.priority)

def priority? (l : Ledger κ α β) (key : κ) : Option α := l.postings[key]?.map (·.priority)

end Ledger

/-- What can be asked of an agenda. -/
inductive Call (κ α β : Type) where
  | push (key : κ) (priority : α) (value : β)
  | pop
  | peek
  | priority (key : κ)
  | reset

inductive Reply (κ α β : Type) where
  | pushed (outcome : PushOutcome) (value : β)
  | popped (top : Option (κ × α × β))
  | priced (priority : Option α)
  | cleared
deriving DecidableEq

/-- The reply to a call, and the figures after it. -/
structure Report (κ α β : Type) where
  reply : Reply κ α β
  size : Nat
  maxSize : Nat
  pushes : Nat
deriving DecidableEq

variable {κ α β : Type} [Keyed κ] [Cost α]

def Agenda.serve (a : Agenda κ α β) : Call κ α β → Agenda κ α β × Reply κ α β
  | .push key priority value =>
    let (a, outcome, stored) := a.push key priority value
    (a, .pushed outcome stored)
  | .pop =>
    let (top, a) := a.pop
    (a, .popped (top.map fun e => (e.key, e.priority, e.value)))
  | .peek => (a, .priced a.peek?)
  | .priority key => (a, .priced (a.priority? key))
  | .reset => (a.reset, .cleared)

/-- The reports of an agenda on calls one after the other. -/
def Agenda.reports (a : Agenda κ α β) : List (Call κ α β) → List (Report κ α β)
  | [] => []
  | c :: calls =>
    let (a, reply) := a.serve c
    ⟨reply, a.size, a.effort.maxSize, a.effort.pushes⟩ :: a.reports calls

namespace Ledger

def serve (l : Ledger κ α β) : Call κ α β → Ledger κ α β × Reply κ α β
  | .push key priority value =>
    let (l, outcome, stored) := l.push key priority value
    (l, .pushed outcome stored)
  | .pop =>
    let (top, l) := l.pop
    (l, .popped (top.map fun x => (x.1, x.2.priority, x.2.value)))
  | .peek => (l, .priced l.peek?)
  | .priority key => (l, .priced (l.priority? key))
  | .reset => (.empty, .cleared)

/-- A peak is taken after every call. -/
def note (l : Ledger κ α β) : Ledger κ α β := { l with peak := max l.peak l.postings.size }

/-- The reports of a ledger on calls one after the other. -/
def reports (l : Ledger κ α β) : List (Call κ α β) → List (Report κ α β)
  | [] => []
  | c :: calls =>
    let (l, reply) := l.serve c
    let l := l.note
    ⟨reply, l.postings.size, l.peak, l.pushes⟩ :: l.reports calls

end Ledger

namespace Entry

def posting {κ α β : Type} (e : Entry κ α β) : Posting α β := ⟨e.priority, e.value, e.seq⟩

theorem eq_iff_posting {κ α β : Type} (d e : Entry κ α β) :
    d = e ↔ d.key = e.key ∧ d.posting = e.posting := by
  constructor
  · rintro rfl
    exact ⟨rfl, rfl⟩
  · rintro ⟨hkey, hposting⟩
    cases d
    cases e
    cases hkey
    cases hposting
    rfl

theorem le_posting_iff {κ α β : Type} [Cost α] [TotalCost α] (d e : Entry κ α β) :
    d.posting.le e.posting = true ↔ ¬ e.before d = true :=
  (Posting.le_iff _ _).trans not_before_iff.symm

end Entry

namespace Agenda

/-- The agenda and the ledger keep the same for every key, and the same figures. No two entries
have the same sequence number. -/
structure Posted (a : Agenda κ α β) (l : Ledger κ α β) : Prop where
  indexed : a.heap.Indexed
  ordered : a.heap.Ordered
  mem_iff : ∀ e, e ∈ a.heap.entries ↔ l.postings[e.key]? = some e.posting
  size : l.postings.size = a.size
  fresh : ∀ e ∈ a.heap.entries, e.seq < a.nextSeq
  distinct : ∀ d ∈ a.heap.entries, ∀ e ∈ a.heap.entries, d.seq = e.seq → d = e
  nextSeq : l.nextSeq = a.nextSeq
  peak : l.peak = a.effort.maxSize
  size_le_peak : a.size ≤ a.effort.maxSize
  pushes : l.pushes = a.effort.pushes

variable {a : Agenda κ α β} {l : Ledger κ α β}

theorem posted_empty : (empty : Agenda κ α β).Posted Ledger.empty where
  indexed := Heap.indexed_empty
  ordered := Heap.ordered_empty
  mem_iff e := by simp [Ledger.empty, empty, Heap.empty]
  size := rfl
  fresh e he := by simp [empty, Heap.empty] at he
  distinct d hd := by simp [empty, Heap.empty] at hd
  nextSeq := rfl
  peak := rfl
  size_le_peak := Nat.le_refl 0
  pushes := rfl

namespace Posted

theorem absent_iff (h : a.Posted l) (key : κ) :
    l.postings[key]? = none ↔ ∀ e ∈ a.heap.entries, e.key ≠ key := by
  rw [Option.eq_none_iff_forall_ne_some]
  constructor
  · rintro hnone e he rfl
    exact hnone e.posting ((h.mem_iff e).mp he)
  · intro hnew x hx
    exact hnew ⟨key, x.priority, x.value, x.seq⟩ ((h.mem_iff _).mpr hx) rfl

theorem contains_key (h : a.Posted l) {e : Entry κ α β} (he : e ∈ a.heap.entries) :
    l.postings.contains e.key = true := by
  rw [Std.TreeMap.contains_eq_isSome_getElem?, (h.mem_iff e).mp he]
  rfl

theorem mem_toList (h : a.Posted l) (k : κ) (x : Posting α β) :
    (k, x) ∈ l.postings.toList ↔ ⟨k, x.priority, x.value, x.seq⟩ ∈ a.heap.entries :=
  Std.TreeMap.mem_toList_iff_getElem?_eq_some.trans
    (h.mem_iff ⟨k, x.priority, x.value, x.seq⟩).symm

/-- There is no other peak to note unless a posting is added. -/
theorem note_eq (h : a.Posted l) : l.note = l := by
  simp only [Ledger.note]
  rw [Nat.max_eq_left]
  rw [h.peak, h.size]
  exact h.size_le_peak

/-- The first entry of the heap is the least posting, and the only one that is. -/
theorem first?_eq [TotalCost α] (h : a.Posted l) :
    l.first? = a.heap.entries[0]?.map fun e => (e.key, e.posting) := by
  cases hroot : a.heap.entries[0]? with
  | none =>
      have hempty : a.heap.entries = #[] := by
        have := Array.getElem?_eq_none_iff.mp hroot
        exact Array.eq_empty_of_size_eq_zero (by omega)
      apply List.find?_eq_none.mpr
      rintro ⟨k, x⟩ hx
      rw [h.mem_toList, hempty] at hx
      exact absurd hx (Array.not_mem_empty _)
  | some e =>
      have he := Array.mem_of_getElem? hroot
      have hleast : ∀ x ∈ l.postings.toList, e.posting.le x.2 = true := by
        rintro ⟨k, x⟩ hx
        obtain ⟨j, hj⟩ := Array.mem_iff_getElem?.mp ((h.mem_toList k x).mp hx)
        exact (Entry.le_posting_iff e _).mpr (h.ordered.inOrder_root j _ _ hroot hj)
      have hposted : (e.key, e.posting) ∈ l.postings.toList := (h.mem_toList _ _).mpr he
      cases hfirst : l.first? with
      | none =>
          have hnot := List.find?_eq_none.mp hfirst _ hposted
          exact absurd (List.all_eq_true.mpr hleast) hnot
      | some x =>
          -- two least postings have the same sequence number, and no two entries share one
          have hx := List.mem_of_find?_eq_some hfirst
          have hmin := @List.find?_some _ _ x _ hfirst
          have hseq := Posting.seq_eq_of_le (List.all_eq_true.mp hmin _ hposted) (hleast x hx)
          have heq := h.distinct _ ((h.mem_toList x.1 x.2).mp hx) e he hseq
          subst heq
          rfl

/-- A new key gets an entry and a posting. -/
theorem insert [TotalCost α] (h : a.Posted l) {key : κ}
    (hnew : ∀ e ∈ a.heap.entries, e.key ≠ key) (priority : α) (value : β) :
    (a.push key priority value).1.Posted (l.push key priority value).1.note ∧
      (a.push key priority value).2 = (l.push key priority value).2 := by
  have hindexed := indexed_push h.indexed key priority value
  have hordered := ordered_push h.indexed h.ordered key priority value
  have hnone := (h.absent_iff key).mpr hnew
  have hsize : (l.postings.insert key ⟨priority, value, l.nextSeq⟩).size = a.size + 1 := by
    rw [Std.TreeMap.size_insert, if_neg (by simpa using hnone), h.size]
  have hheap : ∀ e : Entry κ α β, (a.heap.push e).entries.size = a.size + 1 := by
    intro e
    rw [(Heap.push_perm _ _).size_eq, Array.size_push]
    rfl
  rw [push_absent h.indexed hnew] at hindexed hordered ⊢
  simp only [Ledger.push, hnone, and_true]
  refine ⟨hindexed, hordered, ?_, ?_, ?_, ?_, ?_, ?_, ?_, ?_⟩
  · intro e
    rw [Heap.mem_push, Entry.eq_iff_posting, Ledger.note, Map.getElem?_insert_eq_some_iff,
      h.mem_iff e, h.nextSeq]
    constructor
    · rintro (⟨hkey, hposting⟩ | hold)
      · exact .inl ⟨hkey, hposting.symm⟩
      · exact .inr ⟨hnew e ((h.mem_iff e).mpr hold), hold⟩
    · rintro (⟨hkey, hposting⟩ | ⟨-, hold⟩)
      · exact .inl ⟨hkey, hposting.symm⟩
      · exact .inr hold
  · exact hsize.trans (hheap _).symm
  · intro e he
    rcases (Heap.mem_push _ _).mp he with rfl | he
    · exact Nat.lt_succ_self _
    · exact Nat.lt_succ_of_lt (h.fresh e he)
  · -- only the new entry has the number that was next
    intro d hd e he hseq
    rw [Heap.mem_push] at hd he
    rcases hd with rfl | hd <;> rcases he with rfl | he
    · rfl
    · exact absurd hseq (Nat.ne_of_gt (h.fresh e he))
    · exact absurd hseq (Nat.ne_of_lt (h.fresh d hd))
    · exact h.distinct d hd e he hseq
  · exact congrArg (· + 1) h.nextSeq
  · simp only [Ledger.note]
    rw [hsize, h.peak]
  · exact (hheap _).trans_le (Nat.le_max_right _ _)
  · exact congrArg (· + 1) h.pushes

/-- A key that is there keeps its value and its sequence number. -/
theorem reprice [TotalCost α] (h : a.Posted l) {e : Entry κ α β} (he : e ∈ a.heap.entries)
    (priority : α) (value : β) :
    (a.push e.key priority value).1.Posted (l.push e.key priority value).1.note ∧
      (a.push e.key priority value).2 = (l.push e.key priority value).2 := by
  have hindexed := indexed_push h.indexed e.key priority value
  have hordered := ordered_push h.indexed h.ordered e.key priority value
  have hpeak : max l.peak l.postings.size = a.effort.maxSize :=
    (congrArg Ledger.peak h.note_eq).trans h.peak
  have hposted := (h.mem_iff e).mp he
  have hcheaper : Cost.lt priority e.posting.priority = true ↔
      ¬ Cost.le e.priority priority = true := Cost.lt_iff
  obtain ⟨i, hi, hpush⟩ := push_present h.indexed he priority value
  rw [hpush] at hindexed hordered ⊢
  simp only [Ledger.push, hposted]
  by_cases hle : Cost.le e.priority priority = true
  · rw [if_pos hle] at hindexed hordered ⊢
    rw [if_neg fun hlt => hcheaper.mp hlt hle]
    exact ⟨⟨hindexed, hordered, h.mem_iff, h.size, h.fresh, h.distinct, h.nextSeq, hpeak,
      h.size_le_peak, congrArg (· + 1) h.pushes⟩, rfl⟩
  · rw [if_neg hle] at hindexed hordered ⊢
    rw [if_pos (hcheaper.mpr hle)]
    have hmem := Heap.mem_reprioritize h.indexed hi priority
    have hsize : (l.postings.insert e.key { e.posting with priority }).size = l.postings.size := by
      rw [Std.TreeMap.size_insert, if_pos (h.contains_key he)]
    have hheap := Heap.size_reprioritize a.heap i priority
    refine ⟨⟨hindexed, hordered, ?_, ?_, ?_, ?_, h.nextSeq, ?_, ?_, ?_⟩, rfl⟩
    · intro d
      rw [hmem, Entry.eq_iff_posting, Ledger.note, Map.getElem?_insert_eq_some_iff, h.mem_iff d]
      exact or_congr (and_congr_right fun _ => eq_comm) and_comm
    · exact hsize.trans (h.size.trans hheap.symm)
    · intro d hd
      rcases (hmem d).mp hd with rfl | ⟨hd, -⟩
      · exact h.fresh e he
      · exact h.fresh d hd
    · intro c hc d hd hseq
      rcases (hmem c).mp hc with rfl | ⟨hc, hck⟩ <;> rcases (hmem d).mp hd with rfl | ⟨hd, hdk⟩
      · rfl
      · exact absurd (congrArg Entry.key (h.distinct e he d hd hseq)).symm hdk
      · exact absurd (congrArg Entry.key (h.distinct c hc e he hseq)) hck
      · exact h.distinct c hc d hd hseq
    · simp only [Ledger.note]
      rw [hsize, hpeak]
    · exact hheap.trans_le h.size_le_peak
    · exact congrArg (· + 1) h.pushes

/-- The entry that is popped has the least posting. -/
theorem pop [TotalCost α] (h : a.Posted l) :
    a.pop.2.Posted l.pop.2.note ∧ l.pop.1 = a.pop.1.map fun e => (e.key, e.posting) := by
  have hfirst := h.first?_eq
  cases hroot : a.heap.entries[0]? with
  | none =>
      have hpop : a.pop = (none, a) :=
        pop_of_empty (Nat.le_zero.mp (Array.getElem?_eq_none_iff.mp hroot))
      rw [hroot] at hfirst
      simp only [Ledger.pop, hfirst, hpop, Option.map_none, and_true]
      rwa [h.note_eq]
  | some e =>
      obtain ⟨hpos, hget⟩ := Array.getElem?_eq_some_iff.mp hroot
      have hpop : a.pop = (some e, a.pop.2) := by
        simp only [Agenda.pop, Heap.pop_eq_some hpos, hget]
      have hmem := mem_pop_iff h.indexed hpop
      have hsize := size_pop hpop
      have herase : (l.postings.erase e.key).size = a.pop.2.size := by
        rw [Std.TreeMap.size_erase, if_pos (h.contains_key (mem_of_pop hpop)), h.size]
        omega
      rw [hroot] at hfirst
      simp only [Ledger.pop, hfirst, Option.map_some]
      refine ⟨?_, by rw [hpop]; rfl⟩
      refine ⟨indexed_pop h.indexed hpop, ordered_pop h.ordered hpop, ?_, herase, ?_, ?_, h.nextSeq,
        ?_, ?_, h.pushes⟩
      · intro d
        rw [hmem, Ledger.note, Map.getElem?_erase_eq_some_iff, h.mem_iff d]
        exact and_comm
      · intro d hd
        exact h.fresh d ((hmem d).mp hd).1
      · intro c hc d hd
        exact h.distinct c ((hmem c).mp hc).1 d ((hmem d).mp hd).1
      · simp only [Ledger.note]
        rw [herase, h.peak]
        exact Nat.max_eq_left (by have := h.size_le_peak; omega)
      · have := h.size_le_peak
        exact Nat.le_trans (by omega) this

theorem push [TotalCost α] (h : a.Posted l) (key : κ) (priority : α) (value : β) :
    (a.push key priority value).1.Posted (l.push key priority value).1.note ∧
      (a.push key priority value).2 = (l.push key priority value).2 := by
  by_cases hnew : ∀ e ∈ a.heap.entries, e.key ≠ key
  · exact h.insert hnew priority value
  · push Not at hnew
    obtain ⟨e, he, rfl⟩ := hnew
    exact h.reprice he priority value

theorem priority?_eq (h : a.Posted l) (key : κ) : a.priority? key = l.priority? key := by
  cases hs : a.heap.slot? key with
  | none =>
      have hnone := (h.absent_iff key).mpr ((Heap.slot?_eq_none_iff h.indexed).mp hs)
      rw [Agenda.priority?, Ledger.priority?, hs, hnone]
      rfl
  | some i =>
      obtain ⟨e, he, rfl⟩ := Heap.exists_entry_of_slot? h.indexed hs
      have hposted := (h.mem_iff e).mp (Array.mem_of_getElem? he)
      rw [Agenda.priority?, Ledger.priority?, hs, hposted]
      exact congrArg some (congrArg Entry.priority (Array.getElem?_eq_some_iff.mp he).2)

theorem peek?_eq [TotalCost α] (h : a.Posted l) : a.peek? = l.peek? := by
  rw [Agenda.peek?, Ledger.peek?, h.first?_eq, Option.map_map]
  rfl

/-- Whatever is asked, the replies are the same, and both stay alike. -/
theorem serve [TotalCost α] (h : a.Posted l) (c : Call κ α β) :
    (a.serve c).1.Posted (l.serve c).1.note ∧ (a.serve c).2 = (l.serve c).2 := by
  cases c with
  | push key priority value =>
      obtain ⟨hposted, hreply⟩ := h.push key priority value
      refine ⟨hposted, ?_⟩
      simp only [Agenda.serve, Ledger.serve, hreply]
  | pop =>
      obtain ⟨hposted, hreply⟩ := h.pop
      refine ⟨hposted, ?_⟩
      simp only [Agenda.serve, Ledger.serve, hreply, Option.map_map]
      rfl
  | peek =>
      refine ⟨h.note_eq.symm ▸ h, ?_⟩
      simp only [Agenda.serve, Ledger.serve, h.peek?_eq]
  | priority key =>
      refine ⟨h.note_eq.symm ▸ h, ?_⟩
      simp only [Agenda.serve, Ledger.serve, h.priority?_eq]
  | reset =>
      refine ⟨?_, rfl⟩
      simp only [Agenda.serve, Ledger.serve, reset_eq_empty]
      exact posted_empty

/-- The run: what `serve` keeps from call to call makes the reports equal. -/
theorem reports_eq [TotalCost α] (h : a.Posted l) (calls : List (Call κ α β)) :
    a.reports calls = l.reports calls := by
  induction calls generalizing a l with
  | nil => rfl
  | cons c calls ih =>
      obtain ⟨hposted, hreply⟩ := h.serve c
      simp only [Agenda.reports, Ledger.reports]
      rw [ih hposted, hreply, hposted.size, hposted.peak, hposted.pushes]

end Posted

/-- An agenda and a ledger answer every sequence of calls alike, and have the same figures after
each of them. -/
theorem reports_eq_ledger [TotalCost α] (calls : List (Call κ α β)) :
    (empty : Agenda κ α β).reports calls = Ledger.empty.reports calls :=
  posted_empty.reports_eq calls

/-- Two keys of the same priority leave in the order they came, and one that has become cheaper
leaves before them with the value it had. What is queued at a reset is gone, and so are the
figures. -/
theorem reports_eq_ledger_ties :
    (empty : Agenda Nat Price Nat).reports [.push 1 2 10, .push 2 2 20, .push 3 5 30, .push 3 1 31,
      .push 2 4 21, .peek, .priority 2, .pop, .pop, .reset, .pop, .priority 2, .push 2 4 21] =
    [⟨.pushed .inserted 10, 1, 1, 1⟩, ⟨.pushed .inserted 20, 2, 2, 2⟩,
      ⟨.pushed .inserted 30, 3, 3, 3⟩, ⟨.pushed .improved 30, 3, 3, 4⟩,
      ⟨.pushed .ignored 20, 3, 3, 5⟩, ⟨.priced (some 1), 3, 3, 5⟩, ⟨.priced (some 2), 3, 3, 5⟩,
      ⟨.popped (some (3, 1, 30)), 2, 3, 5⟩, ⟨.popped (some (1, 2, 10)), 1, 3, 5⟩,
      ⟨.cleared, 0, 0, 0⟩, ⟨.popped none, 0, 0, 0⟩, ⟨.priced none, 0, 0, 0⟩,
      ⟨.pushed .inserted 21, 1, 1, 1⟩] :=
  (reports_eq_ledger _).trans (by decide +kernel)

end Agenda

end Discontinuous
