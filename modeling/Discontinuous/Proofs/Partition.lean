import Discontinuous.Proofs.Recognition

/-!
Arena, agenda and chart in step. Every place of the arena is either queued or proven, and not both;
back pointers lead to proven places only. A step may give a queued place to a cheaper item, but what
is proven stays as it is until the search ends.
-/
namespace Discontinuous

/-- No two entries of an indexed heap have the same key. -/
theorem Heap.Indexed.pairwise_key_ne {κ α β : Type} [Keyed κ] {h : Heap κ α β} (hx : h.Indexed) :
    h.entries.toList.Pairwise fun d e => d.key ≠ e.key := by
  apply List.pairwise_iff_getElem.mpr
  intro i j hi hj hlt hkey
  have heq := hx.index_unique (Array.getElem?_eq_getElem hi) (Array.getElem?_eq_getElem hj) hkey
  omega

/-- No two keys of a chart are recorded at the same place. -/
theorem Chart.Agrees.nodup_values {α : Type} {c : Chart} {arena : Arena α} (ha : c.Agrees arena) :
    c.items.values.Nodup := by
  rw [Map.values_eq_map_toList]
  apply List.pairwise_map.mpr
  refine Std.TreeMap.distinct_keys_toList.imp_of_mem ?_
  rintro ⟨k, id⟩ ⟨k', id'⟩ hk hk' hne rfl
  obtain ⟨it, hit, rfl⟩ := ha.items k id (Std.TreeMap.mem_toList_iff_getElem?_eq_some.mp hk)
  obtain ⟨it', hit', rfl⟩ := ha.items k' id (Std.TreeMap.mem_toList_iff_getElem?_eq_some.mp hk')
  cases hit.symm.trans hit'
  exact hne Std.ReflCmp.compare_self

namespace Frontier

variable {α : Type} {chart : Chart} {good : Item α → Prop} {f : Frontier α}

/-- The places of the queued items. -/
def places (f : Frontier α) : List Nat := f.agenda.heap.entries.toList.map (·.value)

theorem mem_places (f : Frontier α) (n : Nat) :
    n ∈ f.places ↔ ∃ e ∈ f.agenda.heap.entries, e.value = n := by
  simp only [places, List.mem_map, Array.mem_toList_iff]

theorem Sound.nodup_places (h : f.Sound chart good) : f.places.Nodup := by
  apply List.pairwise_map.mpr
  refine h.indexed.pairwise_key_ne.imp_of_mem ?_
  intro d e hd he hne hvalue
  obtain ⟨it, hit, hkey, -⟩ := h.queued d (Array.mem_toList_iff.mp hd)
  obtain ⟨it', hit', hkey', -⟩ := h.queued e (Array.mem_toList_iff.mp he)
  rw [hvalue] at hit
  cases hit.symm.trans hit'
  exact hne (hkey.symm.trans hkey')

/-- Proven and queued places are those of the arena, each of them once. -/
theorem Sound.partition (h : f.Sound chart good) :
    (chart.ids ++ f.places).Perm (List.range f.arena.size) := by
  have hids : chart.ids.Perm chart.items.values := List.mergeSort_perm _ _
  have hlen : chart.ids.length = chart.size := by
    rw [hids.length_eq, Map.values_eq_map_toList, List.length_map]
    exact Std.TreeMap.length_toList
  have hnodup : (chart.ids ++ f.places).Nodup := by
    refine List.nodup_append.mpr ⟨hids.nodup_iff.mpr h.agrees.nodup_values, h.nodup_places, ?_⟩
    rintro id hid _ hn rfl
    obtain ⟨k, hk⟩ := (Map.mem_values _ _).mp (hids.mem_iff.mp hid)
    obtain ⟨e, he, hvalue⟩ := (f.mem_places id).mp hn
    exact h.value_ne he hk hvalue
  have hsub : chart.ids ++ f.places ⊆ List.range f.arena.size := by
    intro n hn
    rw [List.mem_range]
    rcases List.mem_append.mp hn with hn | hn
    · obtain ⟨k, hk⟩ := (Map.mem_values _ _).mp (hids.mem_iff.mp hn)
      obtain ⟨it, hit, -⟩ := h.agrees.items k n hk
      exact (Array.getElem?_eq_some_iff.mp hit).1
    · obtain ⟨e, he, rfl⟩ := (f.mem_places n).mp hn
      obtain ⟨it, hit, -⟩ := h.queued e he
      exact (Array.getElem?_eq_some_iff.mp hit).1
  -- so many different places below the size can only be all of them
  refine (List.subperm_of_subset hnodup hsub).perm_of_length_le ?_
  rw [List.length_range, List.length_append, hlen, places, List.length_map, Array.length_toList]
  exact Nat.le_of_eq h.balance.symm

end Frontier

variable {α : Type} [Cost α]

/-- A proposal points to proven items. -/
theorem Proposal.Licensed.pointers {g : Grammar α} {proves : Nat → Item α → Prop} {x : Proposal α}
    (hx : Licensed g proves x) {k : Int} (hk : x.left = some k ∨ x.right = some k) :
    ∃ (id : Nat) (b : Item α), k = id ∧ proves id b := by
  cases hx with
  | @unary c id b s hc hr hb hl hj =>
      simp only [Option.some.injEq, reduceCtorEq, or_false] at hk
      exact ⟨id, b, hk.symm, hb⟩
  | @binary c r id id' b b' s hc hr hb hl hb' hl' hj =>
      simp only [Option.some.injEq] at hk
      rcases hk with hk | hk
      · exact ⟨id, b, hk.symm, hb⟩
      · exact ⟨id', b', hk.symm, hb'⟩

/-- Back pointers of founded items lead to proven ones, as long as no source has any. -/
theorem Founded.pointers {p : Problem α} {source : Item α → Prop} {proves : Nat → Item α → Prop}
    (hsource : ∀ it, source it → it.left = none ∧ it.right = none) {it : Item α}
    (h : Founded p source proves it) {k : Int} (hk : it.left = some k ∨ it.right = some k) :
    ∃ (id : Nat) (x : Item α), k = id ∧ proves id x := by
  rcases h with h | ⟨x, hx, rfl⟩
  · obtain ⟨hl, hr⟩ := hsource it h
    simp [hl, hr] at hk
  · exact hx.pointers hk

namespace Search

variable {p : Problem α} {source : Item α → Prop} {s t u : Search α}

/-- What the proven and the queued items of a search have to do with its arena. -/
structure InStep (s : Search α) : Prop where
  partition : (s.chart.ids ++ s.frontier.places).Perm (List.range s.frontier.arena.size)
  balance : s.frontier.arena.size = s.chart.size + s.frontier.agenda.size
  entries : ∀ e ∈ s.frontier.agenda.heap.entries, ∃ it, s.frontier.arena[e.value]? = some it ∧
    it.key = e.key ∧ it.total = e.priority
  pointers : ∀ it ∈ s.frontier.arena, ∀ k, it.left = some k ∨ it.right = some k →
    ∃ (id : Nat) (x : Item α), k = id ∧ s.Proves id x
  apart : ∀ e ∈ s.frontier.agenda.heap.entries, ∀ it, s.frontier.arena[e.value]? = some it →
    ∀ id x, s.Proves id x → ¬ (x.label = it.label ∧ x.span = it.span)

/-- All items of the arena are founded, as each of them is proven or queued. -/
theorem Sound.founded (hs : s.Sound p source) {it : Item α} (hit : it ∈ s.frontier.arena) :
    Founded p source s.Proves it := by
  obtain ⟨n, hn⟩ := Array.mem_iff_getElem?.mp hit
  have hplace : n ∈ s.chart.ids ++ s.frontier.places := by
    rw [hs.frontier.partition.mem_iff, List.mem_range]
    exact (Array.getElem?_eq_some_iff.mp hn).1
  rcases List.mem_append.mp hplace with hid | hqueued
  · obtain ⟨k, hk⟩ := (Map.mem_values _ _).mp (List.mem_mergeSort.mp hid)
    obtain ⟨x, hx, -⟩ := hs.frontier.agrees.exists_proves hk
    cases hn.symm.trans hx.2
    exact (hs.proven n it hx).2
  · obtain ⟨e, he, rfl⟩ := (s.frontier.mem_places n).mp hqueued
    obtain ⟨x, hx, -, -, hgood, -⟩ := hs.frontier.queued e he
    cases hn.symm.trans hx
    exact hgood

theorem Sound.inStep (hsource : ∀ it, source it → it.left = none ∧ it.right = none)
    (hs : s.Sound p source) : s.InStep := by
  refine ⟨hs.frontier.partition, hs.frontier.balance.symm, ?_, ?_, ?_⟩
  · intro e he
    obtain ⟨it, hit, hkey, htotal, -⟩ := hs.frontier.queued e he
    exact ⟨it, hit, hkey, htotal⟩
  · intro it hit k hk
    exact (hs.founded hit).pointers hsource hk
  · rintro e he it hit id x hx ⟨hl, hspan⟩
    obtain ⟨it', hit', hkey, -, -, hnew⟩ := hs.frontier.queued e he
    cases hit.symm.trans hit'
    have hsame : x.key = it.key := by rw [Item.key, Item.key, hl, hspan]
    rw [← hkey, ← hsame, hx.1] at hnew
    cases hnew

/-- What is proven is proven later on, at the same place and as the same item. -/
def Keeps (s t : Search α) : Prop := ∀ id it, s.Proves id it → t.Proves id it

theorem keeps_step (hp : p.Grounded source) (hs : s.Sound p source) : s.Keeps (s.step p).1 := by
  intro id it hit
  rcases step_cases gauge_trivial hp hs with ⟨-, t, ht, halike⟩ | ⟨-, t, ht, halike⟩ |
    ⟨e, x, u, hpop, ⟨-, v, hv, halike⟩ | ⟨-, v, hv, hcombined⟩⟩
  · rw [ht]
    exact halike.proves ▸ hit
  · rw [ht]
    exact halike.proves ▸ hit
  · rw [hv]
    exact halike.proves ▸ hpop.proves_of_proves hs id it hit
  · rw [hv]
    exact (hcombined.proves id it).mpr (hpop.proves_of_proves hs id it hit)

/-- The search comes from one state to another by steps that do not end it. -/
def LeadsTo (p : Problem α) : Search α → Search α → Prop :=
  Relation.ReflTransGen fun s t => s.step p = (t, none)

theorem LeadsTo.sound (hp : p.Grounded source) (hs : s.Sound p source) (h : s.LeadsTo p t) :
    t.Sound p source := by
  induction h with
  | refl => exact hs
  | tail _ hstep ih =>
      obtain ⟨e, it, v, -, -, hcombined⟩ := step_next gauge_trivial hp ih hstep
      exact hcombined.sound

theorem LeadsTo.keeps (hp : p.Grounded source) (hs : s.Sound p source) (h : s.LeadsTo p t) :
    s.Keeps t := by
  induction h with
  | refl => exact fun _ _ hit => hit
  | @tail u t h hstep ih =>
      intro id it hit
      have hkeeps := keeps_step hp (LeadsTo.sound hp hs h) id it (ih id it hit)
      rwa [hstep] at hkeeps

/-- A run goes on where it has come to. -/
theorem LeadsTo.run_eq (h : s.LeadsTo p t) : run p s = run p t := by
  induction h with
  | refl => rfl
  | @tail u t _ hstep ih =>
      rw [ih, run]
      split
      next hstop => cases hstep.symm.trans hstop
      next hnext =>
        cases hstep.symm.trans hnext
        rfl

/-- Steps that do not end the search, one after the other. -/
theorem leadsTo_iterate (n : Nat)
    (h : ∀ k < n, (((fun s => (s.step p).1)^[k] s).step p).2.isNone = true) :
    s.LeadsTo p ((fun s => (s.step p).1)^[n] s) := by
  induction n with
  | zero => exact .refl
  | succ n ih =>
      rw [Function.iterate_succ_apply']
      refine (ih fun k hk => h k (Nat.lt_succ_of_lt hk)).tail (Prod.ext rfl ?_)
      exact Option.isNone_iff_eq_none.mp (h n (Nat.lt_succ_self n))

theorem keeps_run (hp : p.Grounded source) (hs : s.Sound p source) : s.Keeps (run p s).1 := by
  obtain ⟨t, hlead, hstop⟩ := run_stops (p := p) (P := s.LeadsTo p)
    (fun u v hu hstep => hu.tail hstep) Relation.ReflTransGen.refl
  intro id it hit
  have hkeeps := keeps_step hp (hlead.sound hp hs) id it (hlead.keeps hp hs id it hit)
  rwa [hstop] at hkeeps

end Search

namespace Parser

variable {q : Parser α} {ctx : Context α} {tracing : Bool} {sentence : List Token} {s : Search α}

/-- The parser comes by this state between two steps of its search for a sentence that it does not
refuse. -/
structure Visits (q : Parser α) (ctx : Context α) (tracing : Bool) (sentence : List Token)
    (s : Search α) : Prop where
  pos : 1 ≤ sentence.length
  le : sentence.length ≤ maxSentence
  run : (q.begun ctx tracing sentence).LeadsTo (q.posed ctx tracing sentence) s

theorem Visits.sound (h : q.Visits ctx tracing sentence s) (hbuilt : ctx.Built)
    (htags : ∀ t ∈ sentence, ctx.grammar.dict.Has t.tag) :
    s.Sound (q.posed ctx tracing sentence) (Seeded ctx sentence) :=
  h.run.sound (posed_grounded q tracing hbuilt htags) begun_sound

/-- Between the steps of a search every place of the arena is proven or queued, entries and back
pointers are right, and what is proven is not touched until the parser is at rest. -/
theorem arena_in_step (q : Parser α) (ctx : Context α) (tracing : Bool) (sentence : List Token)
    (h : ctx.Takes sentence) (s : Search α) (hs : q.Visits ctx tracing sentence s) :
    s.InStep ∧ (∀ t, s.LeadsTo (q.posed ctx tracing sentence) t → s.Keeps t) ∧
      s.Keeps (q.reset.parse ctx tracing sentence).1.search := by
  have hp := posed_grounded q tracing h.built h.tags
  have hsound := hs.sound h.built h.tags
  refine ⟨hsound.inStep ?_, fun t ht => ht.keeps hp hsound, ?_⟩
  · rintro it ⟨i, t, -, rfl⟩
    exact ⟨rfl, rfl⟩
  · rw [search_parse hs.pos hs.le, hs.run.run_eq]
    exact Search.keeps_run hp hsound

/-- After four steps all but the item of the whole sentence are proven. -/
theorem arena_in_step_gapped :
    ∃ s, gapped.Takes gappedSentence ∧ unbounded.Visits gapped false gappedSentence s ∧
      s.chart.size = 4 ∧ s.frontier.places = [4] ∧ s.InStep := by
  have hvisits : unbounded.Visits gapped false gappedSentence
      ((fun s => (s.step (unbounded.posed gapped false gappedSentence)).1)^[4]
        (unbounded.begun gapped false gappedSentence)) :=
    ⟨by decide, by decide, Search.leadsTo_iterate 4 (by decide +kernel)⟩
  refine ⟨_, gapped_takes, hvisits, by decide +kernel, by decide +kernel, ?_⟩
  exact (arena_in_step unbounded gapped false gappedSentence gapped_takes _ hvisits).1

end Parser

end Discontinuous
