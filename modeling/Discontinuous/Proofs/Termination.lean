import Discontinuous.Proofs.Partition

/-!
How searches end. There are only so many spans within a sentence, and no item is proven twice, so
the pops of a search are bounded by the labels and the spans that there are. At no moment does a
search refer to a place outside of its arena, or hold an item whose label has another number of
ranges than its span.
-/
namespace Discontinuous

theorem sublist_range {l : List Nat} {n : Nat} (hl : l.Pairwise (· < ·)) (hlt : ∀ x ∈ l, x < n) :
    l.Sublist (List.range n) := by
  have hsub : l ⊆ List.range n := fun x hx => List.mem_range.mpr (hlt x hx)
  have hperm := List.subperm_of_subset (hl.imp fun h => Nat.ne_of_lt h) hsub
  exact List.sublist_of_subperm_of_pairwise hperm (hl.imp fun h => Nat.le_of_lt h)
    (List.pairwise_lt_range.imp fun h => Nat.le_of_lt h)

namespace Span

/-- The span with two or four boundaries. -/
def ofBoundaries? : List Nat → Option Span
  | [l, r] => some (one l r)
  | [l1, r1, l2, r2] => some (two l1 r1 l2 r2)
  | _ => none

/-- All spans within a sentence. -/
def listWithin (n : Nat) : List Span :=
  ((List.range (n + 1)).sublistsLen 2 ++ (List.range (n + 1)).sublistsLen 4).filterMap ofBoundaries?

theorem length_listWithin_le (n : Nat) :
    (listWithin n).length ≤ (n + 1).choose 2 + (n + 1).choose 4 := by
  refine (List.length_filterMap_le _ _).trans ?_
  rw [List.length_append, List.length_sublistsLen, List.length_sublistsLen, List.length_range]

theorem mem_listWithin {n : Nat} {s : Span} (hs : s.Within n) : s ∈ listWithin n := by
  obtain ⟨⟨h0, h1, h2⟩, h3, h4⟩ := hs
  obtain ⟨l1, r1, l2, r2⟩ := s
  dsimp only at *
  simp only [listWithin, List.mem_filterMap, List.mem_append, List.mem_sublistsLen]
  lift l1 to Nat using h0
  lift r1 to Nat using by omega
  by_cases hl2 : l2 = unset
  · rw [if_pos hl2] at h2
    refine ⟨[l1, r1], .inl ⟨sublist_range ?_ ?_, rfl⟩, ?_⟩
    · simp
      omega
    · simp
      omega
    · rw [hl2, h2]
      rfl
  · rw [if_neg hl2] at h2
    lift l2 to Nat using by omega
    lift r2 to Nat using by omega
    refine ⟨[l1, r1, l2, r2], .inr ⟨sublist_range ?_ ?_, rfl⟩, rfl⟩
    · simp
      omega
    · simp
      omega

end Span

variable {α : Type} [Cost α] {p : Problem α} {source : Item α → Prop}

/-- A founded item has as many ranges as its label. -/
theorem Founded.arity {proves : Nat → Item α → Prop} (hp : p.Grounded source)
    (hsource : ∀ it, source it → it.span.arity = p.grammar.arity it.label)
    (hfits : ∀ id it, proves id it → p.Fits it) {it : Item α} (h : Founded p source proves it) :
    it.span.arity = p.grammar.arity it.label := by
  rcases h with h | ⟨x, hx, rfl⟩
  · exact hsource it h
  · cases hx with
    | @unary c id b s hc hr hb hl hj =>
        have hu := hp.grammar.isUnary_eq_true hc hr
        refine Eq.trans ?_ (hp.grammar.arity_lhs hc).symm
        exact JoinType.arity_eq_of_join hj (hfits _ _ hb).2.1 fun hne => nomatch hu.symm.trans hne
    | @binary c r id id' b b' s hc hr hb hl hb' hl' hj =>
        refine Eq.trans ?_ (hp.grammar.arity_lhs hc).symm
        exact JoinType.arity_eq_of_join hj (hfits _ _ hb).2.1 fun _ => (hfits _ _ hb').2.1

namespace Search

variable {s t : Search α}

/-- Whatever is queued or listed stands in the arena, and items there have as many ranges within
the sentence as their labels. -/
structure Tidy (g : Grammar α) (n : Int) (s : Search α) : Prop where
  queued : ∀ e ∈ s.frontier.agenda.heap.entries, e.value < s.frontier.arena.size
  proven : ∀ id ∈ s.chart.ids, id < s.frontier.arena.size
  listed : ∀ l q, ∀ id ∈ s.chart.lookup l q, id < s.frontier.arena.size
  items : ∀ it ∈ s.frontier.arena, it.span.Within n ∧ it.span.arity = g.arity it.label

theorem Sound.tidy (hp : p.Grounded source)
    (hsource : ∀ it, source it → it.span.arity = p.grammar.arity it.label)
    (hs : s.Sound p source) : s.Tidy p.grammar p.length := by
  have hplace : ∀ n ∈ s.chart.ids ++ s.frontier.places, n < s.frontier.arena.size := fun n hn =>
    List.mem_range.mp (hs.frontier.partition.mem_iff.mp hn)
  refine ⟨?_, ?_, ?_, ?_⟩
  · intro e he
    exact hplace _ (List.mem_append_right _ ((s.frontier.mem_places _).mpr ⟨e, he, rfl⟩))
  · intro id hid
    exact hplace id (List.mem_append_left _ hid)
  · intro l q id hid
    obtain ⟨it, hit, -⟩ := hs.frontier.agrees.proves_of_lookup hid
    exact (Array.getElem?_eq_some_iff.mp hit.2).1
  · intro it hit
    have hfits := fun n x hx => (hs.proven n x hx).1
    have hfounded := hs.founded hit
    exact ⟨(hp.fits_of_founded hfits hfounded).2, hfounded.arity hp hsource hfits⟩

/-- Every proven key is that of a label of the grammar and a span within the sentence. -/
theorem Sound.chart_size_le (hs : s.Sound p source) {n : Nat} (hn : p.length = n) :
    s.chart.size ≤ p.grammar.dict.size * ((n + 1).choose 2 + (n + 1).choose 4) := by
  let keys := (List.range p.grammar.dict.size ×ˢ Span.listWithin n).map fun x => Key.of ⟨x.1⟩ x.2
  have hsub : s.chart.items.keys ⊆ keys := by
    intro k hk
    obtain ⟨id, hid⟩ := (Map.mem_keys _ k).mp hk
    obtain ⟨it, hit, rfl⟩ := hs.frontier.agrees.exists_proves hid
    obtain ⟨⟨hnonneg, hlt⟩, hwithin⟩ := (hs.proven id it hit).1
    have hlabel : (⟨(it.label.id.toNat : Int)⟩ : Label) = it.label := by
      rw [Int.toNat_of_nonneg hnonneg]
    refine List.mem_map.mpr ⟨(it.label.id.toNat, it.span), List.mem_product.mpr ⟨?_, ?_⟩, ?_⟩
    · exact List.mem_range.mpr (by omega)
    · exact Span.mem_listWithin (hn ▸ hwithin)
    · dsimp only
      rw [hlabel]
      rfl
  calc s.chart.size = s.chart.items.keys.length := Std.TreeMap.length_keys.symm
    _ ≤ keys.length := (List.subperm_of_subset (Map.nodup_keys _) hsub).length_le
    _ = p.grammar.dict.size * (Span.listWithin n).length := by
      rw [List.length_map, List.length_product, List.length_range]
    _ ≤ _ := Nat.mul_le_mul_left _ (Span.length_listWithin_le n)

theorem Sound.alike (hs : s.Sound p source) (h : s.Alike t)
    (hagenda : t.frontier.agenda = s.frontier.agenda) : t.Sound p source := by
  obtain ⟨hchart, harena⟩ := h
  refine ⟨⟨?_, ?_, ?_, ?_⟩, ?_⟩
  · rw [hagenda]
    exact hs.frontier.indexed
  · rw [hchart, harena]
    exact hs.frontier.agrees
  · rw [Alike.proves ⟨hchart, harena⟩, hagenda, hchart, harena]
    exact hs.frontier.queued
  · rw [hchart, hagenda, harena]
    exact hs.frontier.balance
  · rw [Alike.proves ⟨hchart, harena⟩]
    exact hs.proven

/-- Some proposals can be made as well as all of them. -/
theorem Sound.proposing (hp : p.Grounded source) (hs : s.Sound p source) {e : Entry Key α Nat}
    {it : Item α} (hpop : s.Pops e it t) (k : Nat) :
    Sound p source ⟨(t.frontier.proposeAll p t.chart
      ((Proposal.ofItem p.grammar t.chart t.frontier.arena e.value it).take k)).1,
      t.chart, t.pops⟩ := by
  have ht := hpop.sound hs hp
  have hlicensed : ∀ x ∈ (Proposal.ofItem p.grammar t.chart t.frontier.arena e.value it).take k,
      Proposal.Licensed p.grammar t.Proves x := by
    intro x hx
    have hextends := Proposal.extends_of_mem_ofItem hp.grammar ht.frontier.agrees
      (List.mem_of_mem_take hx)
    exact hextends.licensed (hpop.proves_item hs)
  obtain ⟨f, hf, -, hsound⟩ := Search.proposing gauge_trivial hp ht hlicensed
  rw [hf]
  exact hsound

theorem pops_advance (p : Problem α) (s : Search α) (id : Nat) (it : Item α) :
    (s.advance p id it).1.pops = s.pops := by
  simp only [advance]
  split
  · rfl
  · split <;> rfl

/-- A step counts as a pop if there is something to pop. -/
theorem pops_step (p : Problem α) (s : Search α) :
    (s.step p).1.pops = s.pops + if s.frontier.agenda.pop.1.isSome then 1 else 0 := by
  obtain ⟨⟨arena, agenda, log⟩, chart, pops⟩ := s
  simp only [step]
  rcases hpop : agenda.pop with ⟨_ | e, rest⟩
  · rfl
  · dsimp only
    split
    · rfl
    · split
      · rfl
      · exact pops_advance _ _ _ _

/-- A search that ends with an item or without one leaves the agenda as its last pop did. -/
theorem agenda_of_stop {stop : Stop α} (h : s.step p = (t, some stop))
    (hstop : ∀ e, stop ≠ .invariant e) : t.frontier.agenda = s.frontier.agenda.pop.2 := by
  obtain ⟨⟨arena, agenda, log⟩, chart, pops⟩ := s
  simp only [step] at h
  rcases hpop : agenda.pop with ⟨_ | e, rest⟩
  · simp only [hpop] at h
    cases h
    rfl
  · simp only [hpop] at h
    split at h
    · cases h
      rfl
    · split at h
      · cases h
        rfl
      · unfold advance at h
        split at h
        · cases h
          exact absurd rfl (hstop _)
        · dsimp only at h
          split at h
          · cases h
            simp [Frontier.tell, prove]
          · obtain ⟨-, hnone⟩ := Prod.mk.inj h
            obtain ⟨e, -, rfl⟩ := Option.map_eq_some_iff.mp hnone
            exact absurd rfl (hstop e)

/-- There have been as many pops as there are proven items. -/
def Counted (s : Search α) : Prop := s.pops = s.chart.size

theorem Counted.pops {e : Entry Key α Nat} {it : Item α} (h : s.Counted) (hs : s.Sound p source)
    (hpop : s.Pops e it t) : (s.step p).1.pops = t.chart.size := by
  rw [pops_step, hpop.agenda, hpop.size_chart hs, h]
  rfl

theorem counted_step (hp : p.Grounded source) (hs : s.Sound p source) (h : s.Counted)
    (hstep : s.step p = (t, none)) : t.Sound p source ∧ t.Counted := by
  obtain ⟨e, it, u, hpop, -, hcombined⟩ := step_next gauge_trivial hp hs hstep
  refine ⟨hcombined.sound, ?_⟩
  have hpops := h.pops hs hpop
  rw [hstep] at hpops
  exact hpops.trans (congrArg Chart.size hcombined.chart).symm

/-- With no bound on its pops a search ends with the goal or with nothing left to prove. -/
theorem run_ends_sound (hp : p.Grounded source) (hmax : p.maxPops ≤ 0) (hs : s.Sound p source)
    (h : s.Counted) : (run p s).1.Sound p source ∧ (run p s).1.Counted ∧
      ((run p s).2 = .exhausted ∨ ∃ id cost, (run p s).2 = .found id cost) := by
  obtain ⟨t, ⟨ht, hcounted⟩, hstop⟩ := run_stops (p := p)
    (P := fun s => s.Sound p source ∧ s.Counted)
    (fun s t hs hstep => counted_step hp hs.1 hs.2 hstep) ⟨hs, h⟩
  generalize run p s = ended at hstop ⊢
  obtain ⟨final, stop⟩ := ended
  have hpops := pops_step p t
  rcases step_cases gauge_trivial hp ht with ⟨hempty, u, hu, halike⟩ | ⟨hlimit, -⟩ |
    ⟨e, it, v, hpop, ⟨-, u, hu, halike⟩ | ⟨-, u, hu, -⟩⟩
  · cases hstop.symm.trans hu
    have hagenda := agenda_of_stop hstop (fun _ => nofun)
    rw [Agenda.pop_of_empty hempty] at hagenda hpops
    rw [hstop] at hpops
    refine ⟨ht.alike halike hagenda, ?_, .inl rfl⟩
    exact hpops.trans (hcounted.trans (congrArg Chart.size halike.1).symm)
  · omega
  · cases hstop.symm.trans hu
    have hagenda := agenda_of_stop hstop (fun _ => nofun)
    have hpops := hcounted.pops ht hpop
    rw [hpop.agenda] at hagenda
    rw [hstop] at hpops
    refine ⟨(hpop.sound ht hp).alike halike hagenda, ?_, .inr ⟨_, _, rfl⟩⟩
    exact hpops.trans (congrArg Chart.size halike.1).symm
  · cases hstop.symm.trans hu

end Search

namespace Parser

variable {q : Parser α} {ctx : Context α} {tracing : Bool} {sentence : List Token}

/-- The parser comes by this state, be it between two steps or in the midst of one. -/
inductive Passes (q : Parser α) (ctx : Context α) (tracing : Bool) (sentence : List Token) :
    Search α → Prop where
  /-- The first `k` tokens are queued. -/
  | seeding (k : Nat) : Passes q ctx tracing sentence
      ⟨seeds ctx (q.posed ctx tracing sentence) .empty (sentence.take k), .empty, 0⟩
  | visiting {s : Search α} : q.Visits ctx tracing sentence s → Passes q ctx tracing sentence s
  /-- An item is proven, and the first `k` proposals are made from it. -/
  | proposing {s t : Search α} {e : Entry Key α Nat} {it : Item α} (k : Nat) :
      q.Visits ctx tracing sentence s → s.Pops e it t → Passes q ctx tracing sentence
        ⟨(t.frontier.proposeAll (q.posed ctx tracing sentence) t.chart
          ((Proposal.ofItem ctx.grammar t.chart t.frontier.arena e.value it).take k)).1,
          t.chart, t.pops⟩
  | resting : Passes q ctx tracing sentence (q.reset.parse ctx tracing sentence).1.search

theorem seeding_sound (k : Nat) : Search.Sound (q.posed ctx tracing sentence) (Seeded ctx sentence)
    ⟨seeds ctx (q.posed ctx tracing sentence) .empty (sentence.take k), .empty, 0⟩ := by
  refine ⟨(seeds_sound gauge_trivial _ _ sound_empty ?_).1, ?_⟩
  · rintro ⟨t, i⟩ hx
    have hi := List.mem_zipIdx_iff_getElem?.mp hx
    rw [List.getElem?_take] at hi
    split at hi
    · exact .inl ⟨i, t, hi, rfl⟩
    · cases hi
  · rintro n it ⟨hit, -⟩
    simp [Chart.empty] at hit

/-- A parser without a bound on its pops never fails. It comes by no state with a place out of the
arena or an item of the wrong number of ranges, and pops each label and span once at most. -/
theorem parse_ends (q : Parser α) (ctx : Context α) (tracing : Bool) (sentence : List Token)
    (hbuilt : ctx.Built) (htags : ∀ t ∈ sentence, ctx.grammar.isPreterminal t.tag = true)
    (hpos : 1 ≤ sentence.length) (hlen : sentence.length ≤ maxSentence)
    (hpops : q.options.maxPops ≤ 0) :
    (((q.reset.parse ctx tracing sentence).1.state = .succeeded ∧
        ∃ success, (q.reset.parse ctx tracing sentence).2 = .ok (some success)) ∨
      ((q.reset.parse ctx tracing sentence).1.state = .exhausted ∧
        (q.reset.parse ctx tracing sentence).2 = .ok none)) ∧
    (∀ s, q.Passes ctx tracing sentence s → s.Tidy ctx.grammar sentence.length) ∧
    (q.reset.parse ctx tracing sentence).1.figures.pops =
      (q.reset.parse ctx tracing sentence).1.figures.chartSize ∧
    (q.reset.parse ctx tracing sentence).1.figures.pops ≤ ctx.grammar.dict.size *
      ((sentence.length + 1).choose 2 + (sentence.length + 1).choose 4) := by
  have hp := posed_grounded q tracing hbuilt fun t ht => hbuilt.grammar.preterminal _ (htags t ht)
  have hsource : ∀ it, Seeded ctx sentence it →
      it.span.arity = (q.posed ctx tracing sentence).grammar.arity it.label := by
    rintro it ⟨i, t, ht, rfl⟩
    exact (hbuilt.grammar.arity_preterminal (htags t (List.mem_of_getElem? ht))).symm
  have hbegun : (q.begun ctx tracing sentence).Sound (q.posed ctx tracing sentence)
      (Seeded ctx sentence) := begun_sound
  obtain ⟨hsound, hcounted, hends⟩ := Search.run_ends_sound hp hpops hbegun rfl
  have hrest : (q.reset.parse ctx tracing sentence).1.search =
      (Search.run (q.posed ctx tracing sentence) (q.begun ctx tracing sentence)).1 :=
    search_parse hpos hlen
  refine ⟨?_, ?_, ?_, ?_⟩
  · rw [parse_eq hpos hlen]
    generalize Search.run (q.posed ctx tracing sentence) (q.begun ctx tracing sentence) = ended
      at hends ⊢
    obtain ⟨final, stop⟩ := ended
    rcases hends with rfl | ⟨id, cost, rfl⟩
    · exact .inr ⟨rfl, rfl⟩
    · exact .inl ⟨rfl, _, rfl⟩
  · intro s hs
    refine Search.Sound.tidy hp hsource ?_
    cases hs with
    | seeding k => exact seeding_sound k
    | visiting h => exact h.run.sound hp hbegun
    | proposing k h hpop => exact (h.run.sound hp hbegun).proposing hp hpop k
    | resting =>
        rw [hrest]
        exact hsound
  · simp only [figures, Search.figures]
    rw [hrest]
    exact hcounted
  · simp only [figures, Search.figures]
    rw [hrest]
    exact hcounted.trans_le (hsound.chart_size_le rfl)

theorem parse_ends_gapped :
    gapped.Built ∧ (∀ t ∈ gappedSentence, gapped.grammar.isPreterminal t.tag = true) ∧
      (unbounded.reset.parse gapped false gappedSentence).1.state = .succeeded ∧
      (unbounded.reset.parse gapped false gappedSentence).1.figures.pops =
        (unbounded.reset.parse gapped false gappedSentence).1.figures.chartSize ∧
      (unbounded.reset.parse gapped false gappedSentence).1.figures.pops ≤
        gapped.grammar.dict.size * (Nat.choose 4 2 + Nat.choose 4 4) := by
  have htags : ∀ t ∈ gappedSentence, gapped.grammar.isPreterminal t.tag = true := by
    decide +kernel
  exact ⟨gapped_takes.built, htags, by decide +kernel,
    (parse_ends unbounded gapped false gappedSentence gapped_takes.built htags (by decide)
      (by decide) (by decide)).2.2⟩

end Parser

end Discontinuous
