import Discontinuous.Proofs.Termination
import Discontinuous.Proofs.Uniform

/-!
Searches with a bound on their pops beside searches without one. Both take the same steps up to the
bound, so a bound that is reached leaves the items that the unbounded search proves first, and any
other bound leaves no trace. This holds of every grammar, also of one with clauses that propose
spans out of order.
-/
namespace Discontinuous

variable {α : Type} [Cost α]

/-- The same problem with a bound on the pops. -/
def Problem.limit (p : Problem α) (k : Nat) : Problem α := { p with maxPops := k }

namespace Search

variable {p : Problem α} {s t u : Search α} {k : Nat}

/-- The arena holds the queued items and the proven ones, and there has been a pop for each of
these. -/
structure Orderly (s : Search α) : Prop where
  frontier : s.frontier.Sound s.chart fun _ => True
  counted : s.Counted

/-- From `s` to `t` the items `its` are proven, with a pop for each, and nothing else changes about
what is proven. -/
structure Unfolds (s : Search α) (its : List (Item α)) (t : Search α) : Prop where
  orderly : t.Orderly
  pops : t.pops = s.pops + its.length
  keeps : s.Keeps t
  proves : ∀ it, (∃ id, t.Proves id it) ↔ (∃ id, s.Proves id it) ∨ it ∈ its

omit [Cost α] in
theorem Unfolds.nil (ht : t.Orderly) (ha : s.Alike t) (hpops : t.pops = s.pops) :
    Unfolds s [] t := by
  refine ⟨ht, hpops, ?_, ?_⟩
  · intro id it hit
    rwa [ha.proves]
  · intro it
    rw [ha.proves]
    simp

omit [Cost α] in
theorem Unfolds.single {n : Nat} {it : Item α} (ht : t.Orderly) (hpops : t.pops = s.pops + 1)
    (hproves : ∀ id x, t.Proves id x ↔ s.Proves id x ∨ (id = n ∧ x = it)) :
    Unfolds s [it] t := by
  refine ⟨ht, hpops, fun id x hx => (hproves id x).mpr (.inl hx), ?_⟩
  intro x
  simp [hproves, exists_or]

omit [Cost α] in
theorem Unfolds.trans {its its' : List (Item α)} (h : Unfolds s its t) (h' : Unfolds t its' u) :
    Unfolds s (its ++ its') u := by
  refine ⟨h'.orderly, ?_, fun id it hit => h'.keeps id it (h.keeps id it hit), ?_⟩
  · rw [h'.pops, h.pops, List.length_append]
    omega
  · intro it
    rw [h'.proves, h.proves, List.mem_append, or_assoc]

/-- An item that is popped gets proven, whatever becomes of the proposals from it. -/
theorem unfolds_advance {e : Entry Key α Nat} {it : Item α} (hs : s.Orderly)
    (hpop : s.Pops e it (t.prove p e.value it)) (hchart : t.chart = s.chart)
    (hpops : t.pops = s.pops + 1) : Unfolds s [it] (t.advance p e.value it).1 := by
  obtain ⟨x, hx, hkey, -, -, hnew⟩ := hs.frontier.queued e (Agenda.mem_of_pop hpop.agenda)
  cases hpop.item.symm.trans hx
  have hnew : s.chart.items[it.key]? = none := hkey ▸ hnew
  have hproven : (t.prove p e.value it).Orderly := by
    refine ⟨?_, ?_⟩
    · rw [hpop.chart]
      exact hs.frontier.record hpop.agenda hpop.item hpop.arena
    · simp only [Counted]
      rw [hpop.chart, Chart.size_record e.value hnew, ← hs.counted]
      exact hpops
  have hproves : ∀ id x, (t.prove p e.value it).Proves id x ↔
      s.Proves id x ∨ (id = e.value ∧ x = it) := by
    intro id x
    simp only [Proves]
    rw [hpop.chart, hpop.arena]
    exact Chart.proves_record hpop.item hnew id x
  have hcontains : t.chart.contains it.label it.span = false := by
    rw [hchart]
    exact (Map.contains_eq_false_iff _ _).mpr hnew
  unfold advance
  rw [if_neg (by rw [hcontains]; exact Bool.false_ne_true)]
  dsimp only
  obtain ⟨hfrontier, hcounted⟩ := hproven
  by_cases hgoal : isGoal p it = true
  · rw [if_pos hgoal]
    exact .single ⟨⟨hfrontier.indexed, hfrontier.agrees, hfrontier.queued, hfrontier.balance⟩,
      hcounted⟩ hpops hproves
  · rw [if_neg hgoal]
    simp only [combine]
    rw [Frontier.combine_eq hfrontier]
    obtain ⟨hsound, hsame⟩ := Frontier.beside_proposeAll (p := p) hfrontier
      (Proposal.ofItem p.grammar (t.prove p e.value it).chart (t.prove p e.value it).frontier.arena
        e.value it)
    exact .single ⟨hsound, hcounted⟩ hpops fun id x => (hsame id x).trans (hproves id x)

/-- A step that the bound allows proves the next item, if there is one. -/
theorem unfolds_step (hs : s.Orderly) (hlimit : ¬ (0 < p.maxPops ∧ p.maxPops ≤ s.pops)) :
    Unfolds s s.next?.toList (s.step p).1 := by
  obtain ⟨⟨arena, agenda, log⟩, chart, pops⟩ := s
  rcases hpop : agenda.pop with ⟨_ | e, rest⟩
  · have hrest : rest = agenda := by
      have hsame := (Agenda.pop_none (congrArg Prod.fst hpop)).2
      rwa [hpop] at hsame
    simp only [step, next?, hpop]
    obtain ⟨hfrontier, hcounted⟩ := hs
    rw [hrest]
    exact .nil ⟨⟨hfrontier.indexed, hfrontier.agrees, hfrontier.queued, hfrontier.balance⟩,
      hcounted⟩ ⟨rfl, rfl⟩ rfl
  · obtain ⟨it, hit, -⟩ := hs.frontier.queued e (Agenda.mem_of_pop hpop)
    dsimp only at hit hlimit
    have hpops : Pops ⟨⟨arena, agenda, log⟩, chart, pops⟩ e it
        (prove p ⟨⟨arena, rest, log⟩, chart, pops + 1⟩ e.value it) :=
      .of_pop p chart pops (pops + 1) hpop hit
    rw [hpops.next?_eq]
    simp only [step, hpop, hit]
    rw [if_neg (by push_cast; omega)]
    exact unfolds_advance hs hpops rfl rfl

theorem orderly_unfolds_run (hs : s.Orderly) (hmax : p.maxPops ≤ 0) :
    Unfolds s (history p s) (run p s).1 := by
  fun_induction run p s with
  | case1 s t stop hstep =>
      have hfirst := unfolds_step hs (p := p) (by omega)
      rwa [hstep, ← history_of_stop hstep] at hfirst
  | case2 s t hstep ih =>
      have hfirst := unfolds_step hs (p := p) (by omega)
      rw [hstep] at hfirst
      rw [history_of_step hstep]
      exact hfirst.trans (ih hfirst.orderly)

/-- Nothing that is proposed depends on the bound. -/
theorem advance_limit (p : Problem α) (k : Nat) (s : Search α) (id : Nat) (it : Item α) :
    s.advance (p.limit k) id it = s.advance p id it := rfl

/-- Up to the bound a step goes as it does without one. -/
theorem step_limit_of_le (hmax : p.maxPops ≤ 0) (h : (s.step p).1.pops ≤ k) :
    s.step (p.limit k) = s.step p := by
  rw [pops_step] at h
  obtain ⟨⟨arena, agenda, log⟩, chart, pops⟩ := s
  simp only [step]
  rcases hpop : agenda.pop with ⟨_ | e, rest⟩
  · rfl
  · simp only [hpop] at h
    simp only [advance_limit]
    rw [if_neg (by simp [Problem.limit] at h ⊢; omega), if_neg (by omega)]

/-- Beyond the bound an item is popped, and not proven. -/
theorem step_limit_of_lt (hk : 0 < k) (hpops : s.pops = k) (h : k < (s.step p).1.pops) :
    ∃ t, s.step (p.limit k) = (t, some .popLimit) ∧ s.Alike t ∧ t.pops = k + 1 := by
  rw [pops_step] at h
  obtain ⟨⟨arena, agenda, log⟩, chart, pops⟩ := s
  rcases hpop : agenda.pop with ⟨_ | e, rest⟩
  · simp only [hpop] at h
    simp at h hpops
    omega
  · simp only [step, hpop]
    rw [if_pos (by simp [Problem.limit] at hpops ⊢; omega)]
    exact ⟨_, rfl, ⟨rfl, rfl⟩, congrArg (· + 1) hpops⟩

theorem run_of_stop {stop : Stop α} (h : s.step p = (t, some stop)) : run p s = (t, stop) := by
  rw [run]
  split
  next hstep =>
    cases h.symm.trans hstep
    rfl
  next hstep => cases h.symm.trans hstep

theorem run_of_step (h : s.step p = (t, none)) : run p s = run p t :=
  LeadsTo.run_eq (.single h)

theorem run_ne_popLimit (hmax : p.maxPops ≤ 0) : (run p s).2 ≠ .popLimit := by
  obtain ⟨⟨⟨arena, agenda, log⟩, chart, pops⟩, -, hstop⟩ := run_stops (p := p)
    (P := fun _ => True) (fun _ _ _ _ => trivial) (trivial : True) (s := s)
  intro hlimit
  rw [hlimit] at hstop
  simp only [step] at hstop
  rcases hpop : agenda.pop with ⟨_ | e, rest⟩
  · simp [hpop] at hstop
  · simp only [hpop] at hstop
    rw [if_neg (by omega)] at hstop
    split at hstop
    · simp at hstop
    · unfold advance at hstop
      split at hstop
      · simp at hstop
      · dsimp only at hstop
        split at hstop
        · simp at hstop
        · simp at hstop

/-- A run that keeps to the bound goes as it does without one. -/
theorem run_limit_of_le (hmax : p.maxPops ≤ 0) (hs : s.Orderly) (h : (run p s).1.pops ≤ k) :
    run (p.limit k) s = run p s := by
  fun_induction run p s with
  | case1 s t stop hstep =>
      exact run_of_stop ((step_limit_of_le hmax (by rwa [hstep])).trans hstep)
  | case2 s t hstep ih =>
      have hfirst := unfolds_step hs (p := p) (by omega)
      rw [hstep] at hfirst
      have hrest := orderly_unfolds_run hfirst.orderly hmax
      have hsame : s.step (p.limit k) = s.step p := by
        have hpops := hrest.pops
        refine step_limit_of_le hmax ?_
        rw [hstep]
        dsimp only at hpops ⊢
        omega
      rw [run_of_step (hsame.trans hstep)]
      exact ih hfirst.orderly h

/-- A bounded run from `s` is cut off in the state `mid`, from which it pops once more. The
unbounded run comes by this state. -/
structure CutsOff (p : Problem α) (k : Nat) (s mid t : Search α) : Prop where
  stops : run (p.limit k) s = (t, .popLimit)
  alike : mid.Alike t
  reached : mid.pops = k
  pops : t.pops = k + 1
  before : Unfolds s ((history p s).take (k - s.pops)) mid
  after : Unfolds mid ((history p s).drop (k - s.pops)) (run p s).1

theorem CutsOff.here (hk : 0 < k) (hmax : p.maxPops ≤ 0) (hs : s.Orderly) (hpops : s.pops = k)
    (h : k < (s.step p).1.pops) : ∃ t, CutsOff p k s s t := by
  obtain ⟨t, hstop, halike, ht⟩ := step_limit_of_lt hk hpops h
  refine ⟨t, run_of_stop hstop, halike, hpops, ht, ?_, ?_⟩
  · rw [hpops, Nat.sub_self, List.take_zero]
    exact .nil hs ⟨rfl, rfl⟩ rfl
  · rw [hpops, Nat.sub_self, List.drop_zero]
    exact orderly_unfolds_run hs hmax

theorem CutsOff.step {mid : Search α} (h : CutsOff p k t mid u) (hs : s.Orderly)
    (hmax : p.maxPops ≤ 0) (hstep : s.step p = (t, none)) (hle : t.pops ≤ k) :
    CutsOff p k s mid u := by
  have hfirst := unfolds_step hs (p := p) (by omega)
  rw [hstep] at hfirst
  have hsame : s.step (p.limit k) = s.step p := step_limit_of_le hmax (by rwa [hstep])
  have hcount : k - s.pops = s.next?.toList.length + (k - t.pops) := by
    have hpops := hfirst.pops
    dsimp only at hpops
    omega
  refine ⟨?_, h.alike, h.reached, h.pops, ?_, ?_⟩
  · rw [run_of_step (hsame.trans hstep)]
    exact h.stops
  · rw [history_of_step hstep, hcount, List.take_length_add_append]
    exact hfirst.trans h.before
  · rw [history_of_step hstep, hcount, List.drop_length_add_append, run_of_step hstep]
    exact h.after

/-- A run that would go beyond the bound is cut off. -/
theorem exists_cutsOff (hk : 0 < k) (hmax : p.maxPops ≤ 0) (hs : s.Orderly) (hle : s.pops ≤ k)
    (h : k < (run p s).1.pops) : ∃ mid t, CutsOff p k s mid t := by
  have hpops := pops_step p s
  fun_induction run p s with
  | case1 s t stop hstep =>
      refine ⟨s, CutsOff.here hk hmax hs ?_ (by rwa [hstep])⟩
      rw [hstep] at hpops
      dsimp only at hpops h
      split at hpops <;> omega
  | case2 s t hstep ih =>
      by_cases hnext : t.pops ≤ k
      · have hfirst := unfolds_step hs (p := p) (by omega)
        rw [hstep] at hfirst
        obtain ⟨mid, u, hcut⟩ := ih hfirst.orderly hnext h (pops_step p t)
        exact ⟨mid, u, hcut.step hs hmax hstep hnext⟩
      · refine ⟨s, CutsOff.here hk hmax hs ?_ (by rw [hstep]; exact not_le.mp hnext)⟩
        rw [hstep] at hpops
        dsimp only at hpops
        split at hpops <;> omega

end Search

namespace Parser

variable {q : Parser α} {ctx : Context α} {tracing : Bool} {sentence : List Token} {k : Nat}

/-- The same parser with a bound on its pops. -/
def limit (q : Parser α) (k : Nat) : Parser α := { q with options.maxPops := k }

theorem begun_orderly : (q.begun ctx tracing sentence).Orderly := by
  have hsound : (q.begun ctx tracing sentence).Sound (q.posed ctx tracing sentence)
      (Seeded ctx sentence) := begun_sound
  exact ⟨hsound.frontier.mono fun _ _ => trivial, rfl⟩

/-- The items that an unbounded search proves, in their order. -/
def proven (q : Parser α) (ctx : Context α) (tracing : Bool) (sentence : List Token) :
    List (Item α) :=
  Search.history (q.posed ctx tracing sentence) (q.begun ctx tracing sentence)

/-- A bound that is not exceeded leaves no trace but itself. -/
theorem parse_limit_of_le (hpos : 1 ≤ sentence.length) (hlen : sentence.length ≤ maxSentence)
    (hpops : q.options.maxPops ≤ 0)
    (h : (q.reset.parse ctx tracing sentence).1.figures.pops ≤ k) :
    (q.limit k).reset.parse ctx tracing sentence =
      ((q.reset.parse ctx tracing sentence).1.limit k,
        (q.reset.parse ctx tracing sentence).2) := by
  simp only [figures, Search.figures] at h
  rw [search_parse hpos hlen] at h
  have hsame : Search.run ((q.limit k).posed ctx tracing sentence)
      ((q.limit k).begun ctx tracing sentence) =
        Search.run (q.posed ctx tracing sentence) (q.begun ctx tracing sentence) :=
    Search.run_limit_of_le hpops begun_orderly h
  have hfree := Search.run_ne_popLimit (p := q.posed ctx tracing sentence)
    (s := q.begun ctx tracing sentence) hpops
  rw [parse_eq hpos hlen, parse_eq hpos hlen, hsame]
  revert hfree
  rcases Search.run (q.posed ctx tracing sentence) (q.begun ctx tracing sentence) with ⟨s, stop⟩
  intro hfree
  cases stop with
  | exhausted => rfl
  | found id cost => rfl
  | popLimit => exact absurd rfl hfree
  | invariant e => rfl
  | dangling id => rfl

/-- A parser whose run is cut off fails. -/
theorem parse_limit_of_cutsOff {mid t : Search α} (hpos : 1 ≤ sentence.length)
    (hlen : sentence.length ≤ maxSentence)
    (h : Search.CutsOff (q.posed ctx tracing sentence) k (q.begun ctx tracing sentence) mid t) :
    (q.limit k).reset.parse ctx tracing sentence =
      ((q.limit k).ended tracing sentence t .failed none, .error (.popLimit k)) := by
  have hstops : Search.run ((q.limit k).posed ctx tracing sentence)
      ((q.limit k).begun ctx tracing sentence) = (t, .popLimit) := h.stops
  rw [parse_eq hpos hlen, hstops]
  rfl

/-- With a bound on its pops a parser ends as it does without one, if there are no more pops than
this. Else it fails at the next pop: its chart holds as many of the items that are proven first,
at the places and as the items that they are in the end, and there is no derivation. -/
theorem limit_cuts_off (q : Parser α) (ctx : Context α) (tracing : Bool) (sentence : List Token)
    (k : Nat) (hpos : 1 ≤ sentence.length) (hlen : sentence.length ≤ maxSentence)
    (hpops : q.options.maxPops ≤ 0) (hk : 0 < k) :
    ((q.proven ctx tracing sentence).length =
        (q.reset.parse ctx tracing sentence).1.figures.pops ∧
      ∀ it, (q.reset.parse ctx tracing sentence).1.Charts it ↔
        it ∈ q.proven ctx tracing sentence) ∧
    ((q.reset.parse ctx tracing sentence).1.figures.pops ≤ k →
      (q.limit k).reset.parse ctx tracing sentence =
        ((q.reset.parse ctx tracing sentence).1.limit k,
          (q.reset.parse ctx tracing sentence).2)) ∧
    (k < (q.reset.parse ctx tracing sentence).1.figures.pops →
      ((q.limit k).reset.parse ctx tracing sentence).2 = .error (.popLimit k) ∧
      ((q.limit k).reset.parse ctx tracing sentence).1.state = .failed ∧
      ((q.limit k).reset.parse ctx tracing sentence).1.figures.pops = k + 1 ∧
      ((q.limit k).reset.parse ctx tracing sentence).1.figures.chartSize = k ∧
      (∀ it, ((q.limit k).reset.parse ctx tracing sentence).1.Charts it ↔
        it ∈ (q.proven ctx tracing sentence).take k) ∧
      ((q.limit k).reset.parse ctx tracing sentence).1.search.Keeps
        (q.reset.parse ctx tracing sentence).1.search ∧
      ∀ dict, ((q.limit k).reset.parse ctx tracing sentence).1.derivation dict =
        .error .none) := by
  have hrun : (q.reset.parse ctx tracing sentence).1.search =
      (Search.run (q.posed ctx tracing sentence) (q.begun ctx tracing sentence)).1 :=
    search_parse hpos hlen
  have hunfolds : (q.begun ctx tracing sentence).Unfolds (q.proven ctx tracing sentence)
      (q.reset.parse ctx tracing sentence).1.search := by
    rw [hrun]
    exact Search.orderly_unfolds_run begun_orderly hpops
  refine ⟨⟨?_, ?_⟩, fun hle => parse_limit_of_le hpos hlen hpops hle, ?_⟩
  · have hcount := hunfolds.pops
    rw [show (q.begun ctx tracing sentence).pops = 0 from rfl, Nat.zero_add] at hcount
    exact hcount.symm
  · intro it
    rw [charts_iff hunfolds.orderly.frontier.agrees, hunfolds.proves]
    simp [begun_proves]
  · intro hlt
    simp only [figures, Search.figures] at hlt
    rw [hrun] at hlt
    have hbegun : (q.begun ctx tracing sentence).Orderly := begun_orderly
    obtain ⟨mid, t, hcut⟩ := Search.exists_cutsOff hk hpops hbegun (Nat.zero_le k) hlt
    have hbefore : (q.begun ctx tracing sentence).Unfolds
        ((q.proven ctx tracing sentence).take k) mid := hcut.before
    have hagrees : t.chart.Agrees t.frontier.arena := by
      rw [hcut.alike.1, hcut.alike.2]
      exact hbefore.orderly.frontier.agrees
    have hsize : t.chart.size = k := by
      rw [hcut.alike.1, ← hbefore.orderly.counted]
      exact hcut.reached
    rw [parse_limit_of_cutsOff hpos hlen hcut]
    refine ⟨rfl, rfl, hcut.pops, hsize, ?_, ?_, fun dict => rfl⟩
    · intro it
      refine (charts_iff hagrees).trans ?_
      change (∃ id, t.Proves id it) ↔ _
      rw [hcut.alike.proves, hbefore.proves]
      simp [begun_proves]
    · intro id it hit
      change t.Proves id it at hit
      rw [hcut.alike.proves] at hit
      rw [hrun]
      exact hcut.after.keeps id it hit

/-- The goal is the fifth item to be proven here, so a bound of five is not exceeded. -/
theorem limit_cuts_off_gapped :
    1 ≤ gappedSentence.length ∧ gappedSentence.length ≤ maxSentence ∧
      unbounded.options.maxPops ≤ 0 ∧
      (unbounded.reset.parse gapped false gappedSentence).1.figures.pops = 5 ∧
      (unbounded.limit 5).reset.parse gapped false gappedSentence =
        ((unbounded.reset.parse gapped false gappedSentence).1.limit 5,
          (unbounded.reset.parse gapped false gappedSentence).2) ∧
      ((unbounded.limit 4).reset.parse gapped false gappedSentence).1.state = .failed ∧
      ((unbounded.limit 4).reset.parse gapped false gappedSentence).1.figures.pops = 5 ∧
      ((unbounded.limit 4).reset.parse gapped false gappedSentence).1.figures.chartSize = 4 := by
  have hfive : (unbounded.reset.parse gapped false gappedSentence).1.figures.pops = 5 := by
    decide +kernel
  obtain ⟨-, hwithin, -⟩ := limit_cuts_off unbounded gapped false gappedSentence 5 (by decide)
    (by decide) (by decide) (by decide)
  obtain ⟨-, -, hbeyond⟩ := limit_cuts_off unbounded gapped false gappedSentence 4 (by decide)
    (by decide) (by decide) (by decide)
  obtain ⟨-, hstate, hpops, hsize, -⟩ := hbeyond (by rw [hfive]; decide)
  exact ⟨by decide, by decide, by decide, hfive, hwithin hfive.le, hstate, hpops, hsize⟩

end Parser

end Discontinuous
