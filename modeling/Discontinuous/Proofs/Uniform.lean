import Discontinuous.Proofs.Estimate

/-!
Searches that nothing guides. They pop items in ascending order of their inside costs and prove
each at the least cost of all its derivations, however sums are bracketed or rounded: it takes no
more than that a sum is never less than what is added up, and never less for dearer summands.
-/
namespace Discontinuous

variable {α : Type} [Cost α] {ctx : Context α} {sentence : List Token}

namespace Search

variable {p : Problem α} {s t u : Search α} {e : Entry Key α Nat} {it : Item α}

/-- The item that is first in the queue. -/
def next? (s : Search α) : Option (Item α) :=
  s.frontier.agenda.pop.1.bind fun e => s.frontier.arena[e.value]?

/-- The items that are popped in the course of a run, in their order. -/
def history (p : Problem α) (s : Search α) : List (Item α) :=
  match _h : s.step p with
  | (_, some _) => s.next?.toList
  | (t, none) => s.next?.toList ++ history p t
termination_by s.chart.room
decreasing_by
  have hlt := @room_step_lt _ _ p _ (congrArg Prod.snd _h)
  rwa [_h] at hlt

theorem history_of_stop {stop : Stop α} (h : s.step p = (t, some stop)) :
    history p s = s.next?.toList := by
  rw [history]
  split
  next => rfl
  next hstep => cases h.symm.trans hstep

theorem history_of_step (h : s.step p = (t, none)) :
    history p s = s.next?.toList ++ history p t := by
  rw [history]
  split
  next hstep => cases h.symm.trans hstep
  next hstep =>
    cases h.symm.trans hstep
    rfl

theorem Pops.next?_eq (h : s.Pops e it t) : s.next? = some it := by
  simp only [next?]
  rw [h.agenda]
  exact h.item

theorem next?_of_empty (h : s.frontier.agenda.size = 0) : s.next? = none := by
  simp only [next?]
  rcases hpop : s.frontier.agenda.pop with ⟨_ | e, rest⟩
  · rfl
  · have hmem := Agenda.mem_of_pop hpop
    rw [Array.eq_empty_of_size_eq_zero h] at hmem
    simp at hmem

/-- What a run from `s` to `t` has popped: items in ascending order of their totals, none of them
cheaper than what was proven before. They are what is proven in the end and was not before. -/
structure Recounts (s : Search α) (its : List (Item α)) (t : Search α) : Prop where
  ascending : its.Pairwise fun a b => Cost.le a.total b.total = true
  later : ∀ id x, s.Proves id x → ∀ it ∈ its, Cost.le x.total it.total = true
  proves : ∀ it, (∃ id, t.Proves id it) ↔ (∃ id, s.Proves id it) ∨ it ∈ its

theorem Recounts.nil (h : s.Alike t) : Recounts s [] t := by
  refine ⟨.nil, fun id x _ it hit => (nomatch hit), ?_⟩
  intro it
  rw [h.proves]
  simp

/-- One more item at the front: what is proven with it comes before all the others. -/
theorem Recounts.cons {its : List (Item α)} {n : Nat} (h : Recounts t its u)
    (hproves : ∀ id x, t.Proves id x ↔ s.Proves id x ∨ (id = n ∧ x = it))
    (hlast : ∀ id x, s.Proves id x → Cost.le x.total it.total = true) :
    Recounts s (it :: its) u := by
  refine ⟨?_, ?_, ?_⟩
  · refine List.pairwise_cons.mpr ⟨?_, h.ascending⟩
    exact h.later n it ((hproves _ _).mpr (.inr ⟨rfl, rfl⟩))
  · intro id x hx y hy
    rcases List.mem_cons.mp hy with rfl | hy
    · exact hlast id x hx
    · exact h.later id x ((hproves id x).mpr (.inl hx)) y hy
  · intro x
    rw [h.proves, List.mem_cons, ← or_assoc]
    simp only [hproves, exists_or, exists_and_right, exists_eq, true_and]

/-- The history of a best-first run recounts it. -/
theorem recounts_run [OrderedCost α] {q : Parser α} {tracing : Bool} {live : Label → Span → Prop}
    (h : ctx.Takes sentence) (hlen : sentence.length ≤ maxSentence)
    (hpops : q.options.maxPops ≤ 0) (hsteady : Steady ctx sentence live)
    (hs : s.Sound (q.posed ctx tracing sentence) (Seeded ctx sentence))
    (hc : s.Complete (q.posed ctx tracing sentence) (Seeded ctx sentence)
      fun a b => Cost.le a b = true)
    (hbest : s.Best ctx sentence live) :
    Recounts s (history (q.posed ctx tracing sentence) s)
      (run (q.posed ctx tracing sentence) s).1 := by
  have hp := Parser.posed_posed q tracing h hlen
  have hlimit : ¬ 0 < (q.posed ctx tracing sentence).maxPops := by
    change ¬ 0 < q.options.maxPops
    omega
  -- what is proven before a step is no dearer than what the step pops, and that is proven before
  -- the rest of the run
  fun_induction run (q.posed ctx tracing sentence) s with
  | case1 s t stop hstep =>
      rw [history_of_stop hstep]
      rcases step_cases gauge_le hp hs with ⟨hsize, u, hu, halike⟩ | ⟨hmax, -⟩ |
        ⟨e, it, v, hpop, ⟨-, u, hu, halike⟩ | ⟨-, u, hu, -⟩⟩
      · cases hu.symm.trans hstep
        rw [next?_of_empty hsize]
        exact .nil halike
      · exact absurd hmax hlimit
      · cases hu.symm.trans hstep
        rw [hpop.next?_eq]
        exact .cons (.nil halike) (hpop.proves_iff hs) fun id x hx =>
          hbest.le_of_pops hs hpop hx
      · cases hu.symm.trans hstep
  | case2 s t hstep ih =>
      rw [history_of_step hstep]
      rcases step_cases gauge_le hp hs with ⟨-, u, hu, -⟩ | ⟨hmax, -⟩ |
        ⟨e, it, v, hpop, ⟨-, u, hu, -⟩ | ⟨hgoal, u, hu, hcombined⟩⟩
      · cases hu.symm.trans hstep
      · exact absurd hmax hlimit
      · cases hu.symm.trans hstep
      · cases hu.symm.trans hstep
        rw [hpop.next?_eq]
        have hproves : ∀ id x, t.Proves id x ↔ s.Proves id x ∨ (id = e.value ∧ x = it) := by
          intro id x
          rw [hcombined.proves]
          exact hpop.proves_iff hs id x
        have hrest := ih hcombined.sound (complete_of_combined hp hs hc hpop hcombined)
          (preserves_best h hlen hsteady s e it v t hs hc hbest hpop hgoal hcombined)
        exact .cons hrest hproves fun id x hx => hbest.le_of_pops hs hpop hx

/-- The tree that the back pointers of a proven item spell out. -/
theorem Spelled.ofItem? {source : Item α → Prop} (h : s.Spelled ctx sentence)
    (hs : s.Sound p source) (ha : s.Alike t) {id : Nat} (hit : s.Proves id it) :
    ∃ d, Derivation.ofItem? ctx.grammar.dict t.frontier.arena t.frontier.arena.size id = some d ∧
      d.Proper ctx sentence ∧ d.label = it.label ∧ d.span = it.span ∧ d.cost = it.inside := by
  obtain ⟨d, htraced, hd⟩ := h id it hit
  refine ⟨d, ?_, hd⟩
  have hbalance := hs.frontier.balance
  rw [ha.2]
  apply (htraced.deeper (by omega)).ofItem?
  intro n x hx
  exact hx.2

end Search

namespace Parser

variable {q : Parser α} {tracing : Bool}

/-- A parser with steady estimates that no number of pops stops ends without an error, and its
search is a best one. -/
theorem best_parse [OrderedCost α] {live : Label → Span → Prop} (q : Parser α) (tracing : Bool)
    (h : ctx.Takes sentence) (hpos : 1 ≤ sentence.length) (hlen : sentence.length ≤ maxSentence)
    (hpops : q.options.maxPops ≤ 0) (hsteady : Steady ctx sentence live) :
    (∃ result, (q.reset.parse ctx tracing sentence).2 = .ok result) ∧
      ∃ t : Search α, t.Sound (q.posed ctx tracing sentence) (Seeded ctx sentence) ∧
        t.Best ctx sentence live ∧ t.Alike (q.reset.parse ctx tracing sentence).1.search := by
  obtain ⟨t, hs, hc, hbest, ⟨-, u, ha, heq⟩ | ⟨hmax, -⟩ | ⟨e, it, v, u, hpop, -, ha, heq⟩⟩ :=
    parse_cases gauge_le h hpos hlen (Search.preserves_best h hlen hsteady) begun_best
  · rw [heq]
    exact ⟨⟨_, rfl⟩, t, hs, hbest, ha⟩
  · omega
  · rw [heq]
    exact ⟨⟨_, rfl⟩, v, hpop.sound hs (posed_posed q tracing h hlen),
      (hbest.pops h hlen hs hc hsteady hpop).1, ha⟩

/-- A parser that nothing guides ends without an error. Its items cost no more than any derivation
of theirs and as much as the one that their back pointers spell out, and they are what was popped,
in ascending order of cost. -/
theorem uniform_search_exact [RoundedCost α] (q : Parser α) (ctx : Context α) (tracing : Bool)
    (sentence : List Token) (h : ctx.Takes sentence)
    (hzero : ctx.heuristic = Estimates.zero.heuristic) (hpos : 1 ≤ sentence.length)
    (hlen : sentence.length ≤ maxSentence) (hpops : q.options.maxPops ≤ 0) :
    (∃ result, (q.reset.parse ctx tracing sentence).2 = .ok result) ∧
      (∀ id ∈ (q.reset.parse ctx tracing sentence).1.search.chart.ids, ∃ it d,
        (q.reset.parse ctx tracing sentence).1.search.frontier.arena[id]? = some it ∧
        Derivation.ofItem? ctx.grammar.dict
          (q.reset.parse ctx tracing sentence).1.search.frontier.arena
          (q.reset.parse ctx tracing sentence).1.search.frontier.arena.size id = some d ∧
        d.Proper ctx sentence ∧ d.label = it.label ∧ d.span = it.span ∧ d.cost = it.inside ∧
        ∀ d' : Derivation α, d'.Proper ctx sentence → d'.label = it.label → d'.span = it.span →
          Cost.le it.inside d'.cost = true) ∧
      (Search.history (q.posed ctx tracing sentence) (q.begun ctx tracing sentence)).Pairwise
        (fun a b => Cost.le a.inside b.inside = true) ∧
      ∀ it, (q.reset.parse ctx tracing sentence).1.Charts it ↔
        it ∈ Search.history (q.posed ctx tracing sentence) (q.begun ctx tracing sentence) := by
  have hnothing : ∀ l s, ctx.heuristic l s sentence.length = Cost.zero := by
    intro l s
    rw [hzero]
    rfl
  have hsteady := steady_of_zero h.built hnothing
  have hrecounts : Search.Recounts (q.begun ctx tracing sentence) _ _ :=
    Search.recounts_run h hlen hpops hsteady begun_sound (begun_complete gauge_le) begun_best
  obtain ⟨hresult, t, hs, hbest, ha⟩ := best_parse q tracing h hpos hlen hpops hsteady
  have hagrees : (q.reset.parse ctx tracing sentence).1.search.chart.Agrees
      (q.reset.parse ctx tracing sentence).1.search.frontier.arena := by
    rw [ha.1, ha.2]
    exact hs.frontier.agrees
  have hmem : ∀ it, (∃ id, t.Proves id it) ↔
      it ∈ Search.history (q.posed ctx tracing sentence) (q.begun ctx tracing sentence) := by
    intro it
    rw [← ha.proves, search_parse hpos hlen, hrecounts.proves]
    simp [begun_proves]
  have htotal : ∀ it ∈ Search.history (q.posed ctx tracing sentence)
      (q.begun ctx tracing sentence), it.total = it.inside := by
    intro it hit
    obtain ⟨id, hid⟩ := (hmem it).mpr hit
    rw [Search.total_eq (hs.proven id it hid).2, hnothing, Cost.add_zero]
  refine ⟨hresult, ?_, ?_, ?_⟩
  · intro id hid
    obtain ⟨k, hk⟩ := (Map.mem_values _ id).mp (List.mem_mergeSort.mp hid)
    obtain ⟨it, hit, -⟩ := hagrees.exists_proves hk
    have hproves : t.Proves id it := ha.proves ▸ hit
    obtain ⟨d, htree, hproper, hl, hspan, hcost⟩ := hbest.spelled.ofItem? hs ha hproves
    exact ⟨it, d, hit.2, htree, hproper, hl, hspan, hcost, hbest.optimal id it hproves trivial⟩
  · refine hrecounts.ascending.imp_of_mem ?_
    intro a b hamem hbmem hle
    rwa [htotal a hamem, htotal b hbmem] at hle
  · intro it
    rw [charts_iff hagrees, ← hmem, ← ha.proves]

end Parser

/-- Whole costs with sums that are rounded up to even ones, unless nothing is added. -/
inductive Coarse where
  | whole (n : Nat)
  | infinite
deriving DecidableEq

namespace Coarse

def sum (m n : Nat) : Nat :=
  if m = 0 then n else if n = 0 then m else (m + n) + (m + n) % 2

instance : Cost Coarse where
  zero := whole 0
  infinity := infinite
  add
    | whole m, whole n => whole (sum m n)
    | _, _ => infinite
  le
    | whole m, whole n => decide (m ≤ n)
    | infinite, whole _ => false
    | _, infinite => true

theorem sum_le_sum {m m' n n' : Nat} (hm : m ≤ m') (hn : n ≤ n') : sum m n ≤ sum m' n' := by
  simp only [sum]
  split_ifs <;> omega

theorem add_le_add {a a' b b' : Coarse} (ha : Cost.le a a' = true) (hb : Cost.le b b' = true) :
    Cost.le (Cost.add a b) (Cost.add a' b') = true := by
  cases a <;> cases a' <;> cases b <;> cases b' <;> simp_all [Cost.le, Cost.add, sum_le_sum]

theorem le_refl (a : Coarse) : Cost.le a a = true := by
  cases a <;> simp [Cost.le]

theorem zero_add (a : Coarse) : Cost.add Cost.zero a = a := by
  cases a <;> simp [Cost.add, Cost.zero, sum]

theorem add_zero (a : Coarse) : Cost.add a Cost.zero = a := by
  cases a with
  | whole n =>
      simp [Cost.add, Cost.zero, sum]
      omega
  | infinite => rfl

instance : RoundedCost Coarse where
  le_total a b := by
    cases a <;> cases b <;> simp [Cost.le]
    omega
  le_trans := by
    intro a b c
    cases a <;> cases b <;> cases c <;> simp [Cost.le]
    omega
  le_antisymm := by
    intro a b
    cases a <;> cases b <;> simp [Cost.le]
    omega
  add_le_add_left c h := add_le_add (le_refl c) h
  add_le_add_right c h := add_le_add h (le_refl c)
  le_add_left a b hb := by
    have hle := add_le_add hb (le_refl a)
    rwa [zero_add] at hle
  le_add_right a b hb := by
    have hle := add_le_add (le_refl a) hb
    rwa [add_zero] at hle
  add_zero := add_zero

end Coarse

namespace Parser

def coarseEdits : List (Edit Coarse) :=
  [.preterminal "A", .clause "B" "A" none [[.left]] (.whole 1),
    .clause "S" "A" none [[.left]] (.whole 3), .clause "S" "B" none [[.left]] (.whole 1),
    .clause "S" "S" none [[.left]] (.whole 0),
    .clause "S" "S" (some "S") [[.left, .right]] (.whole 1),
    .entry (Text.ofString "a") "A" (.whole 3)]

/-- A context with a cycle that costs nothing, and with two ways to an `S`. -/
def coarse : Context Coarse where
  grammar := (Language.ofEdits "S" coarseEdits).grammar
  lexicon := some (Language.ofEdits "S" coarseEdits).lexicon
  heuristic := Estimates.zero.heuristic

def coarseSentence : List Token := [⟨some 0, ⟨1⟩⟩, ⟨none, ⟨1⟩⟩]

theorem coarse_takes : coarse.Takes coarseSentence := by
  refine ⟨⟨inferInstance, "S", coarseEdits, rfl, fun lex hlex => (Option.some.inj hlex).symm⟩, ?_, ?_⟩
  · decide +kernel
  · decide +kernel

def coarseParser : Parser Coarse := .new ⟨0, false⟩

/-- It matters here how sums are bracketed. -/
theorem uniform_search_exact_coarse :
    Cost.add (Cost.add (.whole 1) (.whole 1)) (.whole 2) ≠
        Cost.add (.whole 1) (Cost.add (.whole 1) (Coarse.whole 2)) ∧
      coarse.Takes coarseSentence ∧ 1 ≤ coarseSentence.length ∧
      coarseSentence.length ≤ maxSentence ∧ coarseParser.options.maxPops ≤ 0 ∧
      LexicalCost coarse.lexicon ⟨some 0, ⟨1⟩⟩ (.whole 3) ∧
      (Search.history (coarseParser.posed coarse false coarseSentence)
        (coarseParser.begun coarse false coarseSentence)).map Item.inside =
          [.whole 0, .whole 1, .whole 2, .whole 3, .whole 4, .whole 6, .whole 10] ∧
      (Search.history (coarseParser.posed coarse false coarseSentence)
        (coarseParser.begun coarse false coarseSentence)).Pairwise
          (fun a b => Cost.le a.inside b.inside = true) ∧
      ∀ d : Derivation Coarse, d.Proper coarse coarseSentence → d.label = ⟨0⟩ →
        d.span = .one 0 2 → Cost.le (.whole 10) d.cost = true := by
  obtain ⟨-, hexact, hascending, -⟩ := uniform_search_exact coarseParser coarse false
    coarseSentence coarse_takes rfl (by decide) (by decide) (by decide)
  refine ⟨by decide, coarse_takes, by decide, by decide, by decide,
    .listed rfl rfl (by decide +kernel), by decide +kernel, hascending, ?_⟩
  have hgoal : ∃ id ∈ (coarseParser.reset.parse coarse false
      coarseSentence).1.search.chart.items.values,
      ((coarseParser.reset.parse coarse false
        coarseSentence).1.search.frontier.arena[id]?.map fun it =>
          (it.label, it.span, it.inside)) = some (⟨0⟩, .one 0 2, .whole 10) := by
    decide +kernel
  obtain ⟨id, hid, hfields⟩ := hgoal
  obtain ⟨it, -, hit, -, -, -, -, -, hminimal⟩ := hexact id (List.mem_mergeSort.mpr hid)
  rw [hit] at hfields
  obtain ⟨hl, hs, hinside⟩ := by simpa using hfields
  rwa [hl, hs, hinside] at hminimal

end Parser

end Discontinuous
