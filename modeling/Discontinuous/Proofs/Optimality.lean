import Discontinuous.Proofs.Recognition

/-!
Cheapest derivations. If estimates are such that totals never fall from a node of a derivation to
its parent, items are proven in ascending order of their totals, and at the least cost of all
their derivations. An infinite estimate makes totals equal, and nothing is said about the cost of
such an item: it is not a live one.
-/
namespace Discontinuous

variable {α : Type} [Cost α] {ctx : Context α} {sentence : List Token}

theorem Context.Built.lexicon {ctx : Context α} (h : ctx.Built) {lex : Lexicon α}
    (hlex : ctx.lexicon = some lex) : lex.WellFormed := by
  obtain ⟨_, start, edits, -, hl⟩ := h
  rw [hl lex hlex]
  exact (Language.wellFormed_ofEdits start edits).lexicon

namespace Derivation

variable {d : Derivation α}

/-- The cost of a derivation and the estimate of what is still to come. -/
def total (ctx : Context α) (sentence : List Token) (d : Derivation α) : α :=
  Cost.add d.cost (ctx.heuristic d.label d.span sentence.length)

variable [OrderedCost α]

theorem admitted_of_lexicalCost (hb : ctx.Built) {t : Token} {x : α}
    (hx : LexicalCost ctx.lexicon t x) : Cost.isAdmitted x = true := by
  cases hx with
  | listed hlex _ hx =>
      rw [Lexicon.cost?, Std.TreeMap.get?_eq_getElem?] at hx
      exact hb.lexicon hlex _ _ hx
  | unlisted _ => exact Cost.isAdmitted_zero

theorem Proper.admitted (hb : ctx.Built) (h : d.Proper ctx sentence) :
    Cost.isAdmitted d.cost = true := by
  induction h with
  | leaf _ hx => exact admitted_of_lexicalCost hb hx
  | unary hc _ _ _ _ ih => exact Cost.isAdmitted_add ih (hb.grammar.clause _ hc).cost
  | binary hc _ _ _ _ _ _ ih ih' =>
      exact Cost.isAdmitted_add (Cost.isAdmitted_add ih ih') (hb.grammar.clause _ hc).cost

/-- What cannot be completed has an infinite total. -/
theorem Proper.isInfinite_total (hb : ctx.Built) (h : d.Proper ctx sentence)
    (hinf : Cost.isInfinite (ctx.heuristic d.label d.span sentence.length) = true) :
    Cost.isInfinite (d.total ctx sentence) = true :=
  Cost.isInfinite_of_le (OrderedCost.le_add_left _ (h.admitted hb)) hinf

end Derivation

/-- Something may come of the label and the span, as far as estimates tell. -/
def Context.Live (ctx : Context α) (sentence : List Token) (l : Label) (s : Span) : Prop :=
  Cost.isInfinite (ctx.heuristic l s sentence.length) = false

/-- Estimates for which totals never fall from a node to its parent. They cancel where `live`
holds, and elsewhere no total is exceeded by any cost. -/
structure Steady (ctx : Context α) (sentence : List Token) (live : Label → Span → Prop) :
    Prop where
  rises : ∀ d : Derivation α, d.Proper ctx sentence → ∀ c ∈ d.children,
    Cost.le (c.total ctx sentence) (d.total ctx sentence) = true
  cancels : ∀ {l : Label} {s : Span} {x y : α}, live l s →
    Cost.le (Cost.add x (ctx.heuristic l s sentence.length))
      (Cost.add y (ctx.heuristic l s sentence.length)) = true → Cost.le x y = true
  dead : ∀ d : Derivation α, d.Proper ctx sentence → ¬ live d.label d.span →
    ∀ y, Cost.le y (d.total ctx sentence) = true

theorem Derivation.Proper.le_total_of_not_live [ExactCost α] {d : Derivation α} (hb : ctx.Built)
    (h : d.Proper ctx sentence) (hdead : ¬ ctx.Live sentence d.label d.span) (y : α) :
    Cost.le y (d.total ctx sentence) = true :=
  Cost.le_of_isInfinite y (h.isInfinite_total hb (Bool.eq_true_of_not_eq_false hdead))

namespace Search

variable {q : Parser α} {tracing : Bool} {s t u : Search α} {e : Entry Key α Nat} {it : Item α}
  {d : Derivation α} {R : α → α → Prop} {live : Label → Span → Prop}

theorem total_eq {proves : Nat → Item α → Prop}
    (h : Founded (q.posed ctx tracing sentence) (Seeded ctx sentence) proves it) :
    it.total = Cost.add it.inside (ctx.heuristic it.label it.span sentence.length) := by
  rcases h with ⟨i, t, -, rfl⟩ | ⟨x, -, rfl⟩
  · rfl
  · rfl

/-- Proven items that are live cost no more than any derivation of theirs. -/
def Optimal (ctx : Context α) (sentence : List Token) (live : Label → Span → Prop)
    (s : Search α) : Prop :=
  ∀ id it, s.Proves id it → live it.label it.span →
    ∀ d : Derivation α, d.Proper ctx sentence → d.label = it.label → d.span = it.span →
      Cost.le it.inside d.cost = true

/-- The best-first order: nothing that is queued is cheaper than what is proven. -/
def Rising (s : Search α) : Prop :=
  ∀ id it, s.Proves id it → ∀ e ∈ s.frontier.agenda.heap.entries, Cost.le it.total e.priority = true

structure Best (ctx : Context α) (sentence : List Token) (live : Label → Span → Prop)
    (s : Search α) : Prop where
  ordered : s.frontier.agenda.heap.Ordered
  spelled : s.Spelled ctx sentence
  optimal : s.Optimal ctx sentence live
  rising : s.Rising

/-- What is proven costs in total no more than what is popped. -/
theorem Best.le_of_pops {p : Problem α} {source : Item α → Prop} (hbest : s.Best ctx sentence live)
    (hs : s.Sound p source) (hpop : s.Pops e it t) {id : Nat} {x : Item α} (hx : s.Proves id x) :
    Cost.le x.total it.total = true := by
  rw [(hpop.queued hs).2.1]
  exact hbest.rising id x hx e (Agenda.mem_of_pop hpop.agenda)

/-- An item with the label and the span of the derivation is proven. -/
def Reaches (s : Search α) (d : Derivation α) : Prop :=
  ∃ id it, s.Proves id it ∧ it.label = d.label ∧ it.span = d.span

/-- A proven child is as cheap as its derivation, or nothing exceeds the total of the parent
anyway. -/
theorem Optimal.inside_le [OrderedCost α] (ho : s.Optimal ctx sentence live)
    (hsteady : Steady ctx sentence live) {child : Derivation α} (hd : d.Proper ctx sentence)
    (hmem : child ∈ d.children) (hchild : child.Proper ctx sentence) {id : Nat}
    (hit : s.Proves id it) (hl : it.label = child.label) (hspan : it.span = child.span) :
    Cost.le it.inside child.cost = true ∨ ∀ y, Cost.le y (d.total ctx sentence) = true := by
  by_cases hlive : live child.label child.span
  · left
    refine ho id it hit ?_ child hchild hl.symm hspan.symm
    rw [hl, hspan]
    exact hlive
  · right
    intro y
    exact OrderedCost.le_trans (hsteady.dead child hchild hlive y) (hsteady.rises d hd child hmem)

section Frontier

variable [OrderedCost α] (h : ctx.Takes sentence) (hlen : sentence.length ≤ maxSentence)
  (hs : s.Sound (q.posed ctx tracing sentence) (Seeded ctx sentence))
  (hc : s.Complete (q.posed ctx tracing sentence) (Seeded ctx sentence)
    fun a b => Cost.le a b = true)

include h hlen hs hc

theorem exists_queued_of_founded (hmiss : ¬ s.Reaches d)
    (hit : Founded (q.posed ctx tracing sentence) (Seeded ctx sentence) s.Proves it)
    (hl : it.label = d.label) (hspan : it.span = d.span)
    (hle : Cost.le it.total (d.total ctx sentence) = true) :
    ∃ e ∈ s.frontier.agenda.heap.entries, Cost.le e.priority (d.total ctx sentence) = true := by
  have hp := Parser.posed_posed q tracing h hlen
  rcases hc it hit with hcontains | ⟨e, he, -, hr⟩
  · have hfit := hp.grounded.fits_of_founded (fun n x hx => (hs.proven n x hx).1) hit
    obtain ⟨id, x, hx, hxl, hxs⟩ := hs.exists_proves hp hfit hcontains
    exact absurd ⟨id, x, hx, hxl.trans hl, hxs.trans hspan⟩ hmiss
  · exact ⟨e, he, OrderedCost.le_trans hr hle⟩

/-- Of every derivation that is not proven there is a node on the frontier, whose total is no more
than that of the derivation. -/
theorem exists_queued (hsteady : Steady ctx sentence live) (ho : s.Optimal ctx sentence live)
    (hd : d.Proper ctx sentence) (hmiss : ¬ s.Reaches d) :
    ∃ e ∈ s.frontier.agenda.heap.entries, Cost.le e.priority (d.total ctx sentence) = true := by
  induction hd with
  | @leaf i t x ht hx =>
      obtain rfl := lexicalCost_iff.mp hx
      exact exists_queued_of_founded h hlen hs hc hmiss (.inl ⟨i, t, ht, rfl⟩) rfl rfl
        (Cost.le_refl _)
  | @unary c d s' hclause hr hd hl hj ih =>
      have hnode := Derivation.Proper.unary hclause hr hd hl hj
      by_cases hproven : s.Reaches d
      · obtain ⟨id, b, hb, hbl, hbs⟩ := hproven
        refine exists_queued_of_founded h hlen hs hc hmiss
          (.inr ⟨_, .unary hclause hr hb (hbl.trans hl) (hbs ▸ hj), rfl⟩) rfl rfl ?_
        rcases ho.inside_le hsteady hnode List.mem_cons_self hd hb hbl hbs with hle | htop
        · exact OrderedCost.add_le_add_right _ (OrderedCost.add_le_add_right _ hle)
        · exact htop _
      · obtain ⟨e, he, hle⟩ := ih hproven
        exact ⟨e, he, OrderedCost.le_trans hle (hsteady.rises _ hnode d List.mem_cons_self)⟩
  | @binary c r d d' s' hclause hr hd hl hd' hl' hj ih ih' =>
      have hnode := Derivation.Proper.binary hclause hr hd hl hd' hl' hj
      have hmem' : d' ∈ [d, d'] := List.mem_cons_of_mem _ List.mem_cons_self
      by_cases hproven : s.Reaches d
      swap
      · obtain ⟨e, he, hle⟩ := ih hproven
        exact ⟨e, he, OrderedCost.le_trans hle (hsteady.rises _ hnode d List.mem_cons_self)⟩
      by_cases hproven' : s.Reaches d'
      swap
      · obtain ⟨e, he, hle⟩ := ih' hproven'
        exact ⟨e, he, OrderedCost.le_trans hle (hsteady.rises _ hnode d' hmem')⟩
      obtain ⟨id, b, hb, hbl, hbs⟩ := hproven
      obtain ⟨id', b', hb', hbl', hbs'⟩ := hproven'
      refine exists_queued_of_founded h hlen hs hc hmiss
        (.inr ⟨_, .binary hclause hr hb (hbl.trans hl) hb' (hbl'.trans hl') (hbs ▸ hbs' ▸ hj), rfl⟩)
        rfl rfl ?_
      rcases ho.inside_le hsteady hnode List.mem_cons_self hd hb hbl hbs with hle | htop
      · rcases ho.inside_le hsteady hnode hmem' hd' hb' hbl' hbs' with hle' | htop
        · exact OrderedCost.add_le_add_right _
            (OrderedCost.add_le_add_right _ (Cost.add_le_add hle hle'))
        · exact htop _
      · exact htop _

/-- The total of the item that is popped is no more than that of any derivation of it. -/
theorem Pops.total_le (hsteady : Steady ctx sentence live) (hbest : s.Best ctx sentence live)
    (hpop : s.Pops e it t) (hd : d.Proper ctx sentence) (hl : d.label = it.label)
    (hspan : d.span = it.span) : Cost.le it.total (d.total ctx sentence) = true := by
  have hmiss : ¬ s.Reaches d := by
    rintro ⟨id, x, hx, hxl, hxs⟩
    have hkey : x.key = it.key := by
      simp only [Item.key]
      rw [hxl, hxs, hl, hspan]
    have hfound := hx.1
    rw [hkey, (hpop.queued hs).2.2.2] at hfound
    cases hfound
  obtain ⟨e', he', hle⟩ := exists_queued h hlen hs hc hsteady hbest.optimal hd hmiss
  rw [(hpop.queued hs).2.1]
  exact OrderedCost.le_trans (Agenda.pop_le hbest.ordered hpop.agenda he') hle

/-- The state in which the item is proven, before it is combined. -/
theorem Best.pops (hsteady : Steady ctx sentence live) (hbest : s.Best ctx sentence live)
    (hpop : s.Pops e it t) :
    t.Best ctx sentence live ∧ ∀ id x, t.Proves id x → Cost.le x.total it.total = true := by
  obtain ⟨-, htotal, hfounded, -⟩ := hpop.queued hs
  have hlast : ∀ id x, t.Proves id x → Cost.le x.total it.total = true := by
    intro id x hx
    rcases (hpop.proves_iff hs id x).mp hx with hold | ⟨-, rfl⟩
    · exact hbest.le_of_pops hs hpop hold
    · exact Cost.le_refl _
  refine ⟨⟨?_, hbest.spelled.pops rfl hs hpop, ?_, ?_⟩, hlast⟩
  · exact Agenda.ordered_pop hbest.ordered hpop.agenda
  · intro id x hx hlive d hd hl hspan
    rcases (hpop.proves_iff hs id x).mp hx with hold | ⟨-, rfl⟩
    · exact hbest.optimal id x hold hlive d hd hl hspan
    · have hle := hpop.total_le h hlen hs hc hsteady hbest hd hl hspan
      rw [total_eq hfounded] at hle
      simp only [Derivation.total] at hle
      rw [hl, hspan] at hle
      exact hsteady.cancels hlive hle
  · intro id x hx e' he'
    obtain ⟨he', -⟩ := (Agenda.mem_pop_iff hs.frontier.indexed hpop.agenda e').mp he'
    apply OrderedCost.le_trans (hlast id x hx)
    rw [htotal]
    exact Agenda.pop_le hbest.ordered hpop.agenda he'

end Frontier

/-- A proposal costs in total no less than the items that it is made from. -/
theorem total_le_of_extends (hsteady : Steady ctx sentence live)
    (hspelled : t.Spelled ctx sentence) {id : Nat} (hit : t.Proves id it)
    (htotal : it.total = Cost.add it.inside (ctx.heuristic it.label it.span sentence.length))
    {x : Proposal α} (hx : Proposal.Extends ctx.grammar t.Proves id it x) :
    Cost.le it.total (x.item (q.posed ctx tracing sentence)).total = true := by
  obtain ⟨d, -, hd, hl, hspan, hcost⟩ := hspelled id it hit
  have hdtotal : d.total ctx sentence = it.total := by
    simp only [Derivation.total]
    rw [hl, hspan, hcost, htotal]
  rw [← hdtotal]
  cases hx with
  | unary hc hr hil hj =>
      have hrises := hsteady.rises _ (.unary hc hr hd (hl.trans hil) (hspan ▸ hj)) d
        List.mem_cons_self
      simp only [Derivation.total, Derivation.cost] at hrises ⊢
      rw [← hcost]
      exact hrises
  | @left c r n b s hc hr hil hb hbl hj =>
      obtain ⟨d', -, hd', hl', hspan', hcost'⟩ := hspelled n b hb
      have hrises := hsteady.rises _ (.binary hc hr hd (hl.trans hil) hd' (hl'.trans hbl)
        (hspan ▸ hspan' ▸ hj)) d List.mem_cons_self
      simp only [Derivation.total, Derivation.cost] at hrises ⊢
      rw [← hcost, ← hcost']
      exact hrises
  | @right c n b s hc hr hb hbl hj =>
      obtain ⟨d', -, hd', hl', hspan', hcost'⟩ := hspelled n b hb
      have hrises := hsteady.rises _ (.binary hc hr hd' (hl'.trans hbl) hd hl
        (hspan ▸ hspan' ▸ hj)) d (List.mem_cons_of_mem _ List.mem_cons_self)
      simp only [Derivation.total, Derivation.cost] at hrises ⊢
      rw [← hcost, ← hcost']
      exact hrises

theorem preserves_best [OrderedCost α] (h : ctx.Takes sentence)
    (hlen : sentence.length ≤ maxSentence) (hsteady : Steady ctx sentence live) :
    Preserves (q.posed ctx tracing sentence) (Seeded ctx sentence)
      (fun a b => Cost.le a b = true) (Best ctx sentence live) := by
  intro s e it t u hs hc hbest hpop hgoal hcombined
  obtain ⟨hpopped, hlast⟩ := hbest.pops h hlen hs hc hsteady hpop
  have hfounded := (hpop.queued hs).2.2.1
  refine ⟨hcombined.ordered inferInstance hpopped.ordered, ?_, ?_, ?_⟩
  · exact preserves_spelled _ _ rfl s e it t u hs hc hbest.spelled hpop hgoal hcombined
  · exact fun id x hx => hpopped.optimal id x ((hcombined.proves id x).mp hx)
  · intro id x hx e' he'
    have hx := (hcombined.proves id x).mp hx
    rcases hcombined.only e' he' with he' | ⟨y, hy, hpriority⟩
    · exact hpopped.rising id x hx e' he'
    · rw [hpriority]
      exact OrderedCost.le_trans (hlast id x hx) (total_le_of_extends hsteady hpopped.spelled
        (hpop.proves_item hs) (total_eq hfounded) hy)

end Search

namespace Parser

variable {q : Parser α} {tracing : Bool} {live : Label → Span → Prop}

/-- Items of the chart cost what a derivation of theirs costs, and no derivation of a live item
costs less. -/
structure Solves (ctx : Context α) (sentence : List Token) (live : Label → Span → Prop)
    (q : Parser α) : Prop where
  attained : ∀ it, q.Charts it → ∃ d : Derivation α, d.Proper ctx sentence ∧
    d.label = it.label ∧ d.span = it.span ∧ d.cost = it.inside
  minimal : ∀ it, q.Charts it → live it.label it.span →
    ∀ d : Derivation α, d.Proper ctx sentence → d.label = it.label → d.span = it.span →
      Cost.le it.inside d.cost = true

theorem begun_best [OrderedCost α] : (q.begun ctx tracing sentence).Best ctx sentence live :=
  ⟨begun_ordered, fun n x hx => absurd hx (begun_proves n x),
    fun n x hx => absurd hx (begun_proves n x), fun n x hx => absurd hx (begun_proves n x)⟩

theorem solves_ended {t u : Search α} {state : ParserState} {goal : Option Nat}
    (hs : t.Sound (q.posed ctx tracing sentence) (Seeded ctx sentence))
    (hbest : t.Best ctx sentence live) (ha : t.Alike u) :
    Solves ctx sentence live (q.ended tracing sentence u state goal) := by
  have hproves : ∀ it, (q.ended tracing sentence u state goal).Charts it →
      ∃ id, t.Proves id it := by
    intro it hit
    have hagrees : u.chart.Agrees u.frontier.arena := by
      rw [ha.1, ha.2]
      exact hs.frontier.agrees
    rw [← ha.proves]
    exact (charts_iff hagrees).mp hit
  constructor
  · intro it hit
    obtain ⟨id, hid⟩ := hproves it hit
    obtain ⟨d, -, hd⟩ := hbest.spelled id it hid
    exact ⟨d, hd⟩
  · intro it hit
    obtain ⟨id, hid⟩ := hproves it hit
    exact hbest.optimal id it hid

/-- A parser with steady estimates ends with a solved chart. If it succeeds, no item of the chart
has a greater total than the goal. -/
theorem solves_parse [OrderedCost α] (q : Parser α) (tracing : Bool) (h : ctx.Takes sentence)
    (hpos : 1 ≤ sentence.length) (hlen : sentence.length ≤ maxSentence)
    (hpops : q.options.maxPops ≤ 0) (hsteady : Steady ctx sentence live) :
    Solves ctx sentence live (q.reset.parse ctx tracing sentence).1 ∧
      ((q.reset.parse ctx tracing sentence).1.state = .exhausted ∨
        ∃ success it, (q.reset.parse ctx tracing sentence).2 = .ok (some success) ∧
          (q.reset.parse ctx tracing sentence).1.state = .succeeded ∧
          (q.reset.parse ctx tracing sentence).1.Charts it ∧ it.label = ctx.grammar.start ∧
          it.span = .one 0 sentence.length ∧ it.inside = success.cost ∧
          ∀ x, (q.reset.parse ctx tracing sentence).1.Charts x → Cost.le
            (Cost.add x.inside (ctx.heuristic x.label x.span sentence.length))
            (Cost.add it.inside (ctx.heuristic it.label it.span sentence.length)) = true) := by
  obtain ⟨t, hs, hc, hbest, ⟨-, u, ha, heq⟩ | ⟨hmax, -⟩ | ⟨e, it, v, u, hpop, hgoal, ha, heq⟩⟩ :=
    parse_cases gauge_le h hpos hlen (Search.preserves_best h hlen hsteady) begun_best
  · rw [heq]
    exact ⟨solves_ended hs hbest ha, .inl rfl⟩
  · omega
  · have hp := posed_posed q tracing h hlen
    have hsv := hpop.sound hs hp
    obtain ⟨hpopped, hlast⟩ := hbest.pops h hlen hs hc hsteady hpop
    have hagrees : u.chart.Agrees u.frontier.arena := by
      rw [ha.1, ha.2]
      exact hsv.frontier.agrees
    have htotal : ∀ id x, v.Proves id x →
        x.total = Cost.add x.inside (ctx.heuristic x.label x.span sentence.length) := fun id x hx =>
      Search.total_eq (hsv.proven id x hx).2
    obtain ⟨hstart, hwhole⟩ := (Search.isGoal_iff it).mp hgoal
    rw [heq]
    refine ⟨solves_ended hsv hpopped ha, .inr ⟨_, it, rfl, rfl, ?_, hstart, hwhole, rfl, ?_⟩⟩
    · exact (charts_iff hagrees).mpr ⟨e.value, ha.proves ▸ hpop.proves_item hs⟩
    · intro x hx
      obtain ⟨id, hid⟩ := (charts_iff hagrees).mp hx
      have hid : v.Proves id x := ha.proves ▸ hid
      rw [← htotal id x hid, ← htotal e.value it (hpop.proves_item hs)]
      exact hlast id x hid

end Parser

end Discontinuous
