import Discontinuous.Proofs.Estimate

/-!
Guided parsers at rational costs. They find a cheapest derivation of the sentence, whichever
estimates guide them, and items of their charts cost what a cheapest derivation of theirs costs.
The exception are items with an infinite estimate in a chart without a goal: their totals tie, and
the first cost stays.
-/
namespace Discontinuous

variable {ctx : Context Price} {sentence : List Token} {kind : EstimateKind} {maxlen : Int}

/-- A derivation of the start symbol over the whole sentence. -/
def Derivation.Whole (ctx : Context Price) (sentence : List Token) (d : Derivation Price) : Prop :=
  d.Proper ctx sentence ∧ d.label = ctx.grammar.start ∧ d.span = .one 0 sentence.length

theorem Derivation.whole_withHeuristic (heuristic : Heuristic Price) (d : Derivation Price) :
    d.Whole { ctx with heuristic } sentence ↔ d.Whole ctx sentence := by
  constructor
  · rintro ⟨hd, hgoal⟩
    exact ⟨hd.withHeuristic ctx.heuristic, hgoal⟩
  · rintro ⟨hd, hgoal⟩
    exact ⟨hd.withHeuristic heuristic, hgoal⟩

namespace Parser

/-- The result of a search for a cheapest derivation. -/
def Cheapest (ctx : Context Price) (sentence : List Token)
    (result : Except (ParseError Price) (Option (Success Price))) : Prop :=
  (∃ success, result = .ok (some success) ∧
    (∃ d, Derivation.Whole ctx sentence d ∧ d.cost = success.cost) ∧
    ∀ d, Derivation.Whole ctx sentence d → success.cost ≤ d.cost) ∨
  (result = .ok none ∧ ∀ d, ¬ Derivation.Whole ctx sentence d)

theorem cheapest_parse (q : Parser Price) (tracing : Bool) (h : ctx.Guided sentence kind maxlen)
    (hpos : 1 ≤ sentence.length) (hlen : sentence.length ≤ maxSentence)
    (hpops : q.options.maxPops ≤ 0) :
    Cheapest ctx sentence (q.reset.parse ctx tracing sentence).2 := by
  obtain ⟨hsteady, hgoal⟩ := h.steady hpos hlen
  obtain ⟨hsolves, hstate | ⟨success, it, hresult, -, hit, hl, hs, hcost, -⟩⟩ :=
    solves_parse q tracing h.takes hpos hlen hpops hsteady
  · rcases recognizes_parse q tracing h.takes hpos hlen hpops with
      ⟨-, hresult, -, hnone⟩ | ⟨hdone, -⟩
    · exact .inr ⟨hresult, fun d ⟨hd, hdl, hds⟩ => hnone (hdl ▸ hds ▸ hd.derivable)⟩
    · rw [hstate] at hdone
      cases hdone
  · left
    have hfinite : Cost.isInfinite (ctx.heuristic it.label it.span sentence.length) = false := by
      rw [hl, hs, hgoal]
      decide
    refine ⟨success, hresult, ?_, ?_⟩
    · obtain ⟨d, hd, hdl, hds, hdc⟩ := hsolves.attained it hit
      exact ⟨d, ⟨hd, hdl.trans hl, hds.trans hs⟩, hdc.trans hcost⟩
    · rintro d ⟨hd, hdl, hds⟩
      rw [← hcost, ← Price.le_iff]
      exact hsolves.minimal it hit hfinite d hd (hdl.trans hl.symm) (hds.trans hs.symm)

theorem Cheapest.unique {result result' : Except (ParseError Price) (Option (Success Price))}
    (h : Cheapest ctx sentence result) (h' : Cheapest ctx sentence result') :
    result.map (Option.map Success.cost) = result'.map (Option.map Success.cost) := by
  rcases h with ⟨success, rfl, ⟨d, hd, hdc⟩, hmin⟩ | ⟨rfl, hnone⟩
  · rcases h' with ⟨success', rfl, ⟨d', hd', hdc'⟩, hmin'⟩ | ⟨-, hnone'⟩
    · have hcost : success.cost = success'.cost :=
        le_antisymm (hdc' ▸ hmin d' hd') (hdc ▸ hmin' d hd)
      simp [Except.map, hcost]
    · exact absurd hd (hnone' d)
  · rcases h' with ⟨_, -, ⟨d', hd', -⟩, -⟩ | ⟨rfl, -⟩
    · exact absurd hd' (hnone d')
    · rfl

/-- Guided parsers find a cheapest derivation if there is one, at the same cost for all kinds of
estimates. -/
theorem guided_parse_cheapest (q : Parser Price) (ctx : Context Price) (tracing : Bool)
    (sentence : List Token) (kind : EstimateKind) (maxlen : Int)
    (h : ctx.Guided sentence kind maxlen) (hpos : 1 ≤ sentence.length)
    (hlen : sentence.length ≤ maxSentence) (hpops : q.options.maxPops ≤ 0) :
    Cheapest ctx sentence (q.reset.parse ctx tracing sentence).2 ∧
      ∀ (q' : Parser Price) (heuristic : Heuristic Price) (tracing' : Bool) (kind' : EstimateKind)
        (maxlen' : Int), { ctx with heuristic }.Guided sentence kind' maxlen' →
        q'.options.maxPops ≤ 0 →
        (q'.reset.parse { ctx with heuristic } tracing' sentence).2.map (Option.map Success.cost) =
          (q.reset.parse ctx tracing sentence).2.map (Option.map Success.cost) := by
  have hcheapest := cheapest_parse q tracing h hpos hlen hpops
  refine ⟨hcheapest, ?_⟩
  intro q' heuristic tracing' kind' maxlen' h' hpops'
  have hcheapest' := cheapest_parse q' tracing' h' hpos hlen hpops'
  simp only [Cheapest, Derivation.whole_withHeuristic] at hcheapest'
  exact Cheapest.unique hcheapest' hcheapest

/-- The gapped language with estimates by patterns, shorter than the sentence they guide. -/
def guided : Context Price :=
  { gapped with
    heuristic := (Estimates.outside (Outside.estimate gapped.grammar
      (Table.fill gapped.grammar (.patterns 4)).1).1).heuristic }

theorem guided_build : ∃ events, Estimates.build guided.grammar .bitset 4 =
    .ok (.outside (Outside.estimate gapped.grammar
      (Table.fill gapped.grammar (.patterns 4)).1).1, events) := by
  obtain ⟨_, hestimate⟩ :=
    Table.estimate_bitset (g := gapped.grammar) (show (1 : Int) ≤ 4 by decide) (by decide)
  exact Estimates.build_of_fits hestimate nofun (by decide +kernel)

theorem guided_gapped : guided.Guided gappedSentence .bitset 4 := by
  obtain ⟨events, hbuild⟩ := guided_build
  refine ⟨gapped_takes.built, gapped_takes.labels, ?_, _, events, hbuild, rfl⟩
  decide +kernel

/-- Half of the cost is the lexical cost of the first token. -/
theorem guided_parse_cheapest_gapped :
    guided.Guided gappedSentence .bitset 4 ∧ 1 ≤ gappedSentence.length ∧
      gappedSentence.length ≤ maxSentence ∧ unbounded.options.maxPops ≤ 0 ∧
      LexicalCost guided.lexicon ⟨some 0, ⟨1⟩⟩ 3 ∧
      (∃ d, Derivation.Whole guided gappedSentence d ∧ d.cost = 6) ∧
      (∀ d, Derivation.Whole guided gappedSentence d → 6 ≤ d.cost) ∧
      ∃ success, (unbounded.reset.parse guided false gappedSentence).2 = .ok (some success) ∧
        success.cost = 6 := by
  have hsix : ((unbounded.reset.parse guided false gappedSentence).2.toOption.map
      (Option.map Success.cost)) = some (some 6) := by
    decide +kernel
  obtain ⟨success, hresult, hattained, hminimal⟩ | ⟨hresult, -⟩ :=
    (guided_parse_cheapest unbounded guided false gappedSentence .bitset 4 guided_gapped
      (by decide) (by decide) (by decide)).1
  · rw [hresult] at hsix
    have hcost : success.cost = 6 := by simpa [Except.toOption] using hsix
    rw [hcost] at hattained hminimal
    exact ⟨guided_gapped, by decide, by decide, by decide, .listed rfl rfl (by decide +kernel),
      hattained, hminimal, success, hresult, hcost⟩
  · rw [hresult] at hsix
    cases hsix

end Parser

/-- No clause and no entry has an infinite cost. -/
structure Context.Finite (ctx : Context Price) : Prop where
  clauses : ∀ c ∈ ctx.grammar.clauses, c.cost ≠ ⊤
  entries : ∀ lex, ctx.lexicon = some lex → ∀ (t : Tagging) (x : Price),
    lex.costs[t]? = some x → x ≠ ⊤

theorem Derivation.Proper.cost_ne_top {d : Derivation Price} (hf : ctx.Finite)
    (hd : d.Proper ctx sentence) : d.cost ≠ ⊤ := by
  induction hd with
  | leaf _ hx =>
      cases hx with
      | listed hlex _ hx =>
          rw [Lexicon.cost?, Std.TreeMap.get?_eq_getElem?] at hx
          exact hf.entries _ hlex _ _ hx
      | unlisted _ => exact WithTop.zero_ne_top
  | unary hc _ _ _ _ ih => exact WithTop.add_ne_top.mpr ⟨ih, hf.clauses _ hc⟩
  | binary hc _ _ _ _ _ _ ih ih' =>
      exact WithTop.add_ne_top.mpr ⟨WithTop.add_ne_top.mpr ⟨ih, ih'⟩, hf.clauses _ hc⟩

namespace Parser

/-- Items of a chart with a goal cost what a cheapest derivation of theirs costs, and so do items
of any chart that are not estimated to lead nowhere. -/
theorem guided_chart_minimal (q : Parser Price) (ctx : Context Price) (tracing : Bool)
    (sentence : List Token) (kind : EstimateKind) (maxlen : Int)
    (h : ctx.Guided sentence kind maxlen) (hf : ctx.Finite) (hpos : 1 ≤ sentence.length)
    (hlen : sentence.length ≤ maxSentence) (hpops : q.options.maxPops ≤ 0) :
    ((q.reset.parse ctx tracing sentence).1.state = .succeeded ∨
        (q.reset.parse ctx tracing sentence).1.state = .exhausted) ∧
      ∀ it, (q.reset.parse ctx tracing sentence).1.Charts it →
        (∃ d : Derivation Price, d.Proper ctx sentence ∧ d.label = it.label ∧ d.span = it.span ∧
          d.cost = it.inside) ∧
        ((q.reset.parse ctx tracing sentence).1.state = .succeeded ∨
            ctx.heuristic it.label it.span sentence.length ≠ ⊤ →
          ∀ d : Derivation Price, d.Proper ctx sentence → d.label = it.label → d.span = it.span →
            it.inside ≤ d.cost) := by
  obtain ⟨hsteady, hgoal⟩ := h.steady hpos hlen
  obtain ⟨hsolves, hends⟩ := solves_parse q tracing h.takes hpos hlen hpops hsteady
  refine ⟨?_, fun it hit => ⟨hsolves.attained it hit, ?_⟩⟩
  · rcases hends with hstate | ⟨_, _, -, hstate, -⟩
    · exact .inr hstate
    · exact .inl hstate
  · intro hcase d hd hl hs
    have hfinite : ctx.heuristic it.label it.span sentence.length ≠ ⊤ := by
      rcases hcase with hdone | hfinite
      · rcases hends with hstate | ⟨success, goal, -, -, hcharts, hgl, hgs, -, hlast⟩
        · rw [hdone] at hstate
          cases hstate
        · -- the total of the goal is finite, and no other total is greater
          obtain ⟨d', hd', -, -, hcost⟩ := hsolves.attained goal hcharts
          have hle := (Price.le_iff _ _).mp (hlast it hit)
          rw [hgl, hgs, hgoal, Cost.add_zero] at hle
          intro htop
          rw [htop] at hle
          have htop' : goal.inside = ⊤ :=
            top_le_iff.mp (le_trans (le_of_eq (WithTop.add_top _).symm) hle)
          exact hd'.cost_ne_top hf (hcost.trans htop')
      · exact hfinite
    rw [← Price.le_iff]
    exact hsolves.minimal it hit ((Price.isInfinite_eq_false_iff _).mpr hfinite) d hd hl hs

theorem guided_finite : guided.Finite where
  clauses := by decide +kernel
  entries := fun lex hlex t x hx => by
    obtain rfl := Option.some.inj hlex
    have hvalues : ∀ x ∈ (Language.ofEdits "S" gappedEdits).lexicon.costs.values, x ≠ ⊤ := by
      decide +kernel
    exact hvalues x ((Map.mem_values _ x).mpr ⟨t, hx⟩)

theorem guided_chart_minimal_gapped :
    guided.Guided gappedSentence .bitset 4 ∧ guided.Finite ∧ 1 ≤ gappedSentence.length ∧
      gappedSentence.length ≤ maxSentence ∧ unbounded.options.maxPops ≤ 0 ∧
      (unbounded.reset.parse guided false gappedSentence).1.state = .succeeded ∧
      LexicalCost guided.lexicon ⟨some 0, ⟨1⟩⟩ 3 ∧
      (∃ it, (unbounded.reset.parse guided false gappedSentence).1.Charts it ∧
        it.label = ⟨4⟩ ∧ it.span = .two 0 1 2 3 ∧ it.inside = 4) ∧
      ∀ it, (unbounded.reset.parse guided false gappedSentence).1.Charts it →
        ∀ d : Derivation Price, d.Proper guided gappedSentence → d.label = it.label →
          d.span = it.span → it.inside ≤ d.cost := by
  have hdone : (unbounded.reset.parse guided false gappedSentence).1.state = .succeeded := by
    decide +kernel
  refine ⟨guided_gapped, guided_finite, by decide, by decide, by decide, hdone,
    .listed rfl rfl (by decide +kernel), ?_, ?_⟩
  · exact exists_charts 3 (by decide +kernel) (by decide +kernel)
  intro it hit
  exact ((guided_chart_minimal unbounded guided false gappedSentence .bitset 4 guided_gapped
    guided_finite (by decide) (by decide) (by decide)).2 it hit).2 (.inl hdone)

def strayingEdits : List (Edit Price) :=
  [.preterminal "T", .clause "B" "T" none [[.left]] 1, .clause "X" "T" none [[.left]] 5,
    .clause "X" "B" none [[.left]] 1]

/-- Nothing leads from `T` to `S`, and `X` is cheaper by way of `B`. -/
def straying : Context Price where
  grammar := (Language.ofEdits "S" strayingEdits).grammar
  lexicon := none
  heuristic := (Estimates.outside (Outside.estimate (Language.ofEdits "S" strayingEdits).grammar
    (Table.fill (Language.ofEdits "S" strayingEdits).grammar (.lengths 3)).1).1).heuristic

theorem straying_guided : straying.Guided [⟨none, ⟨1⟩⟩] .length 3 := by
  obtain ⟨_, hestimate⟩ :=
    Table.estimate_length (g := straying.grammar) (show (1 : Int) ≤ 3 by decide)
  obtain ⟨events, hbuild⟩ := Estimates.build_of_fits hestimate nofun (by decide +kernel)
  refine ⟨⟨inferInstance, "S", strayingEdits, rfl, fun lex hlex => nomatch hlex⟩, ?_, ?_, _, events, hbuild, rfl⟩
  · decide +kernel
  · decide +kernel

theorem straying_finite : straying.Finite where
  clauses := by decide +kernel
  entries := fun lex hlex => nomatch hlex

/-- The cost at which an item was first proposed stays in the chart if nothing leads to a goal. -/
theorem straying_chart_not_minimal :
    straying.Guided [⟨none, ⟨1⟩⟩] .length 3 ∧ straying.Finite ∧
      (unbounded.reset.parse straying false [⟨none, ⟨1⟩⟩]).1.state = .exhausted ∧
      ∃ it, (unbounded.reset.parse straying false [⟨none, ⟨1⟩⟩]).1.Charts it ∧
        ∃ d : Derivation Price, d.Proper straying [⟨none, ⟨1⟩⟩] ∧ d.label = it.label ∧
          d.span = it.span ∧ d.cost < it.inside := by
  have hid : 2 ∈ (unbounded.reset.parse straying false
      [⟨none, ⟨1⟩⟩]).1.search.chart.items.values := by
    decide +kernel
  have hitem : ((unbounded.reset.parse straying false
      [⟨none, ⟨1⟩⟩]).1.search.frontier.arena[2]?.map fun it => (it.label, it.span, it.inside)) =
      some (⟨3⟩, .one 0 1, 5) := by
    decide +kernel
  have hleaf : LexicalCost straying.lexicon ⟨none, ⟨1⟩⟩ Cost.zero := .unlisted nofun
  have hclause : ∃ c ∈ straying.grammar.clauses, c.lhs = ⟨2⟩ ∧ c.left = ⟨1⟩ ∧ c.right = none ∧
      c.join = .copyOne ∧ c.cost = 1 := by
    decide +kernel
  have hclause' : ∃ c ∈ straying.grammar.clauses, c.lhs = ⟨3⟩ ∧ c.left = ⟨2⟩ ∧ c.right = none ∧
      c.join = .copyOne ∧ c.cost = 1 := by
    decide +kernel
  obtain ⟨it, hit, hl, hs, hinside⟩ := exists_charts _ hid hitem
  obtain ⟨c, hc, hlhs, hleft, hright, hjoin, hcost⟩ := hclause
  obtain ⟨c', hc', hlhs', hleft', hright', hjoin', hcost'⟩ := hclause'
  refine ⟨straying_guided, straying_finite, by decide +kernel, it, hit, _,
    .unary hc' hright' (.unary hc hright (Derivation.Proper.leaf (i := 0) rfl hleaf) hleft.symm
      (s := .one 0 1) ?_) (hlhs.trans hleft'.symm) (s := .one 0 1) ?_, hlhs'.trans hl.symm,
    hs.symm, ?_⟩
  · rw [hjoin]
    rfl
  · rw [hjoin']
    rfl
  · rw [hinside]
    change Cost.add (Cost.add _ c.cost) c'.cost < _
    rw [hcost, hcost']
    decide +kernel

end Parser

end Discontinuous
