import Discontinuous.Proofs.Cheapest

/-!
Outside estimates against derivations of whole sentences. No node of a derivation is estimated to
cost more to complete than it does, and along every edge the estimate falls by no more than what
the clause and the sibling cost. The second makes the first: estimates are passed down from the
goal, where nothing is left to pay.
-/
namespace Discontinuous

/-- All covered positions are listed. -/
theorem Span.Valid.length_positions {s : Span} (hs : s.Valid) :
    (s.positions.length : Int) = s.extent := by
  obtain ⟨h0, h1, h2⟩ := hs
  simp only [positions, extent, range]
  split
  · simp
    omega
  · rw [if_neg (by assumption)] at h2
    simp
    omega

namespace Derivation

variable {α : Type}

/-- The nodes of a derivation, each with all that is below it. -/
inductive IsNodeOf : Derivation α → Derivation α → Prop where
  | root (d : Derivation α) : IsNodeOf d d
  | inner {e child d : Derivation α} : child ∈ d.children → IsNodeOf e child → IsNodeOf e d

variable [Cost α] {ctx : Context α} {sentence : List Token} {d e : Derivation α}

theorem IsNodeOf.proper (h : e.IsNodeOf d) (hd : d.Proper ctx sentence) :
    e.Proper ctx sentence := by
  induction h with
  | root => exact hd
  | inner hmem _ ih => exact ih (hd.of_mem_children hmem)

/-- Totals rise from every node up to the root. -/
theorem IsNodeOf.total_le [OrderedCost α] {live : Label → Span → Prop}
    (hsteady : Steady ctx sentence live) (h : e.IsNodeOf d) (hd : d.Proper ctx sentence) :
    Cost.le (e.total ctx sentence) (d.total ctx sentence) = true := by
  induction h with
  | root => exact Cost.le_refl _
  | @inner child d hmem _ ih =>
      have hchild := ih (hd.of_mem_children hmem)
      exact OrderedCost.le_trans hchild (hsteady.rises d hd child hmem)

end Derivation

variable {ctx : Context Price} {sentence : List Token} {kind : EstimateKind} {maxlen : Int}

/-- What is below a node and what is estimated to come cost no more than the whole derivation. -/
theorem Guides.lookup_add_cost_le {inside : Table Price} {scheme : Scheme}
    {signature : Span → UInt64} {o : Outside Price}
    (h : Guides ctx sentence inside scheme signature o) (hpos : 1 ≤ sentence.length)
    {d e : Derivation Price} (hd : d.Whole ctx sentence) (he : e.IsNodeOf d) :
    o.lookup e.label sentence.length e.span.positions.length + e.cost ≤ d.cost := by
  obtain ⟨hproper, hlabel, hspan⟩ := hd
  have hnode := he.proper hproper
  have hlength := (hnode.within h.built).1.length_positions
  -- the total of the whole is its cost, for nothing is to come at the goal
  have htotal := he.total_le h.steady hproper
  simp only [Derivation.total] at htotal
  rw [hlabel, hspan, h.heuristic_start hpos, Cost.add_zero, h.heuristic_eq hnode, ← hlength,
    Int.toNat_natCast, Price.le_iff] at htotal
  rw [add_comm]
  exact htotal

namespace Outside

/-- Outside estimates guide a search through every sentence within their horizon. -/
theorem exists_guides {o : Outside Price} {events : List (Event Price)} (hb : ctx.Built)
    (htags : ∀ t ∈ sentence, ctx.grammar.isPreterminal t.tag = true)
    (hbuild : Estimates.build ctx.grammar kind maxlen = .ok (.outside o, events))
    (hlen : (sentence.length : Int) ≤ maxlen) (hbound : sentence.length < Word.bound) :
    ∃ inside scheme signature,
      Guides { ctx with heuristic := (Estimates.outside o).heuristic } sentence inside scheme
        signature o := by
  rcases Estimates.build_cases hb.grammar hbuild with hzero |
    ⟨inside, scheme, signature, htable, hmaxlen, hfits, hscheme, heq⟩
  · cases hzero
  · cases heq
    exact ⟨inside, scheme, signature, hb, htags, hbound, hmaxlen ▸ hlen, htable,
      hscheme _ hbound, closed_estimate hb.grammar hfits htable.admitted, rfl⟩

/-- Outside estimates are admissible at every node of a derivation of the whole sentence, and
consistent along every edge of it. -/
theorem admissible_and_consistent (ctx : Context Price) (sentence : List Token)
    (kind : EstimateKind) (maxlen : Int) (o : Outside Price) (events : List (Event Price))
    (hb : ctx.Built) (hbuild : Estimates.build ctx.grammar kind maxlen = .ok (.outside o, events))
    (hpos : 1 ≤ sentence.length) (hlen : (sentence.length : Int) ≤ maxlen)
    (hbound : sentence.length < Word.bound)
    (htags : ∀ t ∈ sentence, ctx.grammar.isPreterminal t.tag = true)
    (d : Derivation Price) (hd : d.Whole ctx sentence) (e : Derivation Price)
    (he : e.IsNodeOf d) :
    o.lookup e.label sentence.length e.span.positions.length + e.cost ≤ d.cost ∧
      ∀ child ∈ e.children,
        (∃ c x, e.MadeBy ctx.grammar c child x ∧ e.cost = child.cost + x + c.cost) ∧
        ∀ c x, e.MadeBy ctx.grammar c child x →
          (Estimates.outside o).heuristic child.label child.span sentence.length ≤
            (Estimates.outside o).heuristic e.label e.span sentence.length + c.cost + x := by
  obtain ⟨inside, scheme, signature, hguides⟩ := exists_guides hb htags hbuild hlen hbound
  have hd := (Derivation.whole_withHeuristic (Estimates.outside o).heuristic d).mpr hd
  have hnode := he.proper hd.1
  refine ⟨hguides.lookup_add_cost_le hpos hd he, ?_⟩
  intro child hchild
  refine ⟨hnode.exists_madeBy hchild, ?_⟩
  intro c x hmade
  exact (Price.le_iff _ _).mp (hguides.heuristic_le_of_madeBy hnode hmade)

/-- A node that goes around a `B` costs four, and two more are to come. -/
theorem admissible_and_consistent_gapped :
    ∃ o events, Estimates.build Parser.guided.grammar .bitset 4 = .ok (.outside o, events) ∧
      ∃ d e child : Derivation Price, d.Whole Parser.guided Parser.gappedSentence ∧
        e.IsNodeOf d ∧ e.cost = 4 ∧ d.cost = 6 ∧ o.lookup e.label 3 2 = 2 ∧
        o.lookup e.label 3 2 + e.cost ≤ d.cost ∧
        ∃ c x, e.MadeBy Parser.guided.grammar c child x ∧
          (Estimates.outside o).heuristic child.label child.span 3 ≤
            (Estimates.outside o).heuristic e.label e.span 3 + c.cost + x := by
  have hbuild : ∃ o events, Estimates.build Parser.guided.grammar .bitset 4 =
      .ok (.outside o, events) ∧ o.lookup ⟨4⟩ 3 2 = 2 := by
    obtain ⟨events, hbuild⟩ := Parser.guided_build
    exact ⟨_, events, hbuild, by decide +kernel⟩
  have hgap : ∃ c ∈ Parser.guided.grammar.clauses, c.lhs = ⟨4⟩ ∧ c.left = ⟨1⟩ ∧
      c.right = some ⟨3⟩ ∧ c.join.join (.one 0 1) (.one 2 3) = some (.two 0 1 2 3) ∧
      c.cost = 1 := by
    decide +kernel
  have hfill : ∃ c ∈ Parser.guided.grammar.clauses, c.lhs = ⟨0⟩ ∧ c.left = ⟨4⟩ ∧
      c.right = some ⟨2⟩ ∧ c.join.join (.two 0 1 2 3) (.one 1 2) = some (.one 0 3) ∧
      c.cost = 2 := by
    decide +kernel
  have hfirst : LexicalCost Parser.guided.lexicon ⟨some 0, ⟨1⟩⟩ 3 :=
    .listed rfl rfl (by decide +kernel)
  have hunknown : ∀ l, LexicalCost Parser.guided.lexicon ⟨none, l⟩ Cost.zero := fun _ =>
    .unlisted nofun
  obtain ⟨o, events, hbuild, hlookup⟩ := hbuild
  obtain ⟨c, hc, hlhs, hleft, hright, hjoin, hcost⟩ := hgap
  obtain ⟨c', hc', hlhs', hleft', hright', hjoin', hcost'⟩ := hfill
  have hnode : Derivation.Proper Parser.guided Parser.gappedSentence _ := .binary hc hright
    (.leaf (i := 0) rfl hfirst) hleft.symm (.leaf (i := 2) rfl (hunknown _)) rfl hjoin
  have hroot := Derivation.Proper.binary hc' hright' hnode (hlhs.trans hleft'.symm)
    (.leaf (i := 1) rfl (hunknown _)) rfl hjoin'
  obtain ⟨hadmissible, hconsistent⟩ := admissible_and_consistent Parser.guided
    Parser.gappedSentence .bitset 4 o events Parser.gapped_takes.built hbuild (by decide)
    (by decide) (by decide) Parser.guided_gapped.preterminals _ ⟨hroot, hlhs', rfl⟩ _
    (.inner List.mem_cons_self (.root _))
  refine ⟨o, events, hbuild, _, _, _, ⟨hroot, hlhs', rfl⟩, .inner List.mem_cons_self (.root _),
    ?_, ?_, ?_, hadmissible, c, _, .left hc hright hleft.symm rfl hjoin,
    (hconsistent _ List.mem_cons_self).2 c _ (.left hc hright hleft.symm rfl hjoin)⟩
  · simp only [Derivation.cost]
    rw [hcost]
    decide +kernel
  · simp only [Derivation.cost]
    rw [hcost, hcost']
    decide +kernel
  · simp only [Derivation.label]
    rw [hlhs]
    exact hlookup

end Outside

end Discontinuous
