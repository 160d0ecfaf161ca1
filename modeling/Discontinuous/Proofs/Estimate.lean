import Discontinuous.Proofs.Optimality
import Discontinuous.Proofs.Outside

/-!
Estimates that are built for a grammar. Inside estimates are no more than the cost of any
derivation from pre-terminals, and so the totals of a search that is guided by outside estimates
never fall from a node of a derivation to its parent. Beyond the horizon nothing is estimated.
-/
namespace Discontinuous

variable {α : Type} [Cost α] {ctx : Context α} {sentence : List Token} {kind : EstimateKind}
  {maxlen : Int}

/-- What callers provide to a guided search: a grammar and a lexicon of theirs, a sentence tagged
with pre-terminals, and estimates for the grammar. -/
structure Context.Guided (ctx : Context α) (sentence : List Token) (kind : EstimateKind)
    (maxlen : Int) : Prop where
  built : ctx.Built
  labels : ctx.grammar.dict.size ≤ Key.labelLimit
  preterminals : ∀ t ∈ sentence, ctx.grammar.isPreterminal t.tag = true
  estimates : ∃ est events, Estimates.build ctx.grammar kind maxlen = .ok (est, events) ∧
    ctx.heuristic = est.heuristic

theorem Context.Guided.takes (h : ctx.Guided sentence kind maxlen) : ctx.Takes sentence :=
  ⟨h.built, h.labels, fun t ht => h.built.grammar.preterminal _ (h.preterminals t ht)⟩

theorem Derivation.Proper.within {d : Derivation α} (hb : ctx.Built)
    (hd : d.Proper ctx sentence) : d.span.Within sentence.length :=
  hd.derivable.within hb.grammar

/-- A sentence within the horizon of the estimates that guide a context. -/
structure Guides (ctx : Context α) (sentence : List Token) (inside : Table α) (scheme : Scheme)
    (signature : Span → UInt64) (o : Outside α) : Prop where
  built : ctx.Built
  preterminals : ∀ t ∈ sentence, ctx.grammar.isPreterminal t.tag = true
  length : sentence.length < Word.bound
  horizon : (sentence.length : Int) ≤ inside.maxlen
  table : Table.Closed ctx.grammar scheme inside
  scheme : scheme.Follows sentence.length signature
  outside : Outside.Closed ctx.grammar inside o
  heuristic : ctx.heuristic = (Estimates.outside o).heuristic

namespace Guides

variable {inside : Table α} {scheme : Scheme} {signature : Span → UInt64} {o : Outside α}
  {d : Derivation α} (h : Guides ctx sentence inside scheme signature o)

include h

/-- The cell of a derivation: its label, the length of the sentence and the positions covered. -/
theorem inRange (hd : d.Proper ctx sentence) :
    Outside.InRange ctx.grammar inside ⟨d.label, sentence.length, d.span.extent.toNat⟩ := by
  have hbounds := (hd.within h.built).extent_bounds
  refine ⟨?_, h.horizon, ?_, ?_⟩
  · cases hd with
    | leaf ht _ =>
        exact h.built.grammar.preterminal _ (h.preterminals _ (List.mem_of_getElem? ht))
    | unary hc _ _ _ _ => exact h.built.grammar.has_lhs hc
    | binary hc _ _ _ _ _ _ => exact h.built.grammar.has_lhs hc
  · dsimp only
    omega
  · dsimp only
    omega

theorem heuristic_eq (hd : d.Proper ctx sentence) :
    ctx.heuristic d.label d.span sentence.length =
      o.lookup d.label sentence.length d.span.extent.toNat := by
  have hwithin := hd.within h.built
  have hbounds := hwithin.extent_bounds
  rw [h.heuristic, Int.toNat_of_nonneg (by omega), ← hwithin.len_eq (Int.ofNat_lt.mpr h.length)]
  rfl

end Guides

variable [OrderedCost α]

namespace Table

variable {scheme : Scheme} {signature : Span → UInt64} {t : Table α}

/-- A derivation from pre-terminals costs no less than the entry of its label and signature. -/
theorem exists_entry_le (ht : t.Closed ctx.grammar scheme)
    (hsig : scheme.Follows sentence.length signature) (hb : ctx.Built)
    (htags : ∀ tok ∈ sentence, ctx.grammar.isPreterminal tok.tag = true) {d : Derivation α}
    (hd : d.Proper ctx sentence) (hle : d.span.extent ≤ (scheme.maxlen : Int)) :
    ∃ y : α, t.costs[(⟨d.label, signature d.span⟩ : TableKey)]? = some y ∧
      Cost.le y d.cost = true := by
  induction hd with
  | @leaf i tok x htok hx =>
      have hpre := Grammar.mem_preterminalList.mpr (htags tok (List.mem_of_getElem? htok))
      obtain ⟨y, hy, hyle⟩ := ht.least _ _ (.seed hpre)
      refine ⟨y, ?_, OrderedCost.le_trans hyle (Derivation.admitted_of_lexicalCost hb hx)⟩
      simp only [Derivation.span]
      rw [hsig.seed]
      exact hy
  | @unary c d s hc hr hd hl hj ih =>
      have hsame := JoinType.join_unary (hb.grammar.isUnary_eq_true hc hr) hj
      subst hsame
      obtain ⟨x, hx, hxle⟩ := ih hle
      rw [hl] at hx
      obtain ⟨y, hy, hyle⟩ := ht.least _ _ (.unary hc hr hx)
      exact ⟨y, hy, OrderedCost.le_trans hyle (OrderedCost.add_le_add_right _ hxle)⟩
  | @binary c r d d' s hc hr hd hl hd' hl' hj ih ih' =>
      have hu := hb.grammar.isUnary_eq_false hc hr
      have hw := hd.within hb
      have hw' := hd'.within hb
      have hsum := (JoinType.joined_of_join hu hj hw.1 hw'.1).extent
      have hbounds := hw.extent_bounds
      have hbounds' := hw'.extent_bounds
      have hle : s.extent ≤ (scheme.maxlen : Int) := hle
      obtain ⟨x, hx, hxle⟩ := ih (by omega)
      obtain ⟨x', hx', hxle'⟩ := ih' (by omega)
      rw [hl] at hx
      rw [hl'] at hx'
      have hjoin := hsig.join hu hw hw' hj hle
      rw [← hb.grammar.yield_eq hc] at hjoin
      obtain ⟨y, hy, hyle⟩ := ht.least _ _ (.binary hc hr hx hx' hjoin)
      exact ⟨y, hy, OrderedCost.le_trans hyle
        (OrderedCost.add_le_add_right _ (Cost.add_le_add hxle hxle'))⟩

theorem lookupLength_le (ht : t.Closed ctx.grammar scheme)
    (hsig : scheme.Follows sentence.length signature) (hb : ctx.Built)
    (htags : ∀ tok ∈ sentence, ctx.grammar.isPreterminal tok.tag = true) {d : Derivation α}
    (hd : d.Proper ctx sentence) (hle : d.span.extent ≤ (scheme.maxlen : Int)) :
    Cost.le (t.lookupLength d.label d.span.extent) d.cost = true := by
  obtain ⟨y, hy, hyle⟩ := exists_entry_le ht hsig hb htags hd hle
  have hlookup := ht.byLength_le _ _ hy
  rw [hsig.length (hd.within hb) hle] at hlookup
  exact OrderedCost.le_trans hlookup hyle

end Table

theorem Derivation.Proper.cost_le {d : Derivation α} (hb : ctx.Built) (hd : d.Proper ctx sentence)
    {c : Derivation α} (hc : c ∈ d.children) : Cost.le c.cost d.cost = true := by
  cases hd with
  | leaf _ _ => cases hc
  | unary hclause _ _ _ _ =>
      cases List.mem_singleton.mp hc
      exact OrderedCost.le_add_right _ (hb.grammar.clause _ hclause).cost
  | @binary c' r d d' s hclause _ hd _ hd' _ _ =>
      refine OrderedCost.le_trans ?_ (OrderedCost.le_add_right _ (hb.grammar.clause _ hclause).cost)
      rcases List.mem_cons.mp hc with rfl | hc
      · exact OrderedCost.le_add_right _ (hd'.admitted hb)
      · cases List.mem_singleton.mp hc
        exact OrderedCost.le_add_left _ (hd.admitted hb)

omit [OrderedCost α] in
/-- A search that nothing guides is steady, and everything is live in it. -/
theorem steady_of_zero [RoundedCost α] (hb : ctx.Built)
    (h : ∀ l s, ctx.heuristic l s sentence.length = Cost.zero) :
    Steady ctx sentence fun _ _ => True := by
  refine ⟨?_, ?_, fun d _ hdead => absurd trivial hdead⟩
  · intro d hd c hc
    simp only [Derivation.total]
    rw [h, h]
    exact OrderedCost.add_le_add_right _ (hd.cost_le hb hc)
  · intro l s x y _ hle
    rwa [h, Cost.add_zero, Cost.add_zero] at hle

namespace Guides

variable {inside : Table α} {scheme : Scheme} {signature : Span → UInt64} {o : Outside α}
  {d : Derivation α} (h : Guides ctx sentence inside scheme signature o)

include h

theorem lookupLength_le (hd : d.Proper ctx sentence) :
    Cost.le (inside.lookupLength d.label d.span.extent.toNat) d.cost = true := by
  have hbounds := (hd.within h.built).extent_bounds
  have hmaxlen := h.table.maxlen
  have hhorizon := h.horizon
  rw [Int.toNat_of_nonneg (by omega)]
  exact Table.lookupLength_le h.table h.scheme h.built h.preterminals hd (by omega)

omit [OrderedCost α] in
/-- How two children share the positions of their parent. -/
theorem shares {c : Clause α} {r : Label} {d' : Derivation α} {s : Span}
    (hc : c ∈ ctx.grammar.clauses) (hr : c.right = some r) (hd : d.Proper ctx sentence)
    (hd' : d'.Proper ctx sentence) (hj : c.join.join d.span d'.span = some s) :
    ctx.grammar.arity c.left ≤ d.span.extent.toNat ∧
      ctx.grammar.arity r ≤ d'.span.extent.toNat ∧
      d.span.extent.toNat + d'.span.extent.toNat = s.extent.toNat := by
  have hvalid := (hd.within h.built).1
  have hvalid' := (hd'.within h.built).1
  have hu := h.built.grammar.isUnary_eq_false hc hr
  obtain ⟨-, hleft⟩ := h.built.grammar.arity_left hc
  obtain ⟨-, hright⟩ := h.built.grammar.arity_right hc hr
  obtain ⟨harity, harity'⟩ := JoinType.arity_of_join hj
  have harity' := harity' (JoinType.childArity_right_ne_zero hu)
  have hle := hvalid.arity_le_extent
  have hle' := hvalid'.arity_le_extent
  have hsum := (JoinType.joined_of_join hu hj hvalid hvalid').extent
  omega

end Guides

section Exact

omit [OrderedCost α]

variable [ExactCost α] {inside : Table α} {scheme : Scheme} {signature : Span → UInt64}
  {o : Outside α}

/-- Estimates are off, or outside estimates from an inside table of some scheme. -/
theorem Estimates.build_cases {g : Grammar α} (hg : g.WellFormed) {est : Estimates α}
    {events : List (Event α)} (h : Estimates.build g kind maxlen = .ok (est, events)) :
    est = .zero ∨ ∃ inside scheme signature, Table.Closed g scheme inside ∧
      inside.maxlen = maxlen ∧ Cell.Fits g.dict.size inside.maxlen.toNat ∧
      (∀ n : Nat, n < Word.bound → scheme.Follows n signature) ∧
      est = .outside (Outside.estimate g inside).1 := by
  rcases build_ok h with rfl | ⟨inside, before, hinside, hfits, rfl⟩
  · exact .inl rfl
  right
  obtain ⟨scheme, hclosed, hmaxlen, rfl | ⟨hmax, rfl⟩⟩ := Table.closed_of_estimate hg hinside
  · exact ⟨_, _, _, hclosed, hmaxlen, hfits,
      fun n hn => Scheme.follows_lengths _ (Int.ofNat_lt.mpr hn), rfl⟩
  · exact ⟨_, _, _, hclosed, hmaxlen, hfits,
      fun n hn => Scheme.follows_patterns (by omega) (Int.ofNat_lt.mpr hn), rfl⟩

/-- What the estimate of a child is compared with. -/
theorem Guides.heuristic_le (h : Guides ctx sentence inside scheme signature o) {c : Clause α}
    {d child : Derivation α} {y : α} (hc : c ∈ ctx.grammar.clauses) (hd : d.Proper ctx sentence)
    (hl : d.label = c.lhs) (hchild : child.Proper ctx sentence)
    (hmem : ((⟨child.label, sentence.length, child.span.extent.toNat⟩ : Cell), y) ∈
      Outside.descend ctx.grammar inside ⟨d.label, sentence.length, d.span.extent.toNat⟩
        (ctx.heuristic d.label d.span sentence.length) c) :
    Cost.le (ctx.heuristic child.label child.span sentence.length) y = true := by
  rw [h.heuristic_eq hd] at hmem
  rw [h.heuristic_eq hchild]
  exact Outside.lookup_le_of_mem_descend h.outside h.built.grammar h.table.admitted hc hl.symm
    (h.inRange hd) (h.inRange hchild) hmem

/-- The sibling is no cheaper than what is estimated inside it. -/
theorem Guides.add_sibling_le (h : Guides ctx sentence inside scheme signature o)
    {sibling : Derivation α} (hsibling : sibling.Proper ctx sentence) {x y cost : α}
    (hle : Cost.le y (Cost.add (Cost.add x
      (inside.lookupLength sibling.label sibling.span.extent.toNat)) cost) = true) :
    Cost.le y (Cost.add (Cost.add x cost) sibling.cost) = true := by
  refine OrderedCost.le_trans hle (OrderedCost.le_trans (OrderedCost.add_le_add_right cost
    (OrderedCost.add_le_add_left x (h.lookupLength_le hsibling))) (Cost.le_of_eq ?_))
  ac_rfl

/-- The estimate of a child is no more than that of its parent, the clause and the sibling add up
to. -/
theorem Guides.heuristic_le_of_madeBy (h : Guides ctx sentence inside scheme signature o)
    {c : Clause α} {d child : Derivation α} {x : α} (hd : d.Proper ctx sentence)
    (hmade : d.MadeBy ctx.grammar c child x) :
    Cost.le (ctx.heuristic child.label child.span sentence.length)
      (Cost.add (Cost.add (ctx.heuristic d.label d.span sentence.length) c.cost) x) = true := by
  have hchild := hd.of_mem_children hmade.mem_children
  cases hmade with
  | only hc hr hl hj =>
      have hsame := JoinType.join_unary (h.built.grammar.isUnary_eq_true hc hr) hj
      rw [Cost.add_zero]
      exact h.heuristic_le hc hd rfl hchild
        (Outside.mem_descend.mpr (.inl ⟨hr, by rw [hl, ← hsame]; rfl, rfl⟩))
  | @left _ sibling r s name cost hc hr hl hl' hj =>
      have hsibling : sibling.Proper ctx sentence :=
        hd.of_mem_children (List.mem_cons_of_mem _ List.mem_cons_self)
      obtain ⟨hleft, hright, hsum⟩ := h.shares hc hr hchild hsibling hj
      refine h.add_sibling_le hsibling (h.heuristic_le hc hd rfl hchild (Outside.mem_descend.mpr
        (.inr ⟨r, _, _, hr, hleft, hright, hsum, .inl ⟨by rw [hl], ?_⟩⟩)))
      rw [hl']
  | @right _ sibling r s name cost hc hr hl hl' hj =>
      have hsibling : sibling.Proper ctx sentence := hd.of_mem_children List.mem_cons_self
      obtain ⟨hleft, hright, hsum⟩ := h.shares hc hr hsibling hchild hj
      refine h.add_sibling_le hsibling (h.heuristic_le hc hd rfl hchild (Outside.mem_descend.mpr
        (.inr ⟨r, _, _, hr, hleft, hright, hsum, .inr ⟨by rw [hl'], ?_⟩⟩)))
      rw [hl]

theorem Guides.steady (h : Guides ctx sentence inside scheme signature o) :
    Steady ctx sentence (ctx.Live sentence) := by
  refine ⟨?_, ExactCost.le_of_add_le_add_right, fun d hd => hd.le_total_of_not_live h.built⟩
  intro d hd child hmem
  obtain ⟨c, x, hmade, hcost⟩ := hd.exists_madeBy hmem
  have hle := h.heuristic_le_of_madeBy hd hmade
  simp only [Derivation.total]
  rw [hcost]
  refine OrderedCost.le_trans (OrderedCost.add_le_add_left child.cost hle) (Cost.le_of_eq ?_)
  ac_rfl

/-- Nothing is to come at the goal. -/
theorem Guides.heuristic_start (h : Guides ctx sentence inside scheme signature o)
    (hpos : 1 ≤ sentence.length) :
    ctx.heuristic ctx.grammar.start (.one 0 sentence.length) sentence.length = Cost.zero := by
  have hwhole : (Span.one 0 sentence.length).len = sentence.length := by
    unfold Span.len Span.one
    dsimp only
    have hlen := h.length
    rw [if_pos rfl, Int.sub_zero, Word.wrap_of_bounds (by omega) (by omega)]
  rw [h.heuristic]
  change Outside.lookup _ _ _ (Span.one 0 sentence.length).len = _
  rw [hwhole]
  exact Outside.lookup_start h.outside h.built.grammar hpos h.horizon

theorem Steady.toLive (hb : ctx.Built) (h : Steady ctx sentence fun _ _ => True) :
    Steady ctx sentence (ctx.Live sentence) :=
  ⟨h.rises, fun _ => h.cancels trivial, fun _ hd => hd.le_total_of_not_live hb⟩

/-- The estimates that are built for a grammar are steady, and leave nothing to come at the goal. -/
theorem Context.Guided.steady (h : ctx.Guided sentence kind maxlen) (hpos : 1 ≤ sentence.length)
    (hlen : sentence.length ≤ maxSentence) : Steady ctx sentence (ctx.Live sentence) ∧
      ctx.heuristic ctx.grammar.start (.one 0 sentence.length) sentence.length = Cost.zero := by
  obtain ⟨est, events, hbuild, hheuristic⟩ := h.estimates
  rcases Estimates.build_cases h.built.grammar hbuild with rfl |
    ⟨inside, scheme, signature, htable, -, hfits, hscheme, rfl⟩
  · have hzero : ∀ l s, ctx.heuristic l s sentence.length = Cost.zero := by
      intro l s
      rw [hheuristic]
      rfl
    exact ⟨(steady_of_zero h.built hzero).toLive h.built, hzero _ _⟩
  · have houtside := Outside.closed_estimate h.built.grammar hfits htable.admitted
    have hlen' : sentence.length < Word.bound := by
      simp only [maxSentence, Key.maxPosition] at hlen
      simp only [Word.bound]
      omega
    by_cases hhorizon : (sentence.length : Int) ≤ inside.maxlen
    · have hguides : Guides ctx sentence inside scheme signature
          (Outside.estimate ctx.grammar inside).1 :=
        ⟨h.built, h.preterminals, hlen', hhorizon, htable, hscheme _ hlen', houtside, hheuristic⟩
      exact ⟨hguides.steady, hguides.heuristic_start hpos⟩
    · have hzero : ∀ l s, ctx.heuristic l s sentence.length = Cost.zero := by
        intro l s
        rw [hheuristic]
        exact Outside.lookup_of_lt houtside (by omega)
      exact ⟨(steady_of_zero h.built hzero).toLive h.built, hzero _ _⟩

end Exact

end Discontinuous
