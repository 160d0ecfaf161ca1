import Discontinuous.Proofs.Parser
import Discontinuous.Text.Composed

/-!
What parsers recognize, whatever estimates they are guided by. The chart holds what the grammar
derives from the sentence and nothing else, and the back pointers of its items spell out their
derivations.
-/
namespace Discontinuous

variable {α : Type} [Cost α] {ctx : Context α} {sentence : List Token}

namespace Search

variable {p : Problem α} {R : α → α → Prop} {s t u : Search α} {e : Entry Key α Nat} {it : Item α}

/-- The back pointers of proven items spell out derivations of their labels and spans at their
inside costs, and lead through no more places than there are proven items. -/
def Spelled (ctx : Context α) (sentence : List Token) (s : Search α) : Prop :=
  ∀ id it, s.Proves id it → ∃ d, Derivation.Traced ctx.grammar.dict s.Proves s.chart.size id d ∧
    d.Proper ctx sentence ∧ d.label = it.label ∧ d.span = it.span ∧ d.cost = it.inside

/-- An item that is founded on items with derivations has one as well, as soon as it is proven. -/
theorem Spelled.of_founded (h : s.Spelled ctx sentence) (hg : p.grammar = ctx.grammar)
    (hit : Founded p (Seeded ctx sentence) s.Proves it) {proves : Nat → Item α → Prop}
    (hle : ∀ n x, s.Proves n x → proves n x) {id : Nat} (hid : proves id it) :
    ∃ d, Derivation.Traced ctx.grammar.dict proves (s.chart.size + 1) id d ∧
      d.Proper ctx sentence ∧ d.label = it.label ∧ d.span = it.span ∧ d.cost = it.inside := by
  rcases hit with ⟨i, t, ht, rfl⟩ | ⟨x, hx, rfl⟩
  · exact ⟨_, .leaf hid rfl rfl, .leaf ht (.tokenCost ctx t), rfl, rfl, rfl⟩
  · cases hx with
    | @unary c n b span hc hr hb hl hj =>
        obtain ⟨d, htraced, hproper, hdl, hds, hdc⟩ := h n b hb
        refine ⟨_, .unary hid rfl rfl (htraced.mono hle), ?_, rfl, rfl, rfl⟩
        have hnode := Derivation.Proper.unary (hg ▸ hc) hr hproper (hdl.trans hl) (hds ▸ hj)
        rw [hdc] at hnode
        exact hnode
    | @binary c r n n' b b' span hc hr hb hl hb' hl' hj =>
        obtain ⟨d, htraced, hproper, hdl, hds, hdc⟩ := h n b hb
        obtain ⟨d', htraced', hproper', hdl', hds', hdc'⟩ := h n' b' hb'
        refine ⟨_, .binary hid rfl rfl (htraced.mono hle) (htraced'.mono hle), ?_, rfl, rfl, rfl⟩
        have hnode := Derivation.Proper.binary (hg ▸ hc) hr hproper (hdl.trans hl) hproper'
          (hdl'.trans hl') (hds ▸ hds' ▸ hj)
        rw [hdc, hdc'] at hnode
        exact hnode

theorem Spelled.pops (h : s.Spelled ctx sentence) (hg : p.grammar = ctx.grammar)
    (hs : s.Sound p (Seeded ctx sentence)) (hpop : s.Pops e it t) : t.Spelled ctx sentence := by
  have hmono := hpop.proves_of_proves hs
  intro id x hx
  rw [hpop.size_chart hs]
  rcases (hpop.proves_iff hs id x).mp hx with hold | ⟨rfl, rfl⟩
  · obtain ⟨d, htraced, hrest⟩ := h id x hold
    exact ⟨d, (htraced.mono hmono).deeper (Nat.le_succ _), hrest⟩
  · exact h.of_founded hg (hpop.queued hs).2.2.1 hmono hx

theorem preserves_spelled (sentence : List Token) (R : α → α → Prop)
    (hg : p.grammar = ctx.grammar) :
    Preserves p (Seeded ctx sentence) R (Spelled ctx sentence) := by
  intro s e it t u hs _ hi hpop _ hcombined id x hx
  obtain ⟨d, htraced, hrest⟩ := hi.pops hg hs hpop id x ((hcombined.proves id x).mp hx)
  rw [hcombined.chart]
  exact ⟨d, htraced.mono fun n y hy => (hcombined.proves n y).mpr hy, hrest⟩

theorem Spelled.derivable (h : s.Spelled ctx sentence) {id : Nat} (hit : s.Proves id it) :
    Derivable ctx.grammar sentence it.label it.span := by
  obtain ⟨d, -, hproper, hl, hs, -⟩ := h id it hit
  exact hl ▸ hs ▸ hproper.derivable

/-- With nothing left to prove, everything derivable is proven. -/
theorem Complete.exists_proves (hp : p.Posed (Seeded ctx sentence)) (hg : p.grammar = ctx.grammar)
    (hs : s.Sound p (Seeded ctx sentence)) (hc : s.Complete p (Seeded ctx sentence) R)
    (hempty : s.frontier.agenda.size = 0) {l : Label} {span : Span}
    (h : Derivable ctx.grammar sentence l span) :
    ∃ id it, s.Proves id it ∧ it.label = l ∧ it.span = span := by
  have hfits := fun n x hx => (hs.proven n x hx).1
  have hfounded : ∀ it, Founded p (Seeded ctx sentence) s.Proves it →
      ∃ id x, s.Proves id x ∧ x.label = it.label ∧ x.span = it.span := by
    intro it hit
    rcases hc it hit with hcontains | ⟨e, he, -⟩
    · exact hs.exists_proves hp (hp.grounded.fits_of_founded hfits hit) hcontains
    · rw [Array.eq_empty_of_size_eq_zero hempty] at he
      simp at he
  induction h with
  | @tag i t ht => exact hfounded _ (.inl ⟨i, t, ht, rfl⟩)
  | unary hc hr _ hj ih =>
      obtain ⟨n, b, hb, hl, rfl⟩ := ih
      exact hfounded _ (.inr ⟨_, .unary (hg ▸ hc) hr hb hl hj, rfl⟩)
  | binary hc hr _ _ hj ih ih' =>
      obtain ⟨n, b, hb, hl, rfl⟩ := ih
      obtain ⟨n', b', hb', hl', rfl⟩ := ih'
      exact hfounded _ (.inr ⟨_, .binary (hg ▸ hc) hr hb hl hb' hl' hj, rfl⟩)

end Search

namespace Parser

variable {q : Parser α} {tracing : Bool} {it : Item α}

/-- The chart lists the item. -/
def Charts (q : Parser α) (it : Item α) : Prop :=
  ∃ id ∈ q.search.chart.ids, q.search.frontier.arena[id]? = some it

omit [Cost α] in
theorem charts_iff (ha : q.search.chart.Agrees q.search.frontier.arena) :
    q.Charts it ↔ ∃ id, q.search.Proves id it := by
  simp only [Charts, Chart.ids, List.mem_mergeSort, Map.mem_values]
  constructor
  · rintro ⟨id, ⟨k, hk⟩, hit⟩
    obtain ⟨x, hx, rfl⟩ := ha.exists_proves hk
    cases hit.symm.trans hx.2
    exact ⟨id, hx⟩
  · rintro ⟨id, hkey, hit⟩
    exact ⟨id, ⟨it.key, hkey⟩, hit⟩

omit [Cost α] in
theorem exists_charts (id : Nat) {l : Label} {s : Span} {x : α}
    (hid : id ∈ q.search.chart.items.values)
    (h : (q.search.frontier.arena[id]?.map fun it => (it.label, it.span, it.inside)) =
      some (l, s, x)) : ∃ it, q.Charts it ∧ it.label = l ∧ it.span = s ∧ it.inside = x := by
  obtain ⟨it, hit, hfields⟩ := Option.map_eq_some_iff.mp h
  simp only [Prod.mk.injEq] at hfields
  exact ⟨it, ⟨id, List.mem_mergeSort.mpr hid, hit⟩, hfields⟩

/-- How a parser that is not stopped by a number of pops ends, and what its chart holds then. -/
def Recognizes (ctx : Context α) (sentence : List Token) (q : Parser α)
    (result : Except (ParseError α) (Option (Success α))) : Prop :=
  (q.state = .exhausted ∧ result = .ok none ∧
    (∀ l s, (∃ it, q.Charts it ∧ it.label = l ∧ it.span = s) ↔ Derivable ctx.grammar sentence l s) ∧
    ¬ Derivable ctx.grammar sentence ctx.grammar.start (.one 0 sentence.length)) ∨
  (q.state = .succeeded ∧ (∃ success, result = .ok (some success)) ∧
    (∀ it, q.Charts it → Derivable ctx.grammar sentence it.label it.span) ∧
    ∃ it, q.Charts it ∧ it.label = ctx.grammar.start ∧ it.span = .one 0 sentence.length)

theorem recognizes_exhausted {t u : Search α} (h : ctx.Takes sentence)
    (hlen : sentence.length ≤ maxSentence)
    (hs : t.Sound (q.posed ctx tracing sentence) (Seeded ctx sentence))
    (hc : t.Complete (q.posed ctx tracing sentence) (Seeded ctx sentence) fun _ _ => True)
    (hspelled : t.Spelled ctx sentence) (hopen : t.Open (q.posed ctx tracing sentence))
    (hempty : t.frontier.agenda.size = 0) (ha : t.Alike u) :
    Recognizes ctx sentence (q.ended tracing sentence u .exhausted none) (.ok none) := by
  have hproves : ∀ l s, Derivable ctx.grammar sentence l s → ∃ id it, t.Proves id it ∧
      it.label = l ∧ it.span = s := fun l s hd =>
    hc.exists_proves (posed_posed q tracing h hlen) rfl hs hempty hd
  have hagrees : u.chart.Agrees u.frontier.arena := by
    rw [ha.1, ha.2]
    exact hs.frontier.agrees
  refine .inl ⟨rfl, rfl, ?_, ?_⟩
  · intro l s
    constructor
    · rintro ⟨it, hit, rfl, rfl⟩
      obtain ⟨id, hid⟩ := (charts_iff hagrees).mp hit
      exact hspelled.derivable (ha.proves ▸ hid)
    · intro hd
      obtain ⟨id, it, hit, hl, hspan⟩ := hproves l s hd
      exact ⟨it, (charts_iff hagrees).mpr ⟨id, ha.proves ▸ hit⟩, hl, hspan⟩
  · intro hgoal
    obtain ⟨id, it, hit, hl, hspan⟩ := hproves _ _ hgoal
    have hfalse := hopen id it hit
    rw [(Search.isGoal_iff it).mpr ⟨hl, hspan⟩] at hfalse
    cases hfalse

theorem recognizes_succeeded {t v u : Search α} {e : Entry Key α Nat} (h : ctx.Takes sentence)
    (hlen : sentence.length ≤ maxSentence)
    (hs : t.Sound (q.posed ctx tracing sentence) (Seeded ctx sentence))
    (hspelled : t.Spelled ctx sentence) (hpop : t.Pops e it v)
    (hgoal : Search.isGoal (q.posed ctx tracing sentence) it = true) (ha : v.Alike u) :
    Recognizes ctx sentence (q.ended tracing sentence u .succeeded (some e.value))
      (.ok (some ⟨e.value, it.inside⟩)) := by
  have hagrees : u.chart.Agrees u.frontier.arena := by
    rw [ha.1, ha.2]
    exact (hpop.sound hs (posed_posed q tracing h hlen)).frontier.agrees
  have hspelled := hspelled.pops rfl hs hpop
  refine .inr ⟨rfl, ⟨_, rfl⟩, ?_, it, ?_, (Search.isGoal_iff it).mp hgoal⟩
  · intro x hx
    obtain ⟨id, hid⟩ := (charts_iff hagrees).mp hx
    exact hspelled.derivable (ha.proves ▸ hid)
  · exact (charts_iff hagrees).mpr ⟨e.value, ha.proves ▸ hpop.proves_item hs⟩

theorem recognizes_parse (q : Parser α) (tracing : Bool) (h : ctx.Takes sentence)
    (hpos : 1 ≤ sentence.length) (hlen : sentence.length ≤ maxSentence)
    (hpops : q.options.maxPops ≤ 0) :
    Recognizes ctx sentence (q.reset.parse ctx tracing sentence).1
      (q.reset.parse ctx tracing sentence).2 := by
  have hI := (Search.preserves_spelled sentence (fun _ _ => True)
    (show (q.posed ctx tracing sentence).grammar = ctx.grammar from rfl)).and Search.preserves_open
  obtain ⟨t, hs, hc, ⟨hspelled, hopen⟩, ⟨hempty, u, ha, heq⟩ | ⟨hmax, -⟩ |
    ⟨e, it, v, u, hpop, hgoal, ha, heq⟩⟩ := parse_cases gauge_trivial h hpos hlen hI
      ⟨fun n x hx => absurd hx (begun_proves n x), fun n x hx => absurd hx (begun_proves n x)⟩
  · rw [heq]
    exact recognizes_exhausted h hlen hs hc hspelled hopen hempty ha
  · omega
  · rw [heq]
    exact recognizes_succeeded h hlen hs hspelled hpop hgoal ha

/-- The chart holds what the grammar derives, and the estimates have no say in whether a parser
succeeds. -/
theorem chart_sound_and_complete (q : Parser α) (ctx : Context α) (tracing : Bool)
    (sentence : List Token) (h : ctx.Takes sentence) (hpos : 1 ≤ sentence.length)
    (hlen : sentence.length ≤ maxSentence) (hpops : q.options.maxPops ≤ 0) :
    Recognizes ctx sentence (q.reset.parse ctx tracing sentence).1
        (q.reset.parse ctx tracing sentence).2 ∧
      ∀ (q' : Parser α) (heuristic : Heuristic α) (tracing' : Bool), q'.options.maxPops ≤ 0 →
        (q'.reset.parse { ctx with heuristic } tracing' sentence).1.state =
          (q.reset.parse ctx tracing sentence).1.state := by
  have hrec := recognizes_parse q tracing h hpos hlen hpops
  refine ⟨hrec, ?_⟩
  intro q' heuristic tracing' hpops'
  have htakes : { ctx with heuristic }.Takes sentence := ⟨h.built, h.labels, h.tags⟩
  have hrec' := recognizes_parse q' tracing' htakes hpos hlen hpops'
  rcases hrec with ⟨hstate, -, -, hnone⟩ | ⟨hstate, -, hsome, it, hit, hl, hs⟩
  · rcases hrec' with ⟨hstate', -⟩ | ⟨-, -, hsome', it', hit', hl', hs'⟩
    · rw [hstate, hstate']
    · exact absurd (hl' ▸ hs' ▸ hsome' it' hit') hnone
  · rcases hrec' with ⟨-, -, -, hnone'⟩ | ⟨hstate', -⟩
    · exact absurd (hl ▸ hs ▸ hsome it hit) hnone'
    · rw [hstate, hstate']

/-- Parsers without a bound on their pops. -/
def unbounded : Parser Price := .new ⟨0, false⟩

/-- Here `P` covers what is around a `B`. -/
def gappedEdits : List (Edit Price) :=
  [.preterminal "A", .preterminal "B", .preterminal "C",
    .clause "P" "A" (some "C") [[.left], [.right]] 1,
    .clause "S" "P" (some "B") [[.left, .right, .left]] 2, .clause "S" "S" none [[.left]] 0,
    .entry (Text.ofString "a") "A" 3]

/-- Estimates of this context are not admissible. -/
def gapped : Context Price where
  grammar := (Language.ofEdits "S" gappedEdits).grammar
  lexicon := some (Language.ofEdits "S" gappedEdits).lexicon
  heuristic := fun l _ _ => if l = ⟨0⟩ then ⊤ else 7

def gappedSentence : List Token := [⟨some 0, ⟨1⟩⟩, ⟨none, ⟨2⟩⟩, ⟨none, ⟨3⟩⟩]

theorem gapped_takes : gapped.Takes gappedSentence := by
  refine ⟨⟨inferInstance, "S", gappedEdits, rfl, fun lex hlex => (Option.some.inj hlex).symm⟩, ?_, ?_⟩
  · decide +kernel
  · decide +kernel

theorem chart_sound_and_complete_gapped :
    gapped.Takes gappedSentence ∧ 1 ≤ gappedSentence.length ∧
      gappedSentence.length ≤ maxSentence ∧ unbounded.options.maxPops ≤ 0 ∧
      Recognizes gapped gappedSentence (unbounded.reset.parse gapped false gappedSentence).1
        (unbounded.reset.parse gapped false gappedSentence).2 :=
  ⟨gapped_takes, by decide, by decide, by decide,
    (chart_sound_and_complete unbounded gapped false gappedSentence gapped_takes (by decide)
      (by decide) (by decide)).1⟩

theorem length_of_succeeded (hdone : (q.reset.parse ctx tracing sentence).1.state = .succeeded) :
    1 ≤ sentence.length ∧ sentence.length ≤ maxSentence := by
  by_contra hbad
  simp only [parse] at hdone
  rw [if_neg (by simp [reset]), if_pos (by omega)] at hdone
  cases hdone

theorem positions_whole (n : Nat) :
    (Span.one 0 n).positions = (List.range n).map fun (k : Nat) => (k : Int) := by
  simp only [Span.positions, Span.one, Span.range]
  simp

/-- A parser that succeeds has a derivation of the whole sentence to show. -/
theorem derivation_of_succeeded (q : Parser α) (ctx : Context α) (tracing : Bool)
    (sentence : List Token) (h : ctx.Takes sentence)
    (hdone : (q.reset.parse ctx tracing sentence).1.state = .succeeded) :
    ∃ success d ps, (q.reset.parse ctx tracing sentence).2 = .ok (some success) ∧
      Derivation.ofItem? ctx.grammar.dict
        (q.reset.parse ctx tracing sentence).1.search.frontier.arena
        (q.reset.parse ctx tracing sentence).1.search.frontier.arena.size success.goal = some d ∧
      (q.reset.parse ctx tracing sentence).1.derivation ctx.grammar.dict =
        .ok (if q.options.debinarize then d.debinarize ctx.grammar.dict else d) ∧
      d.Proper ctx sentence ∧ d.label = ctx.grammar.start ∧ d.span = .one 0 sentence.length ∧
      d.cost = success.cost ∧ d.leaves? = some ps ∧
      ps.Perm ((List.range sentence.length).map fun (k : Nat) => (k : Int)) := by
  obtain ⟨hpos, hlen⟩ := length_of_succeeded hdone
  have hI := Search.preserves_spelled sentence (fun _ _ => True)
    (show (q.posed ctx tracing sentence).grammar = ctx.grammar from rfl)
  obtain ⟨t, hs, -, hspelled, ⟨-, u, -, heq⟩ | ⟨-, u, heq⟩ | ⟨e, it, v, u, hpop, hgoal, ha, heq⟩⟩ :=
    parse_cases gauge_trivial h hpos hlen hI fun n x hx => absurd hx (begun_proves n x)
  · rw [heq] at hdone
    cases hdone
  · rw [heq] at hdone
    cases hdone
  · have hbalance := (hpop.sound hs (posed_posed q tracing h hlen)).frontier.balance
    obtain ⟨d, htraced, hproper, hl, hspan, hcost⟩ :=
      hspelled.pops rfl hs hpop e.value it (hpop.proves_item hs)
    obtain ⟨hstart, hwhole⟩ := (Search.isGoal_iff it).mp hgoal
    obtain ⟨ps, hps, hperm⟩ := hproper.leaves h.built.grammar
    have htree : Derivation.ofItem? ctx.grammar.dict u.frontier.arena u.frontier.arena.size
        e.value = some d := by
      refine (htraced.deeper ?_).ofItem? ?_
      · rw [ha.2]
        omega
      · intro id x hx
        rw [ha.2]
        exact hx.2
    rw [heq]
    refine ⟨⟨e.value, it.inside⟩, d, ps, rfl, htree, ?_, hproper, hl.trans hstart,
      hspan.trans hwhole, hcost, hps, ?_⟩
    · unfold derivation ended
      dsimp only
      rw [htree]
    · rw [← positions_whole]
      exact (hspan.trans hwhole) ▸ hperm

/-- The word of the first token has a cost, which is one half of what the derivation costs. -/
theorem derivation_of_succeeded_gapped :
    (unbounded.reset.parse gapped false gappedSentence).1.state = .succeeded ∧
      LexicalCost gapped.lexicon ⟨some 0, ⟨1⟩⟩ 3 ∧
      ∃ d : Derivation Price, d.Proper gapped gappedSentence ∧ d.label = ⟨0⟩ ∧
        d.span = .one 0 3 ∧ d.cost = 6 ∧
        (unbounded.reset.parse gapped false gappedSentence).1.derivation gapped.grammar.dict =
          .ok d := by
  have hdone : (unbounded.reset.parse gapped false gappedSentence).1.state = .succeeded := by
    decide +kernel
  have hsix : ((unbounded.reset.parse gapped false gappedSentence).2.toOption.map
      (Option.map Success.cost)) = some (some 6) := by
    decide +kernel
  obtain ⟨success, d, ps, hresult, -, hd, hproper, hl, hs, hcost, -⟩ :=
    derivation_of_succeeded unbounded gapped false gappedSentence gapped_takes hdone
  rw [hresult] at hsix
  have hsuccess : success.cost = 6 := by simpa [Except.toOption] using hsix
  refine ⟨hdone, .listed rfl rfl (by decide +kernel), d, hproper, hl, hs, ?_, hd⟩
  exact hcost.trans hsuccess

end Parser

end Discontinuous
