import Discontinuous.Proofs.Derivation
import Discontinuous.Proofs.Search

/-!
Parsers. A parser that has been reset starts from the tokens of its sentence, and ends in one of
three ways: nothing is left to prove, the goal is proven, or there have been too many pops. The
invariants of the search hold where it ends.
-/
namespace Discontinuous

variable {α : Type} [Cost α]

/-- Grammars and lexicons come about by additions only. -/
def Context.Built (ctx : Context α) : Prop :=
  ∃ (_ : Composer) (start : String) (edits : List (Edit α)),
    ctx.grammar = (Language.ofEdits start edits).grammar ∧
      ∀ lex, ctx.lexicon = some lex → lex = (Language.ofEdits start edits).lexicon

theorem Context.Built.grammar {ctx : Context α} (h : ctx.Built) : ctx.grammar.WellFormed := by
  obtain ⟨_, start, edits, hg, -⟩ := h
  rw [hg]
  exact (Language.wellFormed_ofEdits start edits).grammar

/-- What callers provide: a grammar of theirs that is not too large, and a sentence tagged with its
labels. -/
structure Context.Takes (ctx : Context α) (sentence : List Token) : Prop where
  built : ctx.Built
  labels : ctx.grammar.dict.size ≤ Key.labelLimit
  tags : ∀ t ∈ sentence, ctx.grammar.dict.Has t.tag

/-- The items of the tokens of a sentence. -/
def Seeded (ctx : Context α) (sentence : List Token) (it : Item α) : Prop :=
  ∃ (i : Nat) (t : Token), sentence[i]? = some t ∧ it = Parser.seed ctx sentence.length i t

namespace Parser

variable {ctx : Context α} {sentence : List Token} {p : Problem α} {f : Frontier α}
  {good : Item α → Prop} {R : α → α → Prop}

omit [Cost α] in
theorem sound_empty : (Frontier.empty : Frontier α).Sound .empty good := by
  refine ⟨Heap.indexed_empty, Chart.agrees_empty _, ?_, rfl⟩
  intro e he
  simp [Frontier.empty, Agenda.empty, Heap.empty] at he

theorem seeds_sound (hR : Gauge R) (n : Int) (xs : List (Token × Nat))
    (hf : f.Sound .empty good) (hxs : ∀ x ∈ xs, good (seed ctx n x.2 x.1)) :
    (xs.foldl (fun f x => f.enqueue p (seed ctx n x.2 x.1)) f).Sound .empty good ∧
      (∀ it, f.Offers R it →
        (xs.foldl (fun f x => f.enqueue p (seed ctx n x.2 x.1)) f).Offers R it) ∧
      ∀ x ∈ xs, (xs.foldl (fun f x => f.enqueue p (seed ctx n x.2 x.1)) f).Offers R
        (seed ctx n x.2 x.1) := by
  induction xs generalizing f with
  | nil => exact ⟨hf, fun _ h => h, fun x hx => nomatch hx⟩
  | cons x xs ih =>
      have hnew : Chart.empty.items[(seed ctx n x.2 x.1).key]? = none := by simp [Chart.empty]
      have henq := Frontier.enqueued (p := p) hf (hxs x List.mem_cons_self) hnew
      obtain ⟨hsound, hkeeps, hall⟩ := ih henq.sound fun y hy => hxs y (List.mem_cons_of_mem _ hy)
      refine ⟨hsound, fun it hit => hkeeps it (henq.offers_of_offers hR hit), ?_⟩
      intro y hy
      rcases List.mem_cons.mp hy with rfl | hy
      · exact hkeeps _ (henq.offers hR)
      · exact hall y hy

theorem ordered_seeds [OrderedCost α] (n : Int) (xs : List (Token × Nat))
    (hx : f.agenda.heap.Indexed) (ho : f.agenda.heap.Ordered) :
    (xs.foldl (fun f x => f.enqueue p (seed ctx n x.2 x.1)) f).agenda.heap.Ordered := by
  induction xs generalizing f with
  | nil => exact ho
  | cons x xs ih =>
      exact ih (Frontier.indexed_enqueue hx p _) (Frontier.ordered_enqueue hx ho p _)

/-- The problem that a sentence poses to a parser. -/
def posed (q : Parser α) (ctx : Context α) (tracing : Bool) (sentence : List Token) : Problem α :=
  ⟨ctx.grammar, ctx.heuristic, sentence.length, q.options.maxPops, tracing⟩

/-- The search before its first step. -/
def begun (q : Parser α) (ctx : Context α) (tracing : Bool) (sentence : List Token) : Search α :=
  ⟨seeds ctx (q.posed ctx tracing sentence) .empty sentence, .empty, 0⟩

variable {q : Parser α} {tracing : Bool}

theorem posed_grounded (q : Parser α) (tracing : Bool) (h : ctx.Built)
    (htags : ∀ t ∈ sentence, ctx.grammar.dict.Has t.tag) :
    (q.posed ctx tracing sentence).Grounded (Seeded ctx sentence) := by
  refine ⟨h.grammar, ?_⟩
  rintro it ⟨i, t, ht, rfl⟩
  exact ⟨htags t (List.mem_of_getElem? ht), within_of_token ht⟩

theorem posed_posed (q : Parser α) (tracing : Bool) (h : ctx.Takes sentence)
    (hlen : sentence.length ≤ maxSentence) :
    (q.posed ctx tracing sentence).Posed (Seeded ctx sentence) :=
  have hg := posed_grounded q tracing h.built h.tags
  ⟨hg.grammar, h.labels, Int.ofNat_le.mpr hlen, hg.source⟩

theorem begun_proves (n : Nat) (it : Item α) : ¬ (q.begun ctx tracing sentence).Proves n it := by
  rintro ⟨h, -⟩
  simp [begun, Chart.empty] at h

theorem begun_sound : (q.begun ctx tracing sentence).Sound (q.posed ctx tracing sentence)
    (Seeded ctx sentence) := by
  refine ⟨(seeds_sound gauge_trivial _ _ sound_empty ?_).1,
    fun n it h => absurd h (begun_proves n it)⟩
  rintro ⟨t, i⟩ hx
  exact .inl ⟨i, t, List.mem_zipIdx_iff_getElem?.mp hx, rfl⟩

theorem begun_complete (hR : Gauge R) : (q.begun ctx tracing sentence).Complete
    (q.posed ctx tracing sentence) (Seeded ctx sentence) R := by
  rintro it (⟨i, t, ht, rfl⟩ | ⟨x, hx, -⟩)
  · right
    have hempty : (Frontier.empty : Frontier α).Sound .empty fun _ => True := sound_empty
    refine (seeds_sound hR _ _ hempty fun _ _ => trivial).2.2 (t, i) ?_
    exact List.mem_zipIdx_iff_getElem?.mpr ht
  · cases hx with
    | unary _ _ hb _ _ => exact absurd hb (begun_proves _ _)
    | binary _ _ hb _ _ _ _ => exact absurd hb (begun_proves _ _)

theorem begun_ordered [OrderedCost α] :
    (q.begun ctx tracing sentence).frontier.agenda.heap.Ordered :=
  ordered_seeds _ _ Heap.indexed_empty Heap.ordered_empty

/-- A parser at rest, with the search and the goal that it has come to. -/
def ended (q : Parser α) (tracing : Bool) (sentence : List Token) (s : Search α)
    (state : ParserState) (goal : Option Nat) : Parser α :=
  ⟨q.options, s, state, sentence.length, goal, tracing⟩

theorem parse_eq (hpos : 1 ≤ sentence.length) (hlen : sentence.length ≤ maxSentence) :
    q.reset.parse ctx tracing sentence =
      match Search.run (q.posed ctx tracing sentence) (q.begun ctx tracing sentence) with
      | (s, .exhausted) => (q.ended tracing sentence s .exhausted none, .ok none)
      | (s, .found id cost) =>
        (q.ended tracing sentence s .succeeded (some id), .ok (some ⟨id, cost⟩))
      | (s, .popLimit) =>
        (q.ended tracing sentence s .failed none, .error (.popLimit q.options.maxPops))
      | (s, .invariant e) => (q.ended tracing sentence s .failed none, .error (.invariant e))
      | (s, .dangling id) => (q.ended tracing sentence s .failed none, .error (.dangling id)) := by
  simp only [parse]
  rw [if_neg (by simp [reset]), if_neg (by omega)]
  rfl

/-- A parser ends with the search that its run ends with. -/
theorem search_parse (hpos : 1 ≤ sentence.length) (hlen : sentence.length ≤ maxSentence) :
    (q.reset.parse ctx tracing sentence).1.search =
      (Search.run (q.posed ctx tracing sentence) (q.begun ctx tracing sentence)).1 := by
  rw [parse_eq hpos hlen]
  rcases Search.run (q.posed ctx tracing sentence) (q.begun ctx tracing sentence) with ⟨s, stop⟩
  cases stop with
  | exhausted => rfl
  | found id cost => rfl
  | popLimit => rfl
  | invariant e => rfl
  | dangling id => rfl

/-- The three ways in which a parser ends. Whatever holds before the search and is preserved by it
holds of the state `t` in which its last step is taken. -/
theorem parse_cases {I : Search α → Prop} (hR : Gauge R) (h : ctx.Takes sentence)
    (hpos : 1 ≤ sentence.length) (hlen : sentence.length ≤ maxSentence)
    (hI : Search.Preserves (q.posed ctx tracing sentence) (Seeded ctx sentence) R I)
    (hbegun : I (q.begun ctx tracing sentence)) :
    ∃ t : Search α, t.Sound (q.posed ctx tracing sentence) (Seeded ctx sentence) ∧
      t.Complete (q.posed ctx tracing sentence) (Seeded ctx sentence) R ∧ I t ∧
      ((t.frontier.agenda.size = 0 ∧ ∃ u, t.Alike u ∧ q.reset.parse ctx tracing sentence =
          (q.ended tracing sentence u .exhausted none, .ok none)) ∨
        (0 < q.options.maxPops ∧ ∃ u, q.reset.parse ctx tracing sentence =
          (q.ended tracing sentence u .failed none, .error (.popLimit q.options.maxPops))) ∨
        ∃ e it v u, t.Pops e it v ∧ Search.isGoal (q.posed ctx tracing sentence) it = true ∧
          v.Alike u ∧ q.reset.parse ctx tracing sentence =
            (q.ended tracing sentence u .succeeded (some e.value),
              .ok (some ⟨e.value, it.inside⟩))) := by
  have hp := posed_posed q tracing h hlen
  obtain ⟨t, ⟨hsound, hcomplete, hi⟩, hstep⟩ := Search.run_invariant hR hp hI begun_sound
    (begun_complete hR) hbegun
  refine ⟨t, hsound, hcomplete, hi, ?_⟩
  rw [parse_eq hpos hlen]
  rcases hrun : Search.run (q.posed ctx tracing sentence) (q.begun ctx tracing sentence) with
    ⟨s, stop⟩
  rw [hrun] at hstep
  dsimp only at hstep ⊢
  rcases Search.step_cases hR hp hsound with ⟨hsize, u, hu, halike⟩ | ⟨hmax, u, hu, -⟩ |
    ⟨e, it, v, hpop, ⟨hgoal, u, hu, halike⟩ | ⟨-, u, hu, -⟩⟩
  · cases hu.symm.trans hstep
    exact .inl ⟨hsize, _, halike, rfl⟩
  · cases hu.symm.trans hstep
    exact .inr (.inl ⟨hmax, _, rfl⟩)
  · cases hu.symm.trans hstep
    exact .inr (.inr ⟨e, it, v, _, hpop, hgoal, halike, rfl⟩)
  · cases hu.symm.trans hstep

end Parser

end Discontinuous
