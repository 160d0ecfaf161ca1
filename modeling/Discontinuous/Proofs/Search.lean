import Discontinuous.Proofs.Proposal

/-!
The deduction loop. Proven and queued items are founded: they stem from the sentence, or a clause
and proven items license them. Conversely every founded item is proven or queued, so that nothing
is lost when the queue runs empty. Both are invariants of a step, whatever costs and estimates are.
-/
namespace Discontinuous

variable {α : Type} [Cost α]

/-- A relation between the priority of an entry and the totals that it stands for: it holds of an
entry as it is queued, and outlives every cheaper total that replaces the priority. -/
structure Gauge (R : α → α → Prop) : Prop where
  refl : ∀ a, R a a
  of_le : ∀ {a b}, Cost.le a b = true → R a b
  lower : ∀ {a b c}, R a c → ¬ Cost.le a b = true → R b c

theorem gauge_trivial : Gauge fun _ _ : α => True :=
  ⟨fun _ => trivial, fun _ => trivial, fun _ _ => trivial⟩

theorem gauge_le [OrderedCost α] : Gauge fun a b : α => Cost.le a b = true :=
  ⟨Cost.le_refl, id, fun hac hab => OrderedCost.le_trans (Cost.le_of_not_le hab) hac⟩

namespace Frontier

variable {chart : Chart} {good : Item α → Prop} {f f' : Frontier α} {R : α → α → Prop}
  {p : Problem α}

/-- The key of the item is queued, and its priority stands for the item's total. -/
def Offers (R : α → α → Prop) (f : Frontier α) (it : Item α) : Prop :=
  ∃ e ∈ f.agenda.heap.entries, e.key = it.key ∧ R e.priority it.total

theorem Enqueued.offers (hR : Gauge R) {x : Item α} (h : Enqueued chart good f f' x) :
    f'.Offers R x := by
  obtain ⟨e, he, hkey, heq | hle⟩ := h.has
  · exact ⟨e, he, hkey, heq ▸ hR.refl _⟩
  · exact ⟨e, he, hkey, hR.of_le hle⟩

theorem Enqueued.offers_of_offers (hR : Gauge R) {x it : Item α}
    (h : Enqueued chart good f f' x) (hoff : f.Offers R it) : f'.Offers R it := by
  obtain ⟨e, he, hkey, hr⟩ := hoff
  obtain ⟨e', he', hkey', heq | ⟨heq, hle⟩⟩ := h.keeps e he
  · exact ⟨e', he', hkey'.trans hkey, heq ▸ hr⟩
  · exact ⟨e', he', hkey'.trans hkey, heq ▸ hR.lower hr hle⟩

/-- What making proposals does to a frontier. Each of them is proven or queued afterwards. -/
structure Proposed (p : Problem α) (chart : Chart) (good : Item α → Prop) (R : α → α → Prop)
    (f : Frontier α) (xs : List (Proposal α)) (f' : Frontier α) : Prop where
  sound : f'.Sound chart good
  proves : ∀ id it, chart.Proves f'.arena id it ↔ chart.Proves f.arena id it
  keeps : ∀ it, f.Offers R it → f'.Offers R it
  only : ∀ e ∈ f'.agenda.heap.entries, e ∈ f.agenda.heap.entries ∨
    ∃ x ∈ xs, e.priority = (x.item p).total
  made : ∀ x ∈ xs, chart.contains (x.item p).label (x.item p).span = true ∨
    f'.Offers R (x.item p)

theorem Proposed.nil (hf : f.Sound chart good) : Proposed p chart good R f [] f :=
  ⟨hf, fun _ _ => Iff.rfl, fun _ h => h, fun _ he => .inl he, fun _ hx => nomatch hx⟩

theorem Proposed.cons {f₁ f₂ : Frontier α} {x : Proposal α} {xs : List (Proposal α)}
    (h : Proposed p chart good R f [x] f₁) (hs : Proposed p chart good R f₁ xs f₂) :
    Proposed p chart good R f (x :: xs) f₂ := by
  refine ⟨hs.sound, ?_, ?_, ?_, ?_⟩
  · intro id it
    exact (hs.proves id it).trans (h.proves id it)
  · intro it hit
    exact hs.keeps it (h.keeps it hit)
  · intro e he
    rcases hs.only e he with he | ⟨y, hy, hpriority⟩
    · rcases h.only e he with he | ⟨y, hy, hpriority⟩
      · exact .inl he
      · cases List.mem_singleton.mp hy
        exact .inr ⟨x, List.mem_cons_self, hpriority⟩
    · exact .inr ⟨y, List.mem_cons_of_mem _ hy, hpriority⟩
  · intro y hy
    rcases List.mem_cons.mp hy with rfl | hy
    · exact (h.made y List.mem_cons_self).imp_right (hs.keeps _)
    · exact hs.made y hy

theorem propose_sound (hR : Gauge R) {x : Proposal α} (hf : f.Sound chart good)
    (hvalid : x.span.Valid) (hgood : good (x.item p)) :
    ∃ f', f.propose p chart x = (f', none) ∧ Proposed p chart good R f [x] f' := by
  simp only [propose]
  rw [if_neg (not_not.mpr hvalid)]
  by_cases hc : chart.contains x.clause.lhs x.span = true
  · rw [if_pos hc]
    refine ⟨f, rfl, hf, fun _ _ => Iff.rfl, fun _ h => h, fun _ he => .inl he, ?_⟩
    intro y hy
    cases List.mem_singleton.mp hy
    exact .inl hc
  · rw [if_neg hc]
    have hnew : chart.items[(x.item p).key]? = none :=
      (Map.contains_eq_false_iff _ _).mp (Bool.eq_false_of_not_eq_true hc)
    have henq := enqueued (p := p) hf hgood hnew
    refine ⟨_, rfl, henq.sound, henq.proves, fun _ => henq.offers_of_offers hR, ?_, ?_⟩
    · intro e he
      rcases henq.only e he with he | ⟨-, hpriority⟩
      · exact .inl he
      · exact .inr ⟨x, List.mem_cons_self, hpriority⟩
    · intro y hy
      cases List.mem_singleton.mp hy
      exact .inr (henq.offers hR)

/-- Proposals of valid spans can all be made. -/
theorem proposeAll_sound (hR : Gauge R) (xs : List (Proposal α)) (hf : f.Sound chart good)
    (hxs : ∀ x ∈ xs, x.span.Valid ∧ good (x.item p)) :
    ∃ f', f.proposeAll p chart xs = (f', none) ∧ Proposed p chart good R f xs f' := by
  induction xs generalizing f with
  | nil => exact ⟨f, rfl, .nil hf⟩
  | cons x xs ih =>
      obtain ⟨hvalid, hgood⟩ := hxs x List.mem_cons_self
      obtain ⟨f₁, hstep, hproposed⟩ := propose_sound hR hf hvalid hgood
      obtain ⟨f₂, hrest, hproposed'⟩ := ih hproposed.sound fun y hy =>
        hxs y (List.mem_cons_of_mem _ hy)
      refine ⟨f₂, ?_, hproposed.cons hproposed'⟩
      rw [proposeAll, each, hstep]
      exact hrest

theorem ordered_proposeAll [OrderedCost α] (p : Problem α) (chart : Chart) (xs : List (Proposal α))
    (hx : f.agenda.heap.Indexed) (ho : f.agenda.heap.Ordered) :
    (f.proposeAll p chart xs).1.agenda.heap.Ordered := by
  unfold proposeAll
  induction xs generalizing f with
  | nil => exact ho
  | cons x xs ih =>
      rw [each]
      simp only [propose]
      by_cases hvalid : x.span.Valid
      · rw [if_neg (not_not.mpr hvalid)]
        by_cases hc : chart.contains x.clause.lhs x.span = true
        · rw [if_pos hc]
          exact ih hx ho
        · rw [if_neg hc]
          exact ih (indexed_enqueue hx p _) (ordered_enqueue hx ho p _)
      · rw [if_pos hvalid]
        exact ho

end Frontier

/-- The label has a name, and the span lies in the sentence. -/
def Problem.Fits (p : Problem α) (it : Item α) : Prop :=
  p.grammar.dict.Has it.label ∧ it.span.Within p.length

/-- A grammar that came about by additions, and items to start from that fit. Keys need not tell
all of its labels apart. -/
structure Problem.Grounded (p : Problem α) (source : Item α → Prop) : Prop where
  grammar : p.grammar.WellFormed
  source : ∀ it, source it → p.Fits it

/-- What callers provide: a grammar of theirs, a sentence that keys can tell the positions of, and
items to start from. -/
structure Problem.Posed (p : Problem α) (source : Item α → Prop) : Prop where
  grammar : p.grammar.WellFormed
  labels : p.grammar.dict.size ≤ Key.labelLimit
  length : p.length ≤ Key.maxPosition
  source : ∀ it, source it → p.Fits it

/-- Items of the sentence, and those that proven ones license. -/
def Founded (p : Problem α) (source : Item α → Prop) (proves : Nat → Item α → Prop)
    (it : Item α) : Prop :=
  source it ∨ ∃ x, Proposal.Licensed p.grammar proves x ∧ it = x.item p

theorem Founded.mono {p : Problem α} {source : Item α → Prop} {proves proves' : Nat → Item α → Prop}
    (hle : ∀ id it, proves id it → proves' id it) {it : Item α} (h : Founded p source proves it) :
    Founded p source proves' it := by
  rcases h with h | ⟨x, hx, rfl⟩
  · exact .inl h
  · exact .inr ⟨x, hx.mono hle, rfl⟩

namespace Problem.Posed

variable {p : Problem α} {source : Item α → Prop} (hp : p.Posed source)

include hp

theorem inRange {it : Item α} (h : p.Fits it) : Key.InRange it.label it.span := by
  have hlabels := hp.labels
  exact .of_within h.1.1 (by have := h.1.2; omega) h.2 hp.length

theorem eq_of_key {it it' : Item α} (h : p.Fits it) (h' : p.Fits it') (hkey : it.key = it'.key) :
    it.label = it'.label ∧ it.span = it'.span :=
  Key.of_injective (hp.inRange h) (hp.inRange h') hkey

theorem grounded : p.Grounded source := ⟨hp.grammar, hp.source⟩

end Problem.Posed

instance {p : Problem α} {source : Item α → Prop} : Coe (p.Posed source) (p.Grounded source) :=
  ⟨Problem.Posed.grounded⟩

namespace Problem.Grounded

variable {p : Problem α} {source : Item α → Prop} (hp : p.Grounded source)

include hp

theorem fits_of_licensed {proves : Nat → Item α → Prop} (hfits : ∀ id it, proves id it → p.Fits it)
    {x : Proposal α} (hx : Proposal.Licensed p.grammar proves x) : p.Fits (x.item p) := by
  cases hx with
  | @unary c id b s hc hr hb hl hj =>
      refine ⟨hp.grammar.has_lhs hc, JoinType.join_within hj (hfits _ _ hb).2 ?_⟩
      intro hne
      rw [hp.grammar.isUnary_eq_true hc hr] at hne
      cases hne
  | @binary c r id id' b b' s hc hr hb hl hb' hl' hj =>
      exact ⟨hp.grammar.has_lhs hc,
        JoinType.join_within hj (hfits _ _ hb).2 fun _ => (hfits _ _ hb').2⟩

theorem fits_of_founded {proves : Nat → Item α → Prop} (hfits : ∀ id it, proves id it → p.Fits it)
    {it : Item α} (h : Founded p source proves it) : p.Fits it := by
  rcases h with h | ⟨x, hx, rfl⟩
  · exact hp.source it h
  · exact hp.fits_of_licensed hfits hx

end Problem.Grounded

namespace Search

variable {p : Problem α} {source : Item α → Prop} {R : α → α → Prop} {s s' t : Search α}

/-- The item is proven, and stands at place `id`. -/
def Proves (s : Search α) : Nat → Item α → Prop := s.chart.Proves s.frontier.arena

structure Sound (p : Problem α) (source : Item α → Prop) (s : Search α) : Prop where
  frontier : s.frontier.Sound s.chart (Founded p source s.Proves)
  proven : ∀ id it, s.Proves id it → p.Fits it ∧ Founded p source s.Proves it

/-- Nothing that is founded is missing. -/
def Complete (p : Problem α) (source : Item α → Prop) (R : α → α → Prop) (s : Search α) : Prop :=
  ∀ it, Founded p source s.Proves it →
    s.chart.contains it.label it.span = true ∨ s.frontier.Offers R it

theorem Sound.exists_proves (hs : s.Sound p source) (hp : p.Posed source) {it : Item α}
    (hfit : p.Fits it) (hc : s.chart.contains it.label it.span = true) :
    ∃ id x, s.Proves id x ∧ x.label = it.label ∧ x.span = it.span := by
  simp only [Chart.contains] at hc
  rw [Std.TreeMap.contains_eq_isSome_getElem?] at hc
  obtain ⟨id, hid⟩ := Option.isSome_iff_exists.mp hc
  obtain ⟨x, hx, hkey⟩ := hs.frontier.agrees.exists_proves hid
  exact ⟨id, x, hx, hp.eq_of_key (hs.proven id x hx).1 hfit hkey⟩

/-- The cheapest entry `e` is popped, and its item proven. -/
structure Pops (s : Search α) (e : Entry Key α Nat) (it : Item α) (t : Search α) : Prop where
  agenda : s.frontier.agenda.pop = (some e, t.frontier.agenda)
  item : s.frontier.arena[e.value]? = some it
  arena : t.frontier.arena = s.frontier.arena
  chart : t.chart = s.chart.record it.label it.span e.value

namespace Pops

/-- The item of a popped entry is recorded. -/
theorem of_pop {f : Frontier α} {rest : Agenda Key α Nat} {e : Entry Key α Nat} {it : Item α}
    (p : Problem α) (chart : Chart) (m n : Nat) (hpop : f.agenda.pop = (some e, rest))
    (hit : f.arena[e.value]? = some it) :
    Pops ⟨f, chart, m⟩ e it (prove p ⟨{ f with agenda := rest }, chart, n⟩ e.value it) := by
  refine ⟨?_, hit, ?_, rfl⟩
  · simp only [prove]
    rw [Frontier.tellIf_agenda]
    exact hpop
  · simp only [prove]
    rw [Frontier.tellIf_arena]

variable {e : Entry Key α Nat} {it : Item α} (h : s.Pops e it t) (hs : s.Sound p source)

include h hs

theorem queued : it.key = e.key ∧ it.total = e.priority ∧ Founded p source s.Proves it ∧
    s.chart.items[it.key]? = none := by
  obtain ⟨it', hit', hkey, htotal, hgood, hnew⟩ := hs.frontier.queued e (Agenda.mem_of_pop h.agenda)
  cases h.item.symm.trans hit'
  exact ⟨hkey, htotal, hgood, hkey ▸ hnew⟩

theorem proves_iff (n : Nat) (x : Item α) :
    t.Proves n x ↔ s.Proves n x ∨ (n = e.value ∧ x = it) := by
  simp only [Proves]
  rw [h.arena, h.chart]
  exact Chart.proves_record h.item (h.queued hs).2.2.2 n x

theorem proves_of_proves (n : Nat) (x : Item α) (hx : s.Proves n x) : t.Proves n x :=
  (h.proves_iff hs n x).mpr (.inl hx)

theorem proves_item : t.Proves e.value it := (h.proves_iff hs _ _).mpr (.inr ⟨rfl, rfl⟩)

theorem size_chart : t.chart.size = s.chart.size + 1 := by
  rw [h.chart]
  exact Chart.size_record e.value (h.queued hs).2.2.2

theorem sound (hp : p.Grounded source) : t.Sound p source := by
  have hmono := h.proves_of_proves hs
  refine ⟨?_, ?_⟩
  · rw [h.chart]
    exact (hs.frontier.record h.agenda h.item h.arena).mono fun _ hgood => hgood.mono hmono
  · intro n x hx
    rcases (h.proves_iff hs n x).mp hx with hx | ⟨-, rfl⟩
    · obtain ⟨hfit, hfounded⟩ := hs.proven n x hx
      exact ⟨hfit, hfounded.mono hmono⟩
    · have hfounded := (h.queued hs).2.2.1
      exact ⟨hp.fits_of_founded (fun n x hx => (hs.proven n x hx).1) hfounded, hfounded.mono hmono⟩

end Pops

/-- Licensed proposals can be made, and what they are made of stays proven. -/
theorem proposing (hR : Gauge R) (hp : p.Grounded source) (hs : s.Sound p source)
    {xs : List (Proposal α)} (hxs : ∀ x ∈ xs, Proposal.Licensed p.grammar s.Proves x) :
    ∃ f, s.frontier.proposeAll p s.chart xs = (f, none) ∧
      Frontier.Proposed p s.chart (Founded p source s.Proves) R s.frontier xs f ∧
      Sound p source ⟨f, s.chart, s.pops⟩ := by
  have hgood : ∀ x ∈ xs, x.span.Valid ∧ Founded p source s.Proves (x.item p) := by
    intro x hx
    exact ⟨(hp.fits_of_licensed (fun n x hx => (hs.proven n x hx).1) (hxs x hx)).2.1,
      .inr ⟨x, hxs x hx, rfl⟩⟩
  obtain ⟨f, heq, hproposed⟩ := Frontier.proposeAll_sound hR xs hs.frontier hgood
  have hsame : s.chart.Proves f.arena = s.chart.Proves s.frontier.arena := by
    funext n x
    exact propext (hproposed.proves n x)
  refine ⟨f, heq, hproposed, ?_, ?_⟩
  · simp only [Proves]
    rw [hsame]
    exact hproposed.sound
  · simp only [Proves]
    rw [hsame]
    exact hs.proven

/-- What combining a proven item with the others does. -/
structure Combined (p : Problem α) (source : Item α → Prop) (R : α → α → Prop) (s : Search α)
    (id : Nat) (it : Item α) (t : Search α) : Prop where
  sound : t.Sound p source
  chart : t.chart = s.chart
  proves : ∀ n x, t.Proves n x ↔ s.Proves n x
  made : s.frontier.proposeAll p s.chart
    (Proposal.ofItem p.grammar s.chart s.frontier.arena id it) = (t.frontier, none)
  keeps : ∀ x, s.frontier.Offers R x → t.frontier.Offers R x
  only : ∀ e ∈ t.frontier.agenda.heap.entries, e ∈ s.frontier.agenda.heap.entries ∨
    ∃ x, Proposal.Extends p.grammar s.Proves id it x ∧ e.priority = (x.item p).total
  ordered : OrderedCost α → s.frontier.agenda.heap.Ordered → t.frontier.agenda.heap.Ordered
  offers : ∀ x ∈ Proposal.ofItem p.grammar s.chart s.frontier.arena id it,
    s.chart.contains (x.item p).label (x.item p).span = true ∨ t.frontier.Offers R (x.item p)

theorem combined (hR : Gauge R) (hp : p.Grounded source) (hs : s.Sound p source) {id : Nat}
    {it : Item α} (hit : s.Proves id it) :
    ∃ t, s.combine p id it = (t, none) ∧ Combined p source R s id it t := by
  obtain ⟨f, chart, pops⟩ := s
  have hextends : ∀ x ∈ Proposal.ofItem p.grammar chart f.arena id it,
      Proposal.Extends p.grammar (chart.Proves f.arena) id it x := fun x hx =>
    Proposal.extends_of_mem_ofItem hp.grammar hs.frontier.agrees hx
  obtain ⟨f', heq, hproposed, hsound⟩ := proposing hR hp hs fun x hx =>
    (hextends x hx).licensed hit
  refine ⟨⟨f', chart, pops⟩, ?_, hsound, rfl, hproposed.proves, heq, hproposed.keeps, ?_, ?_,
    hproposed.made⟩
  · simp only [combine]
    rw [Frontier.combine_eq hs.frontier, heq]
  · intro e he
    rcases hproposed.only e he with he | ⟨x, hx, hpriority⟩
    · exact .inl he
    · exact .inr ⟨x, hextends x hx, hpriority⟩
  · intro hcost ho
    have hordered := Frontier.ordered_proposeAll p chart
      (Proposal.ofItem p.grammar chart f.arena id it) hs.frontier.indexed ho
    rwa [heq] at hordered

/-- A proposal that is licensed after an item is proven has been licensed before, or is made now. -/
theorem complete_of_combined {e : Entry Key α Nat} {it : Item α} (hp : p.Grounded source)
    (hs : s.Sound p source) (hc : s.Complete p source R) (hpop : s.Pops e it s')
    (h : Combined p source R s' e.value it t) : t.Complete p source R := by
  have hkeep : ∀ x, s.chart.contains x.label x.span = true ∨ s.frontier.Offers R x →
      t.chart.contains x.label x.span = true ∨ t.frontier.Offers R x := by
    rintro x (hx | ⟨d, hd, hkey, hr⟩)
    · left
      rw [h.chart, hpop.chart]
      simp only [Chart.contains, Chart.record] at *
      rw [Std.TreeMap.contains_insert, hx, Bool.or_true]
    · by_cases hsame : d.key = e.key
      · left
        rw [h.chart, hpop.chart]
        simp only [Chart.contains, Chart.record]
        rw [Std.TreeMap.contains_insert, show Key.of x.label x.span = it.key from
          hkey.symm.trans (hsame.trans (hpop.queued hs).1.symm)]
        simp [Item.key]
      · exact .inr (h.keeps x ⟨d,
          (Agenda.mem_pop_iff hs.frontier.indexed hpop.agenda d).mpr ⟨hd, hsame⟩, hkey, hr⟩)
  intro x hx
  rcases hx with hx | ⟨y, hy, rfl⟩
  · exact hkeep x (hc x (.inl hx))
  · have hy := hy.mono fun n b hb => (h.proves n b).mp hb
    have hagrees := (hpop.sound hs hp).frontier.agrees
    rcases Proposal.mem_ofItem_of_licensed hp.grammar hagrees
      (fun n b hb => (hpop.proves_iff hs n b).mp hb) hy with hold | hmem
    · exact hkeep _ (hc _ (.inr ⟨y, hold, rfl⟩))
    · rw [h.chart]
      exact h.offers y hmem

/-- Nothing has changed but what is queued or told. -/
def Alike (s t : Search α) : Prop := t.chart = s.chart ∧ t.frontier.arena = s.frontier.arena

omit [Cost α] in
theorem Alike.proves (h : s.Alike t) : t.Proves = s.Proves := by
  simp only [Proves]
  rw [h.1, h.2]

/-- All that a step can do. It neither meets an item that is proven already nor one that cannot
be. -/
theorem step_cases (hR : Gauge R) (hp : p.Grounded source) (hs : s.Sound p source) :
    (s.frontier.agenda.size = 0 ∧ ∃ t, s.step p = (t, some .exhausted) ∧ s.Alike t) ∨
    (0 < p.maxPops ∧ ∃ t, s.step p = (t, some .popLimit) ∧ s.Alike t) ∨
    ∃ e it t, s.Pops e it t ∧
      ((isGoal p it = true ∧ ∃ u, s.step p = (u, some (.found e.value it.inside)) ∧ t.Alike u) ∨
        (isGoal p it = false ∧
          ∃ u, s.step p = (u, none) ∧ Combined p source R t e.value it u)) := by
  obtain ⟨⟨arena, agenda, log⟩, chart, pops⟩ := s
  rcases hpop : agenda.pop with ⟨_ | e, rest⟩
  · left
    obtain ⟨hsize, -⟩ := Agenda.pop_none (congrArg Prod.fst hpop)
    simp only [step, hpop]
    exact ⟨hsize, _, rfl, rfl, rfl⟩
  · right
    obtain ⟨it, hit, hkey, -, -, hnew⟩ := hs.frontier.queued e (Agenda.mem_of_pop hpop)
    dsimp only at hit hnew
    by_cases hlimit : 0 < p.maxPops ∧ p.maxPops < ((pops + 1 : Nat) : Int)
    · left
      simp only [step, hpop]
      rw [if_pos hlimit]
      exact ⟨hlimit.1, _, rfl, rfl, rfl⟩
    · right
      -- the state in which the item is proven, and nothing has been made of it yet
      let before : Search α := ⟨⟨arena, rest, log⟩, chart, pops + 1⟩
      have hpops : Pops ⟨⟨arena, agenda, log⟩, chart, pops⟩ e it (before.prove p e.value it) :=
        .of_pop p chart pops (pops + 1) hpop hit
      have hcontains : chart.contains it.label it.span = false :=
        (Map.contains_eq_false_iff _ _).mpr (hkey.symm ▸ hnew : chart.items[it.key]? = none)
      have hstep : step p ⟨⟨arena, agenda, log⟩, chart, pops⟩ = before.advance p e.value it := by
        simp only [step, hpop, hit]
        rw [if_neg hlimit]
      refine ⟨e, it, _, hpops, ?_⟩
      rw [hstep]
      unfold advance
      rw [if_neg (by rw [hcontains]; exact Bool.false_ne_true)]
      dsimp only
      cases hgoal : isGoal p it with
      | true =>
          rw [if_pos rfl]
          exact .inl ⟨rfl, _, rfl, rfl, rfl⟩
      | false =>
          rw [if_neg Bool.false_ne_true]
          obtain ⟨u, hu, hcombined⟩ := combined hR hp (hpops.sound hs hp) (hpops.proves_item hs)
          rw [hu]
          exact .inr ⟨rfl, u, rfl, hcombined⟩

/-- A step that does not end the search proves an item and combines it. -/
theorem step_next (hR : Gauge R) (hp : p.Grounded source) (hs : s.Sound p source)
    (hstep : s.step p = (t, none)) : ∃ e it u, s.Pops e it u ∧ isGoal p it = false ∧
      Combined p source R u e.value it t := by
  rcases step_cases hR hp hs with ⟨-, t', ht', -⟩ | ⟨-, t', ht', -⟩ |
    ⟨e, it, u, hpop, ⟨-, v, hv, -⟩ | ⟨hgoal, v, hv, hcombined⟩⟩
  · cases hstep.symm.trans ht'
  · cases hstep.symm.trans ht'
  · cases hstep.symm.trans hv
  · cases hstep.symm.trans hv
    exact ⟨e, it, u, hpop, hgoal, hcombined⟩

/-- What every step preserves holds where the run stops. -/
theorem run_stops {P : Search α → Prop} (hstep : ∀ s t, P s → s.step p = (t, none) → P t)
    (hs : P s) : ∃ t, P t ∧ t.step p = ((run p s).1, some (run p s).2) := by
  fun_induction run p s with
  | case1 s t stop h => exact ⟨s, hs, h⟩
  | case2 s t h ih => exact ih (hstep s t hs h)

omit [Cost α] in
theorem isGoal_iff (it : Item α) :
    isGoal p it = true ↔ it.label = p.grammar.start ∧ it.span = .one 0 p.length := by
  simp only [isGoal]
  simp

/-- What holds of a search still holds after an item is proven and combined. -/
def Preserves (p : Problem α) (source : Item α → Prop) (R : α → α → Prop)
    (I : Search α → Prop) : Prop :=
  ∀ s e it t u, s.Sound p source → s.Complete p source R → I s → s.Pops e it t →
    isGoal p it = false → Combined p source R t e.value it u → I u

theorem Preserves.and {I J : Search α → Prop} (hI : Preserves p source R I)
    (hJ : Preserves p source R J) : Preserves p source R fun s => I s ∧ J s := by
  intro s e it t u hs hc ⟨hi, hj⟩ hpop hgoal hcombined
  exact ⟨hI s e it t u hs hc hi hpop hgoal hcombined, hJ s e it t u hs hc hj hpop hgoal hcombined⟩

/-- The goal is not proven before the last step. -/
def Open (p : Problem α) (s : Search α) : Prop := ∀ id it, s.Proves id it → isGoal p it = false

theorem preserves_open : Preserves p source R (Open p) := by
  intro s e it t u hs _ hi hpop hgoal hcombined id x hx
  rcases (hpop.proves_iff hs id x).mp ((hcombined.proves id x).mp hx) with hold | ⟨-, rfl⟩
  · exact hi id x hold
  · exact hgoal

theorem run_invariant {I : Search α → Prop} (hR : Gauge R) (hp : p.Grounded source)
    (hI : Preserves p source R I) (hs : s.Sound p source) (hc : s.Complete p source R) (hi : I s) :
    ∃ t, (t.Sound p source ∧ t.Complete p source R ∧ I t) ∧
      t.step p = ((run p s).1, some (run p s).2) := by
  refine run_stops (?_) ⟨hs, hc, hi⟩
  rintro s t ⟨hs, hc, hi⟩ hstep
  obtain ⟨e, it, u, hpop, hgoal, hcombined⟩ := step_next hR hp hs hstep
  exact ⟨hcombined.sound, complete_of_combined hp hs hc hpop hcombined,
    hI s e it u t hs hc hi hpop hgoal hcombined⟩

end Search

end Discontinuous
