import Discontinuous.Proofs.Partition

/-!
Which proposals a search makes. Every clause is tried once on every choice of proven children that
it can join, when the last of them is proven, and nothing else is proposed. So asking the index for
siblings comes to the same as going through all that is proven.
-/
namespace Discontinuous

namespace Chart

/-- No place is listed twice under one boundary. -/
def Distinct (c : Chart) : Prop := ∀ slot, (c.index.getD slot #[]).toList.Nodup

theorem distinct_empty : empty.Distinct := by
  intro slot
  simp [empty, Std.TreeMap.getD_emptyc]

/-- A place that is not listed yet can be recorded. -/
theorem Distinct.record {c : Chart} (h : c.Distinct) (l : Label) (s : Span) {id : Nat}
    (hnew : ∀ slot, id ∉ c.index.getD slot #[]) : (c.record l s id).Distinct := by
  intro slot
  unfold Chart.record
  rw [getD_list c.index id (nodup_slotsOf l s) slot]
  split
  next =>
    rw [Array.toList_push]
    apply List.Nodup.append (h slot) (List.nodup_singleton id)
    intro n hn hid
    cases List.mem_singleton.mp hid
    exact hnew slot (Array.mem_toList_iff.mp hn)
  next => exact h slot

end Chart

variable {α : Type} [Cost α]

/-- Nothing joins with itself. -/
theorem JoinType.join_self {jt : JoinType} {b : Span} (hu : jt.isUnary = false) (hb : b.Valid) :
    jt.join b b = none := by
  cases h : jt.join b b with
  | none => rfl
  | some s =>
      have hfirst : b.Covers b.l1 := .inl ⟨Int.le_refl _, hb.2.1⟩
      exact absurd ⟨hfirst, hfirst⟩ ((joined_of_join hu h hb hb).disjoint b.l1)

namespace Proposal

/-- The clause of a proposal and the places of its children. -/
def source (x : Proposal α) : Nat × Option Int × Option Int := (x.clause.id, x.left, x.right)

variable {g : Grammar α} {chart : Chart} {arena : Arena α} {id : Nat} {it : Item α} {c : Clause α}
  {x : Proposal α}

omit [Cost α] in
theorem nodup_filterMap_place (arena : Arena α) {ids : List Nat} (h : ids.Nodup) :
    ((ids.filterMap fun id => arena[id]?.map (id, ·)).map Prod.fst).Nodup := by
  rw [List.map_filterMap]
  apply List.Nodup.filterMap _ h
  intro n n' k hn hn'
  rw [Option.map_map, Option.mem_map] at hn hn'
  obtain ⟨b, -, rfl⟩ := hn
  obtain ⟨b', -, heq⟩ := hn'
  exact heq.symm

omit [Cost α] in
theorem nodup_siblings (hd : chart.Distinct) (arena : Arena α) (l : Label) (q : Option Query) :
    ((siblings chart arena l q).map Prod.fst).Nodup := by
  cases q with
  | none => exact List.nodup_nil
  | some q => exact nodup_filterMap_place arena (hd _)

theorem clause_of_mem_asLeft (hx : x ∈ asLeft chart arena id it c) :
    x.clause = c ∧ x.left = some (id : Int) := by
  unfold asLeft at hx
  split at hx
  next =>
    obtain ⟨s, -, rfl⟩ := Option.map_eq_some_iff.mp (Option.mem_toList.mp hx)
    exact ⟨rfl, rfl⟩
  next =>
    obtain ⟨⟨n, b⟩, -, hx⟩ := List.mem_filterMap.mp hx
    obtain ⟨s, -, rfl⟩ := Option.map_eq_some_iff.mp hx
    exact ⟨rfl, rfl⟩

theorem clause_of_mem_asRight (hx : x ∈ asRight chart arena id it c) : x.clause = c := by
  obtain ⟨⟨n, b⟩, -, hx⟩ := List.mem_filterMap.mp hx
  obtain ⟨s, -, rfl⟩ := Option.map_eq_some_iff.mp hx
  rfl

theorem pairwise_asLeft (hd : chart.Distinct) (arena : Arena α) (id : Nat) (it : Item α)
    (c : Clause α) : (asLeft chart arena id it c).Pairwise fun x y => x.source ≠ y.source := by
  unfold asLeft
  split
  next =>
    cases ofOnly c (id, it) with
    | none => exact List.Pairwise.nil
    | some x => exact List.pairwise_singleton _ _
  next r _ =>
    apply List.pairwise_filterMap.mpr
    apply (List.pairwise_map.mp (nodup_siblings hd arena r (c.join.rightSibling it.span))).imp
    rintro ⟨n, b⟩ ⟨n', b'⟩ hne x hx y hy heq
    obtain ⟨s, -, rfl⟩ := Option.map_eq_some_iff.mp hx
    obtain ⟨s', -, rfl⟩ := Option.map_eq_some_iff.mp hy
    simp only [source, Prod.mk.injEq, Option.some.injEq, Int.natCast_inj] at heq
    exact hne heq.2.2

theorem pairwise_asRight (hd : chart.Distinct) (arena : Arena α) (id : Nat) (it : Item α)
    (c : Clause α) : (asRight chart arena id it c).Pairwise fun x y => x.source ≠ y.source := by
  apply List.pairwise_filterMap.mpr
  apply (List.pairwise_map.mp (nodup_siblings hd arena c.left (c.join.leftSibling it.span))).imp
  rintro ⟨n, b⟩ ⟨n', b'⟩ hne x hx y hy heq
  obtain ⟨s, -, rfl⟩ := Option.map_eq_some_iff.mp hx
  obtain ⟨s', -, rfl⟩ := Option.map_eq_some_iff.mp hy
  simp only [source, Prod.mk.injEq, Option.some.injEq, Int.natCast_inj] at heq
  exact hne heq.2.1

omit [Cost α] in
theorem pairwise_flatMap_of_clause {cs : List (Clause α)} {f : Clause α → List (Proposal α)}
    (hcs : cs.Pairwise fun c d => c.id ≠ d.id)
    (hf : ∀ c, (f c).Pairwise fun x y => x.source ≠ y.source)
    (hclause : ∀ c, ∀ x ∈ f c, x.clause = c) :
    (cs.flatMap f).Pairwise fun x y => x.source ≠ y.source := by
  apply List.pairwise_flatMap.mpr
  refine ⟨fun c _ => hf c, hcs.imp ?_⟩
  intro c d hne x hx y hy heq
  rw [← hclause c x hx, ← hclause d y hy] at hne
  exact hne (congrArg Prod.fst heq)

/-- No two proposals from an item are from one clause and the same children. The item would have to
be both of them. -/
theorem pairwise_ofItem (hg : g.WellFormed) (hd : chart.Distinct) (hit : arena[id]? = some it)
    (hvalid : it.span.Valid) :
    (ofItem g chart arena id it).Pairwise fun x y => x.source ≠ y.source := by
  apply List.pairwise_append.mpr
  refine ⟨?_, ?_, ?_⟩
  · exact pairwise_flatMap_of_clause (hg.pairwise_id_ne hg.left _) (pairwise_asLeft hd arena id it)
      fun c x hx => (clause_of_mem_asLeft hx).1
  · exact pairwise_flatMap_of_clause (hg.pairwise_id_ne hg.right _)
      (pairwise_asRight hd arena id it) fun c x hx => clause_of_mem_asRight hx
  · intro x hx y hy heq
    obtain ⟨c, -, hx⟩ := List.mem_flatMap.mp hx
    obtain ⟨c', hc', hy⟩ := List.mem_flatMap.mp hy
    obtain ⟨hc', hr⟩ := hg.mem_byRight.mp hc'
    obtain ⟨⟨n, b⟩, hmem, hy⟩ := List.mem_filterMap.mp hy
    obtain ⟨s, hjoin, rfl⟩ := Option.map_eq_some_iff.mp hy
    obtain ⟨-, -, -, hb⟩ := mem_siblings.mp hmem
    have hplace : n = id := by
      have hleft := congrArg (fun p => p.2.1) heq
      simp only [source, (clause_of_mem_asLeft hx).2, Option.some.injEq, Int.natCast_inj] at hleft
      exact hleft.symm
    rw [hplace, hit] at hb
    cases hb
    rw [JoinType.join_self (hg.isUnary_eq_false hc' hr) hvalid] at hjoin
    cases hjoin

/-- The proven items of a label, found by going through the whole chart. -/
def scan (chart : Chart) (arena : Arena α) (l : Label) : List (Nat × Item α) :=
  (chart.ids.filterMap fun id => arena[id]?.map (id, ·)).filter fun x => decide (x.2.label = l)

section Scan

omit [Cost α]

variable {l : Label}

theorem mem_scan (ha : chart.Agrees arena) (n : Nat) (b : Item α) :
    (n, b) ∈ scan chart arena l ↔ chart.Proves arena n b ∧ b.label = l := by
  unfold scan
  rw [List.mem_filter, decide_eq_true_iff]
  apply and_congr_left'
  rw [List.mem_filterMap]
  constructor
  · rintro ⟨id, hid, hb⟩
    obtain ⟨b', hb', heq⟩ := Option.map_eq_some_iff.mp hb
    cases heq
    obtain ⟨k, hk⟩ := (Map.mem_values _ _).mp (List.mem_mergeSort.mp hid)
    obtain ⟨x, hx, -⟩ := ha.exists_proves hk
    cases hb'.symm.trans hx.2
    exact hx
  · intro hb
    refine ⟨n, List.mem_mergeSort.mpr ((Map.mem_values _ _).mpr ⟨_, hb.1⟩), ?_⟩
    rw [hb.2]
    rfl

theorem nodup_scan (ha : chart.Agrees arena) : (scan chart arena l).Nodup := by
  apply List.Nodup.filter
  apply List.Nodup.of_map Prod.fst
  exact nodup_filterMap_place arena ((List.mergeSort_perm _ _).nodup_iff.mpr ha.nodup_values)

/-- A query that asks for all that will do finds them, each once. -/
theorem perm_scan (ha : chart.Agrees arena) (hd : chart.Distinct) (suits : Span → Bool)
    {q : Option Query} (hq : ∀ s, suits s = true → ∃ q', q = some q' ∧ q'.Asks s) :
    ((siblings chart arena l q).filter fun x => suits x.2.span).Perm
      ((scan chart arena l).filter fun x => suits x.2.span) := by
  apply (List.perm_ext_iff_of_nodup
    ((List.Nodup.of_map _ (nodup_siblings hd arena l q)).filter _) ((nodup_scan ha).filter _)).mpr
  rintro ⟨n, b⟩
  rw [List.mem_filter, List.mem_filter, mem_scan ha]
  apply and_congr_left
  intro hsuits
  constructor
  · exact proves_of_siblings ha
  · rintro ⟨hb, rfl⟩
    obtain ⟨q', hq', hasks⟩ := hq b.span hsuits
    exact mem_siblings.mpr ⟨q', hq', ha.mem_lookup hb hasks, hb.2⟩

/-- Asking for siblings comes to the same as going through all that is proven, on either side. -/
theorem perm_scan_of_isUnary (ha : chart.Agrees arena) (hd : chart.Distinct) {jt : JoinType}
    (hu : jt.isUnary = false) (s : Span) :
    ((siblings chart arena l (jt.rightSibling s)).filter
        fun x => (jt.join s x.2.span).isSome).Perm
      ((scan chart arena l).filter fun x => (jt.join s x.2.span).isSome) ∧
    ((siblings chart arena l (jt.leftSibling s)).filter
        fun x => (jt.join x.2.span s).isSome).Perm
      ((scan chart arena l).filter fun x => (jt.join x.2.span s).isSome) := by
  constructor
  · apply perm_scan ha hd fun b => (jt.join s b).isSome
    intro b hb
    obtain ⟨parent, hparent⟩ := Option.isSome_iff_exists.mp hb
    exact (JoinType.siblings_of_join hu hparent).1
  · apply perm_scan ha hd fun b => (jt.join b s).isSome
    intro b hb
    obtain ⟨parent, hparent⟩ := Option.isSome_iff_exists.mp hb
    exact (JoinType.siblings_of_join hu hparent).2

end Scan

end Proposal

namespace Search

variable {p : Problem α} {source : Item α → Prop} {s t u : Search α} {e : Entry Key α Nat}
  {it : Item α} {made xs : List (Proposal α)}

/-- The proposals from the item that is next to be proven. -/
def proposals (p : Problem α) (s : Search α) : List (Proposal α) :=
  match s.frontier.agenda.pop.1 with
  | none => []
  | some e =>
    match s.frontier.arena[e.value]? with
    | none => []
    | some it =>
      Proposal.ofItem p.grammar (s.chart.record it.label it.span e.value) s.frontier.arena e.value
        it

theorem Pops.proposals_eq (h : s.Pops e it u) :
    s.proposals p = Proposal.ofItem p.grammar u.chart u.frontier.arena e.value it := by
  unfold proposals
  rw [h.agenda, h.chart, h.arena]
  dsimp only
  rw [h.item]

/-- A step proves an item, and then proposes `xs` one after the other. -/
def Makes (p : Problem α) (s : Search α) (xs : List (Proposal α)) (t : Search α) : Prop :=
  s.step p = (t, none) ∧ ∃ e it u, s.Pops e it u ∧
    xs = Proposal.ofItem p.grammar u.chart u.frontier.arena e.value it ∧
    u.frontier.proposeAll p u.chart xs = (t.frontier, none)

theorem makes_proposals (hp : p.Grounded source) (hs : s.Sound p source)
    (hstep : s.step p = (t, none)) : s.Makes p (s.proposals p) t := by
  obtain ⟨e, it, u, hpop, -, hcombined⟩ := step_next gauge_trivial hp hs hstep
  exact ⟨hstep, e, it, u, hpop, hpop.proposals_eq, hpop.proposals_eq ▸ hcombined.made⟩

theorem Makes.eq_proposals (h : s.Makes p xs t) : xs = s.proposals p := by
  obtain ⟨-, e, it, u, hpop, rfl, -⟩ := h
  exact hpop.proposals_eq.symm

/-- A run of steps that do not end the search, with the proposals that are made in it. -/
inductive Records (p : Problem α) (s : Search α) : Search α → List (Proposal α) → Prop where
  | start : Records p s s []
  | step {t u : Search α} {made xs : List (Proposal α)} : Records p s t made → t.Makes p xs u →
      Records p s u (made ++ xs)

theorem Records.leadsTo (h : s.Records p t made) : s.LeadsTo p t := by
  induction h with
  | start => exact .refl
  | step _ hmakes ih => exact ih.tail hmakes.1

theorem LeadsTo.exists_records (hp : p.Grounded source) (hs : s.Sound p source)
    (h : s.LeadsTo p t) : ∃ made, s.Records p t made := by
  induction h with
  | refl => exact ⟨[], .start⟩
  | tail hrun hstep ih =>
      obtain ⟨made, hmade⟩ := ih
      exact ⟨_, hmade.step (makes_proposals hp (LeadsTo.sound hp hs hrun) hstep)⟩

/-- What has been proposed is what clauses make of proven items, each once. -/
structure Exhausts (g : Grammar α) (s : Search α) (made : List (Proposal α)) : Prop where
  licensed : ∀ x, x ∈ made ↔ Proposal.Licensed g s.Proves x
  once : (made.map Proposal.source).Nodup

theorem Pops.value_not_proven (h : s.Pops e it u) (hs : s.Sound p source) (b : Item α) :
    ¬ s.Proves e.value b := by
  intro hb
  exact hs.frontier.value_ne (Agenda.mem_of_pop h.agenda) hb.1 rfl

theorem Pops.distinct (h : s.Pops e it u) (hs : s.Sound p source) (hd : s.chart.Distinct) :
    u.chart.Distinct := by
  rw [h.chart]
  apply hd.record
  intro slot hmem
  obtain ⟨b, hb, -⟩ := (hs.frontier.agrees.index slot e.value).mp hmem
  exact h.value_not_proven hs b hb

/-- What an item adds to what has been proposed, with the item as a child each time. -/
theorem exhausts_step (hp : p.Grounded source) (hs : s.Sound p source) (hd : s.chart.Distinct)
    (h : s.Exhausts p.grammar made) (hmakes : s.Makes p xs t) :
    t.chart.Distinct ∧ t.Exhausts p.grammar (made ++ xs) := by
  obtain ⟨e, it, u, hpop, -, hcombined⟩ := step_next gauge_trivial hp hs hmakes.1
  have hmade : xs = Proposal.ofItem p.grammar u.chart u.frontier.arena e.value it :=
    hmakes.eq_proposals.trans hpop.proposals_eq
  have hu := hpop.sound hs hp
  have hdist := hpop.distinct hs hd
  have hit := hpop.proves_item hs
  refine ⟨hcombined.chart ▸ hdist, ?_, ?_⟩
  · intro x
    have hsame : Proposal.Licensed p.grammar t.Proves x ↔ Proposal.Licensed p.grammar u.Proves x :=
      ⟨.mono fun n b => (hcombined.proves n b).mp, .mono fun n b => (hcombined.proves n b).mpr⟩
    rw [hmade, List.mem_append, hsame, h.licensed]
    constructor
    · rintro (hold | hnew)
      · exact hold.mono (hpop.proves_of_proves hs)
      · exact (Proposal.extends_of_mem_ofItem hp.grammar hu.frontier.agrees hnew).licensed hit
    · exact Proposal.mem_ofItem_of_licensed hp.grammar hu.frontier.agrees
        fun n b hb => (hpop.proves_iff hs n b).mp hb
  · have hnew := Proposal.pairwise_ofItem hp.grammar hdist hit.2 (hu.proven e.value it hit).1.2.1
    rw [hmade, List.map_append]
    apply h.once.append (List.pairwise_map.mpr hnew)
    intro k hold hnew
    obtain ⟨x, hx, rfl⟩ := List.mem_map.mp hold
    obtain ⟨y, hy, hsource⟩ := List.mem_map.mp hnew
    -- the item is a child of whatever is made from it, and was not proven before
    have hchild : y.left = some (e.value : Int) ∨ y.right = some (e.value : Int) := by
      cases Proposal.extends_of_mem_ofItem hp.grammar hu.frontier.agrees hy with
      | unary => exact .inl rfl
      | left => exact .inl rfl
      | right => exact .inr rfl
    have hleft : y.left = x.left := congrArg (fun k => k.2.1) hsource
    have hright : y.right = x.right := congrArg (fun k => k.2.2) hsource
    rw [hleft, hright] at hchild
    obtain ⟨n, b, hn, hb⟩ := ((h.licensed x).mp hx).pointers hchild
    rw [← Int.natCast_inj.mp hn] at hb
    exact hpop.value_not_proven hs b hb

theorem Records.exhausts (hp : p.Grounded source) (hs : s.Sound p source) (hd : s.chart.Distinct)
    (hbegun : s.Exhausts p.grammar []) (h : s.Records p t made) :
    t.chart.Distinct ∧ t.Exhausts p.grammar made := by
  induction h with
  | start => exact ⟨hd, hbegun⟩
  | step hrun hmakes ih => exact exhausts_step hp (hrun.leadsTo.sound hp hs) ih.1 ih.2 hmakes

/-- A search and what has been proposed in it, after one more step. -/
def proceed (p : Problem α) (x : Search α × List (Proposal α)) : Search α × List (Proposal α) :=
  ((x.1.step p).1, x.2 ++ x.1.proposals p)

theorem records_iterate (hp : p.Grounded source) (hs : s.Sound p source) (n : Nat)
    (h : ∀ k < n, (((proceed p)^[k] (s, [])).1.step p).2.isNone = true) :
    s.Records p ((proceed p)^[n] (s, [])).1 ((proceed p)^[n] (s, [])).2 := by
  induction n with
  | zero => exact .start
  | succ n ih =>
      rw [Function.iterate_succ_apply']
      have hrun := ih fun k hk => h k (Nat.lt_succ_of_lt hk)
      have hnone := Option.isNone_iff_eq_none.mp (h n (Nat.lt_succ_self n))
      exact hrun.step (makes_proposals hp (hrun.leadsTo.sound hp hs) (Prod.ext rfl hnone))

end Search

namespace Parser

theorem begun_exhausts (q : Parser α) (ctx : Context α) (tracing : Bool) (sentence : List Token) :
    (q.begun ctx tracing sentence).Exhausts (q.posed ctx tracing sentence).grammar [] := by
  refine ⟨?_, List.nodup_nil⟩
  intro x
  constructor
  · intro hx
    cases hx
  · intro hx
    cases hx with
    | unary _ _ hb => exact absurd hb (begun_proves _ _)
    | binary _ _ hb => exact absurd hb (begun_proves _ _)

/-- Between the steps of a search, the proposals made so far are one for each clause and each choice
of proven children that it joins. The index finds the siblings that going through the chart would
find. -/
theorem proposals_exhaustive (q : Parser α) (ctx : Context α) (tracing : Bool)
    (sentence : List Token) (h : ctx.Takes sentence) (s : Search α)
    (hs : q.Visits ctx tracing sentence s) :
    (∃ made, (q.begun ctx tracing sentence).Records (q.posed ctx tracing sentence) s made) ∧
      (∀ made, (q.begun ctx tracing sentence).Records (q.posed ctx tracing sentence) s made →
        (∀ x, x ∈ made ↔ Proposal.Licensed ctx.grammar s.Proves x) ∧
          (made.map Proposal.source).Nodup) ∧
      ∀ (jt : JoinType) (l : Label) (b : Span), jt.isUnary = false →
        ((Proposal.siblings s.chart s.frontier.arena l (jt.rightSibling b)).filter
            fun x => (jt.join b x.2.span).isSome).Perm
          ((Proposal.scan s.chart s.frontier.arena l).filter
            fun x => (jt.join b x.2.span).isSome) ∧
        ((Proposal.siblings s.chart s.frontier.arena l (jt.leftSibling b)).filter
            fun x => (jt.join x.2.span b).isSome).Perm
          ((Proposal.scan s.chart s.frontier.arena l).filter
            fun x => (jt.join x.2.span b).isSome) := by
  have hp := posed_grounded q tracing h.built h.tags
  have hbegun := begun_exhausts q ctx tracing sentence
  obtain ⟨made, hmade⟩ := hs.run.exists_records hp begun_sound
  have hdistinct := (hmade.exhausts hp begun_sound Chart.distinct_empty hbegun).1
  refine ⟨⟨made, hmade⟩, ?_, ?_⟩
  · intro made' hmade'
    have hexhausts := (hmade'.exhausts hp begun_sound Chart.distinct_empty hbegun).2
    exact ⟨hexhausts.licensed, hexhausts.once⟩
  · intro jt l b hu
    exact Proposal.perm_scan_of_isUnary (hs.sound h.built h.tags).frontier.agrees hdistinct hu b

/-- After four steps each of the binary clauses has been proposed, once. -/
theorem proposals_exhaustive_gapped :
    ∃ (s : Search Price) (made : List (Proposal Price)), gapped.Takes gappedSentence ∧
      unbounded.Visits gapped false gappedSentence s ∧
      (unbounded.begun gapped false gappedSentence).Records
        (unbounded.posed gapped false gappedSentence) s made ∧
      made.map Proposal.source = [(0, some 0, some 2), (1, some 3, some 1)] ∧
      ∀ x, x ∈ made ↔ Proposal.Licensed gapped.grammar s.Proves x := by
  have hrecords := Search.records_iterate (p := unbounded.posed gapped false gappedSentence)
    (s := unbounded.begun gapped false gappedSentence)
    (posed_grounded unbounded false gapped_takes.built gapped_takes.tags) begun_sound 4
    (by decide +kernel)
  have hvisits : unbounded.Visits gapped false gappedSentence _ :=
    ⟨by decide, by decide, hrecords.leadsTo⟩
  refine ⟨_, _, gapped_takes, hvisits, hrecords, by decide +kernel, ?_⟩
  exact ((proposals_exhaustive unbounded gapped false gappedSentence gapped_takes _ hvisits).2.1 _
    hrecords).1

end Parser

end Discontinuous
