import Discontinuous.Proofs.Frontier
import Discontinuous.Proofs.Grammar

/-!
Proposals. A proposal is licensed by a clause and proven items that are its children. Combining a
newly proven item makes licensed proposals only, and all of them that have it for a child. Siblings
are looked up between proposals, but no proposal changes what is proven, so that all of them may as
well be listed first.
-/
namespace Discontinuous

variable {α : Type} [Cost α]

namespace Proposal

inductive Licensed (g : Grammar α) (proves : Nat → Item α → Prop) : Proposal α → Prop where
  | unary {c : Clause α} {id : Nat} {b : Item α} {s : Span} : c ∈ g.clauses → c.right = none →
      proves id b → b.label = c.left → c.join.join b.span ⟨0, 0, 0, 0⟩ = some s →
      Licensed g proves ⟨c, s, some (id : Int), none, Cost.add b.inside c.cost⟩
  | binary {c : Clause α} {r : Label} {id id' : Nat} {b b' : Item α} {s : Span} :
      c ∈ g.clauses → c.right = some r → proves id b → b.label = c.left → proves id' b' →
      b'.label = r → c.join.join b.span b'.span = some s →
      Licensed g proves ⟨c, s, some (id : Int), some (id' : Int),
        Cost.add (Cost.add b.inside b'.inside) c.cost⟩

/-- Proposals that have a given item for one of their children, and proven ones for the other. -/
inductive Extends (g : Grammar α) (proves : Nat → Item α → Prop) (id : Nat) (it : Item α) :
    Proposal α → Prop where
  | unary {c : Clause α} {s : Span} : c ∈ g.clauses → c.right = none → it.label = c.left →
      c.join.join it.span ⟨0, 0, 0, 0⟩ = some s →
      Extends g proves id it ⟨c, s, some (id : Int), none, Cost.add it.inside c.cost⟩
  | left {c : Clause α} {r : Label} {n : Nat} {b : Item α} {s : Span} : c ∈ g.clauses →
      c.right = some r → it.label = c.left → proves n b → b.label = r →
      c.join.join it.span b.span = some s → Extends g proves id it
        ⟨c, s, some (id : Int), some (n : Int), Cost.add (Cost.add it.inside b.inside) c.cost⟩
  | right {c : Clause α} {n : Nat} {b : Item α} {s : Span} : c ∈ g.clauses →
      c.right = some it.label → proves n b → b.label = c.left →
      c.join.join b.span it.span = some s → Extends g proves id it
        ⟨c, s, some (n : Int), some (id : Int), Cost.add (Cost.add b.inside it.inside) c.cost⟩

/-- The item that is proposed. -/
def item (p : Problem α) (x : Proposal α) : Item α :=
  ⟨x.clause.lhs, x.span, x.inside, Cost.add x.inside (p.heuristic x.clause.lhs x.span p.length),
    some x.clause, x.left, x.right⟩

theorem Licensed.mono {g : Grammar α} {proves proves' : Nat → Item α → Prop}
    (hle : ∀ id it, proves id it → proves' id it) {x : Proposal α} (hx : Licensed g proves x) :
    Licensed g proves' x := by
  cases hx with
  | unary hc hr hb hl hj => exact .unary hc hr (hle _ _ hb) hl hj
  | binary hc hr hb hl hb' hl' hj => exact .binary hc hr (hle _ _ hb) hl (hle _ _ hb') hl' hj

/-- The proven items that are asked for, as they stand in the arena. -/
def siblings (chart : Chart) (arena : Arena α) (label : Label) (q : Option Query) :
    List (Nat × Item α) :=
  (chart.places label q).filterMap fun id => arena[id]?.map (id, ·)

/-- By a clause whose left or only child is `it`. -/
def asLeft (chart : Chart) (arena : Arena α) (id : Nat) (it : Item α) (c : Clause α) :
    List (Proposal α) :=
  match c.right with
  | none => (ofOnly c (id, it)).toList
  | some right =>
    (siblings chart arena right (c.join.rightSibling it.span)).filterMap (ofPair c (id, it))

/-- By a clause whose right child is `it`. -/
def asRight (chart : Chart) (arena : Arena α) (id : Nat) (it : Item α) (c : Clause α) :
    List (Proposal α) :=
  (siblings chart arena c.left (c.join.leftSibling it.span)).filterMap (ofPair c · (id, it))

/-- All proposals from `it` and its proven siblings. -/
def ofItem (g : Grammar α) (chart : Chart) (arena : Arena α) (id : Nat) (it : Item α) :
    List (Proposal α) :=
  (g.byLeft it.label).flatMap (asLeft chart arena id it) ++
    (g.byRight it.label).flatMap (asRight chart arena id it)

variable {g : Grammar α} {chart : Chart} {arena : Arena α} {id : Nat} {it : Item α}
  {x : Proposal α}

omit [Cost α] in
theorem mem_siblings {l : Label} {q : Option Query} {n : Nat} {b : Item α} :
    (n, b) ∈ siblings chart arena l q ↔
      ∃ q', q = some q' ∧ n ∈ chart.lookup l q' ∧ arena[n]? = some b := by
  simp only [siblings]
  cases q with
  | none => simp [Chart.places]
  | some q => simp [Chart.places, List.mem_filterMap]

omit [Cost α] in
theorem proves_of_siblings (ha : chart.Agrees arena) {l : Label} {q : Option Query} {n : Nat}
    {b : Item α} (h : (n, b) ∈ siblings chart arena l q) :
    chart.Proves arena n b ∧ b.label = l := by
  obtain ⟨q', -, hlookup, hb⟩ := mem_siblings.mp h
  obtain ⟨b', hb', hl⟩ := ha.proves_of_lookup hlookup
  cases hb.symm.trans hb'.2
  exact ⟨hb', hl⟩

theorem extends_of_mem_asLeft (ha : chart.Agrees arena) {c : Clause α} (hc : c ∈ g.clauses)
    (hl : it.label = c.left) (hx : x ∈ asLeft chart arena id it c) :
    Extends g (chart.Proves arena) id it x := by
  simp only [asLeft] at hx
  split at hx
  next hr =>
    rw [Option.mem_toList] at hx
    obtain ⟨s, hj, rfl⟩ := Option.map_eq_some_iff.mp hx
    exact .unary hc hr hl hj
  next r hr =>
    obtain ⟨⟨n, b⟩, hmem, hx⟩ := List.mem_filterMap.mp hx
    obtain ⟨hb, hbl⟩ := proves_of_siblings ha hmem
    obtain ⟨s, hj, rfl⟩ := Option.map_eq_some_iff.mp hx
    exact .left hc hr hl hb hbl hj

theorem extends_of_mem_asRight (ha : chart.Agrees arena) {c : Clause α} (hc : c ∈ g.clauses)
    (hr : c.right = some it.label) (hx : x ∈ asRight chart arena id it c) :
    Extends g (chart.Proves arena) id it x := by
  simp only [asRight] at hx
  obtain ⟨⟨n, b⟩, hmem, hx⟩ := List.mem_filterMap.mp hx
  obtain ⟨hb, hbl⟩ := proves_of_siblings ha hmem
  obtain ⟨s, hj, rfl⟩ := Option.map_eq_some_iff.mp hx
  exact .right hc hr hb hbl hj

theorem extends_of_mem_ofItem (hg : g.WellFormed) (ha : chart.Agrees arena)
    (hx : x ∈ ofItem g chart arena id it) : Extends g (chart.Proves arena) id it x := by
  rcases List.mem_append.mp hx with hx | hx
  · obtain ⟨c, hc, hx⟩ := List.mem_flatMap.mp hx
    obtain ⟨hc, hl⟩ := hg.mem_byLeft.mp hc
    exact extends_of_mem_asLeft ha hc hl.symm hx
  · obtain ⟨c, hc, hx⟩ := List.mem_flatMap.mp hx
    obtain ⟨hc, hr⟩ := hg.mem_byRight.mp hc
    exact extends_of_mem_asRight ha hc hr hx

theorem Extends.licensed {proves : Nat → Item α → Prop} (hx : Extends g proves id it x)
    (hit : proves id it) : Licensed g proves x := by
  cases hx with
  | unary hc hr hl hj => exact .unary hc hr hit hl hj
  | left hc hr hl hb hbl hj => exact .binary hc hr hit hl hb hbl hj
  | right hc hr hb hbl hj => exact .binary hc hr hb hbl hit rfl hj

/-- A licensed proposal that needs the item is among those made from it. -/
theorem mem_ofItem_of_licensed (hg : g.WellFormed) (ha : chart.Agrees arena)
    {proves : Nat → Item α → Prop}
    (hnew : ∀ n b, chart.Proves arena n b → proves n b ∨ (n = id ∧ b = it))
    (hx : Licensed g (chart.Proves arena) x) :
    Licensed g proves x ∨ x ∈ ofItem g chart arena id it := by
  cases hx with
  | @unary c n b s hc hr hb hl hj =>
      rcases hnew n b hb with hold | ⟨rfl, rfl⟩
      · exact .inl (.unary hc hr hold hl hj)
      · refine .inr (List.mem_append_left _ (List.mem_flatMap.mpr ⟨c, ?_, ?_⟩))
        · exact hg.mem_byLeft.mpr ⟨hc, hl.symm⟩
        · simp only [asLeft]
          rw [hr]
          simp [ofOnly, hj]
  | @binary c r n n' b b' s hc hr hb hl hb' hl' hj =>
      obtain ⟨⟨q, hq, hasks⟩, q', hq', hasks'⟩ :=
        JoinType.siblings_of_join (hg.isUnary_eq_false hc hr) hj
      rcases hnew n b hb with hold | ⟨rfl, rfl⟩
      · rcases hnew n' b' hb' with hold' | ⟨rfl, rfl⟩
        · exact .inl (.binary hc hr hold hl hold' hl' hj)
        · refine .inr (List.mem_append_right _ (List.mem_flatMap.mpr ⟨c, ?_, ?_⟩))
          · exact hg.mem_byRight.mpr ⟨hc, hl' ▸ hr⟩
          · refine List.mem_filterMap.mpr ⟨(n, b), mem_siblings.mpr ⟨q', hq', ?_, hb.2⟩, ?_⟩
            · rw [← hl]
              exact ha.mem_lookup hb hasks'
            · simp [ofPair, hj]
      · refine .inr (List.mem_append_left _ (List.mem_flatMap.mpr ⟨c, ?_, ?_⟩))
        · exact hg.mem_byLeft.mpr ⟨hc, hl.symm⟩
        · simp only [asLeft]
          rw [hr]
          refine List.mem_filterMap.mpr ⟨(n', b'), mem_siblings.mpr ⟨q, hq, ?_, hb'.2⟩, ?_⟩
          · rw [← hl']
            exact ha.mem_lookup hb' hasks
          · simp [ofPair, hj]

end Proposal

namespace Frontier

variable {β : Type} {p : Problem α} {chart : Chart} {f f' : Frontier α} {good : Item α → Prop}

/-- Makes proposals in order, up to the first that cannot be. -/
def proposeAll (p : Problem α) (chart : Chart) (f : Frontier α) (xs : List (Proposal α)) :
    Frontier α × Option (InvariantError α) :=
  f.each (propose p chart) xs

omit [Cost α] in
theorem each_append (step : Frontier α → β → Frontier α × Option (InvariantError α))
    (xs ys : List β) : f.each step (xs ++ ys) =
      match f.each step xs with
      | (f, some e) => (f, some e)
      | (f, none) => f.each step ys := by
  induction xs generalizing f with
  | nil => rfl
  | cons x xs ih =>
      simp only [List.cons_append, each]
      rcases step f x with ⟨f', _ | e⟩
      · exact ih
      · rfl

theorem proposeIf_eq (x : Option (Proposal α)) :
    f.proposeIf p chart x = f.proposeAll p chart x.toList := by
  cases x with
  | none => rfl
  | some x =>
      simp only [proposeIf, proposeAll, Option.toList_some, each]
      rcases f.propose p chart x with ⟨f', _ | e⟩ <;> rfl

/-- The frontier is sound beside the chart, and holds the same proven items as another one. -/
structure Beside (chart : Chart) (f f' : Frontier α) : Prop where
  sound : f'.Sound chart fun _ => True
  proves : ∀ id it, chart.Proves f'.arena id it ↔ chart.Proves f.arena id it

omit [Cost α] in
theorem Beside.refl (hf : f.Sound chart fun _ => True) : Beside chart f f :=
  ⟨hf, fun _ _ => Iff.rfl⟩

omit [Cost α] in
theorem Beside.trans {f'' : Frontier α} (h : Beside chart f f') (h' : Beside chart f' f'') :
    Beside chart f f'' :=
  ⟨h'.sound, fun id it => (h'.proves id it).trans (h.proves id it)⟩

theorem beside_propose (hf : f.Sound chart fun _ => True) (x : Proposal α) :
    Beside chart f (f.propose p chart x).1 := by
  simp only [propose]
  by_cases hvalid : x.span.Valid
  · rw [if_neg (not_not.mpr hvalid)]
    by_cases hc : chart.contains x.clause.lhs x.span = true
    · rw [if_pos hc]
      exact .refl hf
    · rw [if_neg hc]
      have hnew : chart.items[(x.item p).key]? = none :=
        (Map.contains_eq_false_iff _ _).mp (Bool.eq_false_of_not_eq_true hc)
      have henq := enqueued (p := p) hf trivial hnew
      exact ⟨henq.sound, henq.proves⟩
  · rw [if_pos hvalid]
    exact ⟨⟨hf.indexed, hf.agrees, hf.queued, hf.balance⟩, fun _ _ => Iff.rfl⟩

/-- Proposals change nothing that is proven, whether or not all of them can be made. -/
theorem beside_proposeAll (hf : f.Sound chart fun _ => True) (xs : List (Proposal α)) :
    Beside chart f (f.proposeAll p chart xs).1 := by
  simp only [proposeAll]
  induction xs generalizing f with
  | nil => exact .refl hf
  | cons x xs ih =>
      have hfirst := beside_propose (p := p) hf x
      rw [each]
      rcases hx : f.propose p chart x with ⟨f', _ | e⟩
      · rw [hx] at hfirst
        exact hfirst.trans (ih hfirst.sound)
      · rw [hx] at hfirst
        exact hfirst

/-- Steps that make proposals of their own, from whatever has become of the frontier. -/
theorem each_eq_proposeAll {step : Frontier α → β → Frontier α × Option (InvariantError α)}
    {make : β → List (Proposal α)} {xs : List β} (hf : f.Sound chart fun _ => True)
    (hstep : ∀ f', Beside chart f f' → ∀ x ∈ xs, step f' x = f'.proposeAll p chart (make x)) :
    f.each step xs = f.proposeAll p chart (xs.flatMap make) := by
  induction xs generalizing f with
  | nil => rfl
  | cons x xs ih =>
      have hfirst := beside_proposeAll (p := p) hf (make x)
      have hx := hstep f (.refl hf) x List.mem_cons_self
      rw [List.flatMap_cons, proposeAll, each_append, each, hx]
      simp only [proposeAll] at hfirst ⊢
      rcases hmade : f.each (propose p chart) (make x) with ⟨f', _ | e⟩
      · rw [hmade] at hfirst
        exact ih hfirst.sound fun f'' hbeside y hy =>
          hstep f'' (hfirst.trans hbeside) y (List.mem_cons_of_mem x hy)
      · rfl

omit [Cost α] in
/-- A place that is asked for is proven, so that the same item stands there as before. -/
theorem Beside.getElem?_eq (h : Beside chart f f') (hf : f.Sound chart fun _ => True) {l : Label}
    {q : Option Query} {id : Nat} (hid : id ∈ chart.places l q) : f'.arena[id]? = f.arena[id]? := by
  cases q with
  | none => cases hid
  | some q =>
      obtain ⟨it, hit, -⟩ := hf.agrees.proves_of_lookup hid
      rw [hit.2, ((h.proves id it).mpr hit).2]

theorem each_proposeWith_eq (hf : f.Sound chart fun _ => True) (hbeside : Beside chart f f')
    (make : Nat × Item α → Option (Proposal α)) (l : Label) (q : Option Query) :
    f'.each (proposeWith p chart make) (chart.places l q) =
      f'.proposeAll p chart ((Proposal.siblings chart f.arena l q).filterMap make) := by
  have hmake : ∀ f'', Beside chart f' f'' → ∀ id ∈ chart.places l q,
      f''.proposeWith p chart make id =
        f''.proposeAll p chart (f.arena[id]?.bind fun it => make (id, it)).toList := by
    intro f'' hbeside' id hid
    rw [proposeWith, proposeIf_eq, (hbeside.trans hbeside').getElem?_eq hf hid]
  rw [each_eq_proposeAll hbeside.sound hmake, Proposal.siblings, List.filterMap_filterMap,
    List.filterMap_eq_flatMap_toList]
  simp only [Option.bind_map]
  rfl

/-- Whether siblings are looked up one by one or all at once makes no difference. -/
theorem combine_eq (hf : f.Sound chart good) (id : Nat) (it : Item α) :
    f.combine p chart (id, it) =
      f.proposeAll p chart (Proposal.ofItem p.grammar chart f.arena id it) := by
  have hf : f.Sound chart fun _ => True := hf.mono fun _ _ => trivial
  have hleft : ∀ f', Beside chart f f' → ∀ c ∈ p.grammar.byLeft it.label,
      f'.proposeLeft p chart (id, it) c =
        f'.proposeAll p chart (Proposal.asLeft chart f.arena id it c) := by
    intro f' hbeside c _
    simp only [proposeLeft, Proposal.asLeft]
    cases c.right with
    | none => exact proposeIf_eq _
    | some right => exact each_proposeWith_eq hf hbeside _ _ _
  have hright : ∀ f', Beside chart f f' → ∀ c ∈ p.grammar.byRight it.label,
      f'.proposeRight p chart (id, it) c =
        f'.proposeAll p chart (Proposal.asRight chart f.arena id it c) :=
    fun f' hbeside c _ => each_proposeWith_eq hf hbeside _ _ _
  simp only [combine, Proposal.ofItem, proposeAll]
  rw [each_append, each_eq_proposeAll hf hleft]
  have hfirst := beside_proposeAll (p := p) hf
    ((p.grammar.byLeft it.label).flatMap (Proposal.asLeft chart f.arena id it))
  simp only [proposeAll] at hfirst ⊢
  rcases hmade : f.each (propose p chart) _ with ⟨f', _ | e⟩
  · rw [hmade] at hfirst
    exact each_eq_proposeAll hfirst.sound fun f'' hbeside => hright f'' (hfirst.trans hbeside)
  · rfl

end Frontier

end Discontinuous
