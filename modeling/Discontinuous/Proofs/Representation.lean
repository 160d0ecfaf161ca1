import Discontinuous.Proofs.Splice
import Discontinuous.Text.Composed

/-!
What a grammar is, in terms of the additions that it came about by. Requests for clauses are granted
or refused; a grammar has one clause for all requests of the same shape that were granted, at the
least of their costs, and finds it under each of its labels. Arities are settled once and for all.
-/
namespace Discontinuous

namespace Dictionary

variable [Composer]

/-- A label that a name has is never given up. -/
theorem lookup?_intern {d : Dictionary} {name : String} {l : Label} (h : d.lookup? name = some l)
    (other : String) : (d.intern other).1.lookup? name = some l := by
  unfold lookup? at h ⊢
  unfold intern
  rw [Std.TreeMap.get?_eq_getElem?] at h ⊢
  dsimp only
  rw [Std.TreeMap.get?_eq_getElem?]
  cases hother : d.labels[Text.composedString other]? with
  | some k => exact h
  | none => exact Map.getElem?_insert_of_none _ hother h

theorem lookup?_intern_self (d : Dictionary) (name : String) :
    (d.intern name).1.lookup? name = some (d.intern name).2 := by
  unfold lookup? intern
  dsimp only
  rw [Std.TreeMap.get?_eq_getElem?, Std.TreeMap.get?_eq_getElem?]
  cases hname : d.labels[Text.composedString name]? with
  | some l => exact hname
  | none => exact Std.TreeMap.getElem?_insert_self

end Dictionary

/-- A join type is what its yield function is classified as. -/
theorem JoinType.classify_yield (jt : JoinType) : jt.yield.classify jt.isUnary = .ok jt := by
  cases jt <;> rfl

/-- What a caller asks for when adding a clause. -/
structure Request (α : Type) where
  lhs : String
  left : String
  right : Option String
  yield : Yield
  cost : α

/-- The names of a request are those of the labels of a shape. -/
structure Request.For {α : Type} [Composer] (r : Request α) (d : Dictionary) (s : Clause.Shape) :
    Prop where
  lhs : d.lookup? r.lhs = some s.lhs
  left : d.lookup? r.left = some s.left
  right : r.right.map d.lookup? = s.right.map some
  yield : r.yield = s.yield

namespace Request.For

variable {α : Type} [Composer] {r : Request α} {d d' : Dictionary} {s s' : Clause.Shape}

theorem mono (h : r.For d s)
    (hd : ∀ name l, d.lookup? name = some l → d'.lookup? name = some l) : r.For d' s := by
  refine ⟨hd _ _ h.lhs, hd _ _ h.left, ?_, h.yield⟩
  have hright := h.right
  cases hr : r.right with
  | none => rwa [hr] at hright
  | some name =>
      cases hs : s.right with
      | none =>
          rw [hr, hs] at hright
          cases hright
      | some l =>
          rw [hr, hs] at hright
          exact congrArg some (hd _ _ (Option.some.inj hright))

/-- A request is for one shape. -/
theorem unique (h : r.For d s) (h' : r.For d s') : s = s' := by
  obtain ⟨lhs, left, right, y⟩ := s
  obtain ⟨lhs', left', right', y'⟩ := s'
  have hlhs : lhs = lhs' := Option.some.inj (h.lhs.symm.trans h'.lhs)
  have hleft : left = left' := Option.some.inj (h.left.symm.trans h'.left)
  have hright : right = right' :=
    Option.map_injective (Option.some_injective _) (h.right.symm.trans h'.right)
  have hyield : y = y' := h.yield.symm.trans h'.yield
  rw [hlhs, hleft, hright, hyield]

end Request.For

namespace Grammar

variable {α : Type}

/-- An arity that is registered is that of a use, or was there before. -/
theorem registerUses_cases {uses : List (Label × Nat)} {a : Map Label Nat} {l : Label} {n : Nat}
    (h : (registerUses a uses)[l]? = some n) : (l, n) ∈ uses ∨ a[l]? = some n := by
  unfold registerUses at h
  induction uses generalizing a with
  | nil => exact .inr h
  | cons use uses ih =>
      rcases ih h with hmem | hrest
      · exact .inl (List.mem_cons_of_mem _ hmem)
      · rcases (Map.getElem?_insert_eq_some_iff _ _ _ _ _).mp hrest with ⟨rfl, rfl⟩ | ⟨-, hrest⟩
        · exact .inl List.mem_cons_self
        · exact .inr hrest

/-- Clauses use their labels with one range or two. -/
theorem usesOf_bounds {c : Clause α} (hunary : c.right.isNone = c.join.isUnary) {l : Label}
    {n : Nat} (h : (l, n) ∈ usesOf c) : n = 1 ∨ n = 2 := by
  unfold usesOf at h
  rcases List.mem_cons.mp h with heq | h
  · cases heq
    exact c.join.arity_bounds
  · rcases List.mem_cons.mp h with heq | h
    · cases heq
      exact c.join.childArity_left_bounds
    · obtain ⟨r, hr, heq⟩ := Option.map_eq_some_iff.mp (Option.mem_toList.mp h)
      cases heq
      apply JoinType.childArity_right_bounds
      rw [← hunary, hr]
      rfl

/-- Every clause has its place by its shape, and was asked for at its cost. Whatever was granted is
there for no more than was asked. -/
structure Tallies [Composer] (g : Grammar α) [Cost α] (granted : List (Request α)) : Prop where
  shapes : ∀ (s : Clause.Shape) (i : Nat), g.shapes[s]? = some i ↔
    g.clauses[i]?.map Clause.shape = some s
  arities : ∀ (l : Label) (n : Nat), g.arities[l]? = some n → n = 1 ∨ n = 2
  start : g.arities[g.start]? = some 1
  attained : ∀ c ∈ g.clauses, ∃ r ∈ granted, r.For g.dict c.shape ∧ r.cost = c.cost
  served : ∀ r ∈ granted, Cost.isAdmitted r.cost = true ∧
    ∃ c ∈ g.clauses, r.For g.dict c.shape ∧ Cost.le c.cost r.cost = true

variable [Composer] [Cost α] {g : Grammar α} {granted : List (Request α)}

theorem tallies_new (start : String) : (new start : Grammar α).Tallies [] := by
  refine ⟨?_, ?_, Std.TreeMap.getElem?_insert_self, ?_, ?_⟩
  · intro s i
    simp [new]
  · intro l n h
    rcases (Map.getElem?_insert_eq_some_iff _ _ _ _ _).mp h with ⟨-, rfl⟩ | ⟨-, h⟩
    · exact .inl rfl
    · simp at h
  · intro c h
    simp [new] at h
  · intro r h
    cases h

/-- Clauses of one shape are the same clause. -/
theorem Tallies.unique (h : g.Tallies granted) {i j : Nat} {c d : Clause α}
    (hc : g.clauses[i]? = some c) (hd : g.clauses[j]? = some d) (hshape : c.shape = d.shape) :
    i = j := by
  have hi := (h.shapes c.shape i).mpr (by rw [hc, Option.map_some])
  have hj := (h.shapes c.shape j).mpr (by rw [hd, Option.map_some, hshape])
  exact Option.some.inj (hi.symm.trans hj)

/-- Dictionaries, arities and pre-terminals may grow. -/
theorem Tallies.grow (h : g.Tallies granted) {d : Dictionary} {a : Map Label Nat}
    {p : Map Label Unit} (hd : ∀ name l, g.dict.lookup? name = some l → d.lookup? name = some l)
    (ha : ∀ (l : Label) (n : Nat), g.arities[l]? = some n → a[l]? = some n)
    (hn : ∀ (l : Label) (n : Nat), a[l]? = some n → n = 1 ∨ n = 2) :
    { g with dict := d, arities := a, preterminals := p }.Tallies granted := by
  refine ⟨h.shapes, hn, ha _ _ h.start, ?_, ?_⟩
  · intro c hc
    obtain ⟨r, hr, hfor, hcost⟩ := h.attained c hc
    exact ⟨r, hr, hfor.mono hd, hcost⟩
  · intro r hr
    obtain ⟨hadmitted, c, hc, hfor, hle⟩ := h.served r hr
    exact ⟨hadmitted, c, hc, hfor.mono hd, hle⟩

theorem tallies_addPreterminal (h : g.Tallies granted) (name : String) :
    (g.addPreterminal name).1.Tallies granted := by
  have hd : ∀ other l, g.dict.lookup? other = some l →
      (g.dict.intern name).1.lookup? other = some l :=
    fun other l hl => Dictionary.lookup?_intern hl name
  unfold addPreterminal
  dsimp only
  split
  next => exact h.grow hd (fun _ _ => id) h.arities
  next hok =>
    apply h.grow hd
    · intro l n hl
      exact insert_of_checkArity (g := { g with dict := (g.dict.intern name).1 }) hok hl
    · intro l n hl
      rcases (Map.getElem?_insert_eq_some_iff _ _ _ _ _).mp hl with ⟨-, rfl⟩ | ⟨-, hl⟩
      · exact .inl rfl
      · exact h.arities l n hl

omit [Composer] in
/-- The clause that is kept is the old one at the lesser of two costs, in its old place. -/
theorem getElem?_keepCheaper {c : Clause α} (hc : g.clauses[c.id]? = some c) (cost : α) (j : Nat) :
    (g.keepCheaper c cost).1.clauses[j]? =
      if c.id = j then some { c with cost := if Cost.lt cost c.cost then cost else c.cost }
      else g.clauses[j]? := by
  have hlt := (Array.getElem?_eq_some_iff.mp hc).1
  unfold keepCheaper
  by_cases hcheaper : Cost.lt cost c.cost = true
  · simp only [if_pos hcheaper]
    rw [Array.getElem?_setIfInBounds]
    simp [hlt]
  · simp only [if_neg hcheaper]
    by_cases hj : c.id = j
    · rw [if_pos hj, ← hj, hc]
    · rw [if_neg hj]

omit [Composer] in
theorem keepCheaper_eq (g : Grammar α) (c : Clause α) (cost : α) :
    (g.keepCheaper c cost).1 = { g with clauses := (g.keepCheaper c cost).1.clauses } := by
  unfold keepCheaper
  split <;> rfl

section Add

variable [ComparableCost α] {r : Request α}

/-- A request for a clause that is there. Its cost is kept if it is less than that of the clause. -/
theorem tallies_keepCheaper (h : g.Tallies granted) {c : Clause α}
    (hc : g.clauses[c.id]? = some c) (hfor : r.For g.dict c.shape)
    (hcost : Cost.isAdmitted r.cost = true) :
    (g.keepCheaper c r.cost).1.Tallies (granted ++ [r]) := by
  obtain ⟨old, hold, holdfor, holdcost⟩ := h.attained c (Array.mem_of_getElem? hc)
  have hadmitted : Cost.isAdmitted c.cost = true := holdcost ▸ (h.served old hold).1
  obtain ⟨hle, hle'⟩ := Cost.lesser_le hcost hadmitted
  have hlesser : Cost.isAdmitted (if Cost.lt r.cost c.cost then r.cost else c.cost) = true := by
    split <;> assumption
  have hget := getElem?_keepCheaper hc r.cost
  rw [keepCheaper_eq]
  generalize (g.keepCheaper c r.cost).1.clauses = clauses at hget ⊢
  generalize hkept : (if Cost.lt r.cost c.cost then r.cost else c.cost) = kept
    at hget hle hle' hlesser
  have hmem : { c with cost := kept } ∈ clauses := by
    apply Array.mem_of_getElem? (i := c.id)
    rw [hget, if_pos rfl]
  refine ⟨?_, h.arities, h.start, ?_, ?_⟩
  · intro s i
    rw [h.shapes, hget]
    split
    next hi =>
      rw [← hi, hc]
      rfl
    next => rfl
  · intro x hx
    obtain ⟨j, hj⟩ := Array.mem_iff_getElem?.mp hx
    rw [hget] at hj
    split at hj
    next =>
      cases hj
      by_cases hlt : Cost.lt r.cost c.cost = true
      · rw [if_pos hlt] at hkept
        exact ⟨r, by simp, hfor, hkept⟩
      · rw [if_neg hlt] at hkept
        exact ⟨old, List.mem_append_left _ hold, holdfor, holdcost.trans hkept⟩
    next =>
      obtain ⟨q, hq, hqfor, hqcost⟩ := h.attained x (Array.mem_of_getElem? hj)
      exact ⟨q, List.mem_append_left _ hq, hqfor, hqcost⟩
  · intro q hq
    rcases List.mem_append.mp hq with hq | hq
    · obtain ⟨hqcost, x, hx, hqfor, hxle⟩ := h.served q hq
      refine ⟨hqcost, ?_⟩
      obtain ⟨j, hj⟩ := Array.mem_iff_getElem?.mp hx
      by_cases hid : c.id = j
      · subst hid
        cases hc.symm.trans hj
        exact ⟨_, hmem, hqfor, ComparableCost.le_trans hlesser hadmitted hqcost hle' hxle⟩
      · refine ⟨x, Array.mem_of_getElem? (i := j) ?_, hqfor, hxle⟩
        rw [hget, if_neg hid, hj]
    · cases List.mem_singleton.mp hq
      exact ⟨hcost, _, hmem, hfor, hle⟩

/-- A request for a clause of a new shape. -/
theorem tallies_append (h : g.Tallies granted) {c : Clause α} (hid : c.id = g.clauses.size)
    (hnew : g.shapes[c.shape]? = none) (hfor : r.For g.dict c.shape) (hcost : r.cost = c.cost)
    (hadmitted : Cost.isAdmitted c.cost = true) : (g.append c).Tallies (granted ++ [r]) := by
  refine ⟨?_, h.arities, h.start, ?_, ?_⟩
  · intro s i
    change (g.shapes.insert c.shape c.id)[s]? = some i ↔
      (g.clauses.push c)[i]?.map Clause.shape = some s
    rw [Map.getElem?_insert_eq_some_iff, Array.getElem?_push, hid]
    split
    next hi =>
      have hnone : g.clauses[i]? = none := by rw [hi, Array.getElem?_size]
      rw [h.shapes, hnone, Option.map_some, Option.some.injEq]
      simp [hi, eq_comm]
    next hi =>
      rw [← h.shapes]
      constructor
      · rintro (⟨-, heq⟩ | ⟨-, hs⟩)
        · exact absurd heq.symm hi
        · exact hs
      · intro hs
        refine .inr ⟨?_, hs⟩
        rintro rfl
        cases hnew.symm.trans hs
  · intro x hx
    rcases Array.mem_push.mp hx with hx | rfl
    · obtain ⟨q, hq, hqfor, hqcost⟩ := h.attained x hx
      exact ⟨q, List.mem_append_left _ hq, hqfor, hqcost⟩
    · exact ⟨r, by simp, hfor, hcost⟩
  · intro q hq
    rcases List.mem_append.mp hq with hq | hq
    · obtain ⟨hqcost, x, hx, hqfor, hxle⟩ := h.served q hq
      exact ⟨hqcost, x, Array.mem_push.mpr (.inl hx), hqfor, hxle⟩
    · cases List.mem_singleton.mp hq
      rw [hcost]
      exact ⟨hadmitted, c, Array.mem_push_self, hfor, Cost.le_refl_of_admitted hadmitted⟩

/-- A request whose labels have names is granted or refused. -/
theorem tallies_addInterned (h : g.Tallies granted) (hg : g.WellFormed) {c : Clause α}
    (hunary : c.right.isNone = c.join.isUnary) (hfor : r.For g.dict c.shape)
    (hcost : r.cost = c.cost) (hadmitted : Cost.isAdmitted c.cost = true) :
    ((∃ e, (g.addInterned c).2 = .error e) ∧ (g.addInterned c).1.Tallies granted) ∨
      ((∃ a, (g.addInterned c).2 = .ok a) ∧ (g.addInterned c).1.Tallies (granted ++ [r])) := by
  unfold addInterned
  split
  next e _ => exact .inl ⟨⟨e, rfl⟩, h⟩
  next hok =>
    right
    have hgrown : { g with arities := registerUses g.arities (usesOf c) }.Tallies granted := by
      apply h.grow (fun _ _ => id) fun l n hl => registerUses_of_checkUses hok hl
      intro l n hl
      rcases registerUses_cases hl with hused | hl
      · exact usesOf_bounds hunary hused
      · exact h.arities l n hl
    dsimp only
    split
    next old hold =>
      refine ⟨⟨_, rfl⟩, ?_⟩
      obtain ⟨i, hi, hclause⟩ := Option.bind_eq_some_iff.mp hold
      rw [Std.TreeMap.get?_eq_getElem?, h.shapes, hclause, Option.map_some, Option.some.injEq] at hi
      obtain rfl := hg.id i old hclause
      rw [← hcost]
      exact tallies_keepCheaper hgrown hclause (hi ▸ hfor) (hcost ▸ hadmitted)
    next hnone =>
      refine ⟨⟨_, rfl⟩, tallies_append hgrown rfl ?_ hfor hcost hadmitted⟩
      apply Option.eq_none_iff_forall_ne_some.mpr
      intro i hi
      obtain ⟨old, hold, -⟩ := Option.map_eq_some_iff.mp ((h.shapes _ _).mp hi)
      rw [Std.TreeMap.get?_eq_getElem?] at hnone
      exact absurd hold (by simp [Option.bind_eq_none_iff.mp hnone i hi])

/-- A request is granted or refused. One that is refused leaves no trace but names. -/
theorem tallies_addClause (h : g.Tallies granted) (hg : g.WellFormed) (r : Request α) :
    ((∃ e, (g.addClause r.lhs r.left r.right r.yield r.cost).2 = .error e) ∧
        (g.addClause r.lhs r.left r.right r.yield r.cost).1.Tallies granted) ∨
      ((∃ a, (g.addClause r.lhs r.left r.right r.yield r.cost).2 = .ok a) ∧
        (g.addClause r.lhs r.left r.right r.yield r.cost).1.Tallies (granted ++ [r])) := by
  obtain ⟨lhs, left, right, y, cost⟩ := r
  unfold addClause
  dsimp only
  split
  next => exact .inl ⟨⟨_, rfl⟩, h⟩
  next hcost =>
    split
    next => exact .inl ⟨⟨_, rfl⟩, h⟩
    next jt hjt =>
      have hadmitted : Cost.isAdmitted cost = true := by simpa using hcost
      have hunary := (Yield.classify_ok hjt).2
      have h1 := Dictionary.interned hg.dict lhs
      have h2 := Dictionary.interned h1.sound left
      have hlhs := Dictionary.lookup?_intern_self g.dict lhs
      have hleft := Dictionary.lookup?_intern_self (g.dict.intern lhs).1 left
      have hkeep : ∀ name l, g.dict.lookup? name = some l →
          ((g.dict.intern lhs).1.intern left).1.lookup? name = some l := fun name l hl =>
        Dictionary.lookup?_intern (Dictionary.lookup?_intern hl _) _
      have hsize := Nat.le_trans h1.size_le h2.size_le
      replace hlhs := Dictionary.lookup?_intern hlhs left
      generalize (g.dict.intern lhs).1.intern left = named at h2 hlhs hleft hkeep hsize ⊢
      generalize (g.dict.intern lhs).2 = lhsLabel at hlhs ⊢
      split
      next =>
        have hfor : (⟨lhs, left, none, y, cost⟩ : Request α).For named.1
            ⟨lhsLabel, named.2, none, y⟩ := ⟨hlhs, hleft, rfl, rfl⟩
        have hgrown : { g with dict := named.1 }.Tallies granted :=
          h.grow hkeep (fun _ _ => id) h.arities
        exact tallies_addInterned hgrown (hg.grow h2.sound hsize fun _ _ => id) hunary.symm hfor rfl
          hadmitted
      next right =>
        have h3 := Dictionary.interned h2.sound right
        have hright := Dictionary.lookup?_intern_self named.1 right
        have hfor : (⟨lhs, left, some right, y, cost⟩ : Request α).For (named.1.intern right).1
            ⟨lhsLabel, named.2, some (named.1.intern right).2, y⟩ :=
          ⟨Dictionary.lookup?_intern hlhs _, Dictionary.lookup?_intern hleft _,
            congrArg some hright, rfl⟩
        have hgrown : { g with dict := (named.1.intern right).1 }.Tallies granted :=
          h.grow (fun name l hl => Dictionary.lookup?_intern (hkeep name l hl) _) (fun _ _ => id)
            h.arities
        exact tallies_addInterned hgrown
          (hg.grow h3.sound (Nat.le_trans hsize h3.size_le) fun _ _ => id) hunary.symm hfor rfl
          hadmitted

end Add

section Arities

variable {l : Label} {n : Nat}

omit [Cost α] in
theorem arities_addPreterminal (h : g.arities[l]? = some n) (name : String) :
    (g.addPreterminal name).1.arities[l]? = some n := by
  unfold addPreterminal
  dsimp only
  split
  next => exact h
  next hok => exact insert_of_checkArity (g := { g with dict := (g.dict.intern name).1 }) hok h

omit [Composer] in
theorem arities_addInterned (h : g.arities[l]? = some n) (c : Clause α) :
    (g.addInterned c).1.arities[l]? = some n := by
  unfold addInterned
  split
  next => exact h
  next hok =>
    dsimp only
    split
    next =>
      rw [keepCheaper_eq]
      exact registerUses_of_checkUses hok h
    next => exact registerUses_of_checkUses hok h

theorem arities_addClause (h : g.arities[l]? = some n) (lhs left : String) (right : Option String)
    (y : Yield) (cost : α) : (g.addClause lhs left right y cost).1.arities[l]? = some n := by
  unfold addClause
  split
  next => exact h
  next =>
    split
    next => exact h
    next =>
      dsimp only
      split
      all_goals
        apply arities_addInterned
        exact h

end Arities

/-- What a grammar is, given the requests for clauses that were granted. -/
structure Represents (g : Grammar α) (granted : List (Request α)) : Prop where
  id : ∀ (i : Nat) (c : Clause α), g.clauses[i]? = some c → c.id = i
  distinct : ∀ (i j : Nat) (c d : Clause α), g.clauses[i]? = some c → g.clauses[j]? = some d →
    c.lhs = d.lhs → c.left = d.left → c.right = d.right → c.yield = d.yield → i = j
  join : ∀ c ∈ g.clauses, c.yield.classify c.isUnary = .ok c.join
  lhsArity : ∀ c ∈ g.clauses, g.arities[c.lhs]? = some c.join.arity
  leftArity : ∀ c ∈ g.clauses, g.arities[c.left]? = some (c.join.childArity .left)
  rightArity : ∀ c ∈ g.clauses, ∀ r, c.right = some r →
    g.arities[r]? = some (c.join.childArity .right)
  arities : ∀ (l : Label) (n : Nat), g.arities[l]? = some n → n = 1 ∨ n = 2
  start : g.arities[g.start]? = some 1
  preterminal : ∀ l, g.isPreterminal l = true → g.arities[l]? = some 1
  byLhs : ∀ l, g.byLhs l = g.clauses.toList.filter fun c => decide (c.lhs = l)
  byLeft : ∀ l, g.byLeft l = g.clauses.toList.filter fun c => decide (c.left = l)
  byRight : ∀ l, g.byRight l = g.clauses.toList.filter fun c => decide (c.right = some l)
  attained : ∀ c ∈ g.clauses, ∃ r ∈ granted, r.For g.dict c.shape ∧ r.cost = c.cost
  least : ∀ c ∈ g.clauses, ∀ r ∈ granted, r.For g.dict c.shape → Cost.le c.cost r.cost = true
  served : ∀ r ∈ granted, ∃ c ∈ g.clauses, r.For g.dict c.shape

theorem Tallies.represents (h : g.Tallies granted) (hg : g.WellFormed) : g.Represents granted where
  id := hg.id
  distinct i j c d hc hd hlhs hleft hright hyield := by
    apply h.unique hc hd
    unfold Clause.shape
    rw [hlhs, hleft, hright, hyield]
  join c hc := (hg.clause c hc).classified
  lhsArity c hc := ((hg.clause c hc).labels _ _ (by simp [usesOf])).2
  leftArity c hc := ((hg.clause c hc).labels _ _ (by simp [usesOf])).2
  rightArity c hc r hr := ((hg.clause c hc).labels _ _ (by simp [usesOf, hr])).2
  arities := h.arities
  start := h.start
  preterminal := hg.single
  byLhs l := by simpa [byLhs] using hg.lhs.clausesAt_eq l
  byLeft l := by simpa [byLeft] using hg.left.clausesAt_eq l
  byRight l := hg.right.clausesAt_eq l
  attained := h.attained
  least c hc r hr hfor := by
    obtain ⟨-, d, hd, hfor', hle⟩ := h.served r hr
    obtain ⟨i, hi⟩ := Array.mem_iff_getElem?.mp hc
    obtain ⟨j, hj⟩ := Array.mem_iff_getElem?.mp hd
    obtain rfl := h.unique hi hj (hfor.unique hfor')
    cases hi.symm.trans hj
    exact hle
  served r hr := by
    obtain ⟨-, c, hc, hfor, -⟩ := h.served r hr
    exact ⟨c, hc, hfor⟩

end Grammar

namespace Language

section Grants

variable {α : Type} [Composer] [Cost α]

/-- What an addition asks for, if it is for a clause and is granted. -/
def grants (L : Language α) : Edit α → List (Request α)
  | .clause lhs left right y cost =>
      match (L.grammar.addClause lhs left right y cost).2 with
      | .ok _ => [⟨lhs, left, right, y, cost⟩]
      | .error _ => []
  | .preterminal _ | .entry .. => []

/-- The requests for clauses that are granted in a series of additions, in order. -/
def granted (L : Language α) : List (Edit α) → List (Request α)
  | [] => []
  | e :: edits => L.grants e ++ (L.apply e).granted edits

theorem grammar_apply_entry (L : Language α) (word : Text) (tag : String) (cost : α) :
    (L.apply (.entry word tag cost)).grammar = L.grammar ∨
      (L.apply (.entry word tag cost)).grammar = (L.grammar.addPreterminal tag).1 := by
  have hadds := L.lexicon.addsEntry L.grammar word tag cost
  simp only [apply]
  generalize L.lexicon.add L.grammar word tag cost = result at hadds ⊢
  cases hadds with
  | badCost _ => exact .inl rfl
  | badTag _ _ => exact .inr rfl
  | entered _ _ => exact .inr rfl

theorem arities_foldl_apply (edits : List (Edit α)) (L : Language α) {l : Label} {n : Nat}
    (h : L.grammar.arities[l]? = some n) :
    (edits.foldl apply L).grammar.arities[l]? = some n := by
  refine List.foldlRecOn edits apply
    (motive := fun L : Language α => L.grammar.arities[l]? = some n) h ?_
  intro L h e _
  cases e with
  | preterminal name => exact Grammar.arities_addPreterminal h name
  | clause lhs left right y cost => exact Grammar.arities_addClause h lhs left right y cost
  | entry word tag cost =>
      rcases L.grammar_apply_entry word tag cost with heq | heq
      · rwa [heq]
      · rw [heq]
        exact Grammar.arities_addPreterminal h tag

variable [ComparableCost α]

theorem tallies_apply {L : Language α} {granted : List (Request α)} (h : L.WellFormed)
    (ht : L.grammar.Tallies granted) (e : Edit α) :
    (L.apply e).grammar.Tallies (granted ++ L.grants e) := by
  cases e with
  | preterminal name =>
      rw [grants, List.append_nil]
      exact Grammar.tallies_addPreterminal ht name
  | clause lhs left right y cost =>
      unfold grants
      rcases Grammar.tallies_addClause ht h.grammar ⟨lhs, left, right, y, cost⟩ with
        ⟨⟨e, he⟩, ht⟩ | ⟨⟨a, ha⟩, ht⟩
      · dsimp only at he ⊢
        rw [he, List.append_nil]
        exact ht
      · dsimp only at ha ⊢
        rw [ha]
        exact ht
  | entry word tag cost =>
      rw [grants, List.append_nil]
      rcases L.grammar_apply_entry word tag cost with heq | heq
      · rwa [heq]
      · rw [heq]
        exact Grammar.tallies_addPreterminal ht tag

theorem tallies_foldl_apply (edits : List (Edit α)) {L : Language α} {granted : List (Request α)}
    (h : L.WellFormed) (ht : L.grammar.Tallies granted) :
    (edits.foldl apply L).grammar.Tallies (granted ++ L.granted edits) := by
  induction edits generalizing L granted with
  | nil =>
      rw [Language.granted, List.append_nil]
      exact ht
  | cons e edits ih =>
      rw [Language.granted, ← List.append_assoc]
      exact ih (wellFormed_apply h e) (tallies_apply h ht e)

/-- Whatever is asked for in whatever order, a grammar represents what was granted, and arities are
never changed. -/
theorem represents_ofEdits (start : String) (edits more : List (Edit α)) :
    (ofEdits start edits).grammar.Represents
        ((⟨.new start, .empty⟩ : Language α).granted edits) ∧
      ∀ (l : Label) (n : Nat), (ofEdits start edits).grammar.arities[l]? = some n →
        (ofEdits start (edits ++ more)).grammar.arities[l]? = some n := by
  have hnew : (⟨.new start, .empty⟩ : Language α).WellFormed :=
    ⟨Grammar.wellFormed_new start, Lexicon.wellFormed_empty⟩
  constructor
  · apply Grammar.Tallies.represents _ (wellFormed_ofEdits start edits).grammar
    exact tallies_foldl_apply edits hnew (Grammar.tallies_new start)
  · intro l n h
    unfold ofEdits
    rw [List.foldl_append]
    exact arities_foldl_apply more _ h

end Grants

/-- Clauses that are asked for again at other costs, or in vain. -/
def repetitiveEdits : List (Edit Price) :=
  [.preterminal "A", .clause "S" "A" none [[.left]] ⊤,
    .clause "P" "A" (some "A") [[.left], [.right]] 1, .clause "S" "A" none [[.left]] 0,
    .clause "S" "P" none [[.left]] 0, .clause "S" "A" none [[.left]] 1,
    .clause "P" "P" none [[.left]] 1, .clause "Q" "P" (some "A") [[.left, .right, .left]] ⊤,
    .clause "Q" "P" (some "A") [[.left, .right, .left]] 1, .clause "S" "A" none [[.left]] (-1)]

theorem represents_repetitive :
    ((⟨.new "S", .empty⟩ : Language Price).granted repetitiveEdits).length = 6 ∧
      (ofEdits "S" repetitiveEdits).grammar.clauses.toList.map (fun c => (c.id, c.cost)) =
        [(0, 0), (1, 1), (2, 1)] ∧
      (ofEdits "S" repetitiveEdits).grammar.Represents
        ((⟨.new "S", .empty⟩ : Language Price).granted repetitiveEdits) ∧
      ∀ (l : Label) (n : Nat), (ofEdits "S" repetitiveEdits).grammar.arities[l]? = some n →
        (ofEdits "S" (repetitiveEdits ++ [.preterminal "P"])).grammar.arities[l]? = some n :=
  ⟨by decide +kernel, by decide +kernel, represents_ofEdits "S" repetitiveEdits [.preterminal "P"]⟩

end Language

end Discontinuous
