import Discontinuous.Proofs.Exactness

/-!
Outside estimates are exact. A descent leads from the start symbol over a whole sentence to a label
over some positions of it, from one clause to the next, and pays for the clauses and for the
siblings that it leaves aside. What is estimated of a label is the least cost of a descent to it.
The closure that finds it ends with nothing left to follow, and no place that it looks at is
outside of the flat table.
-/
namespace Discontinuous

namespace Outside

variable {α : Type} [Cost α] {g : Grammar α} {inside : Table α} {m n : Nat} {l : Label} {x : α}

/-- The ways from the start symbol over a sentence of length `m` down to a label over some of its
positions, with what they cost. -/
inductive Descent (g : Grammar α) (inside : Table α) (m : Nat) : Label → Nat → α → Prop where
  | start : Descent g inside m g.start m Cost.zero
  | unary {c : Clause α} {k : Nat} {x : α} : Descent g inside m c.lhs k x → c ∈ g.clauses →
      c.right = none → Descent g inside m c.left k (Cost.add x c.cost)
  | left {c : Clause α} {r : Label} {i j : Nat} {x : α} : Descent g inside m c.lhs (i + j) x →
      c ∈ g.clauses → c.right = some r → g.arity c.left ≤ i → g.arity r ≤ j →
      Descent g inside m c.left i (Cost.add (Cost.add x (inside.lookupLength r j)) c.cost)
  | right {c : Clause α} {r : Label} {i j : Nat} {x : α} : Descent g inside m c.lhs (i + j) x →
      c ∈ g.clauses → c.right = some r → g.arity c.left ≤ i → g.arity r ≤ j →
      Descent g inside m r j (Cost.add (Cost.add x (inside.lookupLength c.left i)) c.cost)

/-- The least cost of a descent, and the infinite cost if none is finite. -/
structure Cheapest (g : Grammar α) (inside : Table α) (m : Nat) (l : Label) (n : Nat) (x : α) :
    Prop where
  le : ∀ y, Descent g inside m l n y → Cost.le x y = true
  attained : Cost.isInfinite x = false → Descent g inside m l n x
  infinite : (∀ y, Descent g inside m l n y → Cost.isInfinite y = true) → x = Cost.infinity

/-- A descent goes on by what follows from its last cell. -/
theorem Descent.of_mem_descend {cell k : Cell} {y : α} {c : Clause α} (hc : c ∈ g.clauses)
    (hl : c.lhs = cell.label) (h : Descent g inside cell.length cell.label cell.covered x)
    (hk : (k, y) ∈ descend g inside cell x c) :
    Descent g inside k.length k.label k.covered y := by
  rw [← hl] at h
  rcases mem_descend.mp hk with ⟨hr, rfl, rfl⟩ |
    ⟨r, i, j, hr, hi, hj, hsum, ⟨rfl, rfl⟩ | ⟨rfl, rfl⟩⟩
  · exact .unary h hc hr
  · exact .left (hsum ▸ h) hc hr hi hj
  · exact .right (hsum ▸ h) hc hr hi hj

theorem Descent.inRange (hg : g.WellFormed) (hpos : 1 ≤ m) (hle : (m : Int) ≤ inside.maxlen)
    (h : Descent g inside m l n x) : InRange g inside ⟨l, m, n⟩ := by
  induction h with
  | start => exact ⟨hg.start, hle, hpos, Nat.le_refl m⟩
  | unary _ hc _ ih => exact ⟨(hg.arity_left hc).1, hle, ih.covered_pos, ih.covered_le⟩
  | @left c r i j _ _ hc hr hi _ ih =>
      obtain ⟨hleft, harity⟩ := hg.arity_left hc
      have hchild := childArity_pos c.join
      have hcovered : i + j ≤ m := ih.covered_le
      exact ⟨hleft, hle, by dsimp only; omega, by dsimp only; omega⟩
  | @right c r i j _ _ hc hr _ hj ih =>
      obtain ⟨hright, harity⟩ := hg.arity_right hc hr
      have hchild := JoinType.childArity_right_ne_zero (hg.isUnary_eq_false hc hr)
      have hcovered : i + j ≤ m := ih.covered_le
      exact ⟨hright, hle, by dsimp only; omega, by dsimp only; omega⟩

/-- No descent costs less than what is estimated. -/
theorem lookup_le_of_descent [BoundedCost α] {o : Outside α} (ho : Closed g inside o)
    (hg : g.WellFormed) (hadmitted : ∀ l n, Cost.isAdmitted (inside.lookupLength l n) = true)
    (hpos : 1 ≤ m) (hle : (m : Int) ≤ inside.maxlen) (h : Descent g inside m l n x) :
    Cost.le (o.lookup l m n) x = true := by
  -- what a step adds to the cost so far, it adds to the estimate of the parent as well
  induction h with
  | start => exact Cost.le_of_eq (lookup_start ho hg hpos hle)
  | unary h hc hr ih =>
      have hstep := lookup_le_of_mem_descend ho hg hadmitted hc rfl (h.inRange hg hpos hle)
        ((h.unary hc hr).inRange hg hpos hle) (mem_descend.mpr (.inl ⟨hr, rfl, rfl⟩))
      exact OrderedCost.le_trans hstep (OrderedCost.add_le_add_right _ ih)
  | @left c r i j _ h hc hr hi hj ih =>
      have hstep := lookup_le_of_mem_descend ho hg hadmitted hc rfl (h.inRange hg hpos hle)
        ((h.left hc hr hi hj).inRange hg hpos hle)
        (mem_descend.mpr (.inr ⟨r, i, j, hr, hi, hj, rfl, .inl ⟨rfl, rfl⟩⟩))
      exact OrderedCost.le_trans hstep
        (OrderedCost.add_le_add_right _ (OrderedCost.add_le_add_right _ ih))
  | @right c r i j _ h hc hr hi hj ih =>
      have hstep := lookup_le_of_mem_descend ho hg hadmitted hc rfl (h.inRange hg hpos hle)
        ((h.right hc hr hi hj).inRange hg hpos hle)
        (mem_descend.mpr (.inr ⟨r, i, j, hr, hi, hj, rfl, .inr ⟨rfl, rfl⟩⟩))
      exact OrderedCost.le_trans hstep
        (OrderedCost.add_le_add_right _ (OrderedCost.add_le_add_right _ ih))

/-- The descent with every place checked before the table is read or written there. -/
def descentWithin (g : Grammar α) (inside : Table α) :
    Option (Closure (Array (Option α)) Nat α) :=
  Closure.runWithin (fun costs i => decide (i < costs.size)) (rules g inside)
    (Cell.places g.dict.size inside.maxlen.toNat) (blank g inside) (seeds g inside)

section

variable (hg : g.WellFormed) (hfits : Cell.Fits g.dict.size inside.maxlen.toNat)
  (hadmitted : ∀ l n, Cost.isAdmitted (inside.lookupLength l n) = true)

include hg hfits hadmitted

theorem descentWithin_eq [OrderedCost α] : descentWithin g inside = some (descent g inside) :=
  Closure.runWithin_eq (lawful hg hfits hadmitted)
    (fun _ _ hcosts hi => decide_eq_true (hcosts.lt_size hfits hi)) _
    (Closure.invariant_start (lawful hg hfits hadmitted) flat_blank getD_blank
      (mem_keys_of_mem_seeds hg) followsAt_blank)
    (mem_keys_of_mem_seeds hg)

theorem ended_descent [OrderedCost α] : Ended g inside
    (fun k => Descent g inside k.length k.label k.covered) (descent g inside) := by
  apply ended hg hfits hadmitted
  intro v k y hv h
  cases h with
  | start _ _ => exact .start
  | descend hc hl hcell hx hmem _ => exact .of_mem_descend hc hl (hv _ _ hcell hx) hmem

/-- What is estimated at a finite cost is the cost of a descent. -/
theorem descent_of_lookup [BoundedCost α] (hk : InRange g inside ⟨l, m, n⟩)
    (hlookup : (estimate g inside).1.lookup l m n = x) (hfinite : Cost.isInfinite x = false) :
    Descent g inside m l n x := by
  rw [lookup_eq (closed_estimate hg hfits hadmitted) hk] at hlookup
  cases hcost : costAt inside (estimate g inside).1.costs ⟨l, m, n⟩ with
  | none =>
      rw [hcost] at hlookup
      cases hlookup
      exact nomatch (Cost.le_refl (Cost.infinity : α)).symm.trans hfinite
  | some z =>
      rw [hcost] at hlookup
      cases hlookup
      exact (ended_descent hg hfits hadmitted).known _ z hk.mem_cells hcost

theorem cheapest_lookup [BoundedCost α] (hk : InRange g inside ⟨l, m, n⟩) :
    Cheapest g inside m l n ((estimate g inside).1.lookup l m n) := by
  have hattained := descent_of_lookup hg hfits hadmitted hk rfl
  refine ⟨fun y hy => ?_, hattained, ?_⟩
  · exact lookup_le_of_descent (closed_estimate hg hfits hadmitted) hg hadmitted
      (hk.covered_pos.trans hk.covered_le) hk.length_le hy
  · intro hall
    cases hinf : Cost.isInfinite ((estimate g inside).1.lookup l m n) with
    | false => exact nomatch (hall _ (hattained hinf)).symm.trans hinf
    | true => exact OrderedCost.le_antisymm (BoundedCost.le_infinity _) hinf

end

/-- Outside estimates from any inside table of a grammar tell the least cost of a descent, within
the horizon of the table. The descent ends, inside the bounds of its flat table. For this the size
of the flat table has to be a word. -/
theorem lookup_cheapest [BoundedCost α] (g : Grammar α) (kind : EstimateKind) (maxlen : Int)
    (inside : Table α) (events : List (Event α)) (hg : g.Built)
    (hinside : Table.estimate g kind maxlen = .ok (inside, events))
    (hfits : Cell.Fits g.dict.size maxlen.toNat) :
    descentWithin g inside = some (descent g inside) ∧ (descent g inside).agenda.size = 0 ∧
      (estimate g inside).1 = ⟨maxlen, g.dict.size, (descent g inside).settled⟩ ∧
      ∀ (l : Label) (m n : Nat), g.dict.Has l → 1 ≤ n → n ≤ m → (m : Int) ≤ maxlen →
        Cell.place maxlen.toNat ⟨l, m, n⟩ < (estimate g inside).1.costs.size ∧
        Cheapest g inside m l n ((estimate g inside).1.lookup l m n) := by
  have hg := hg.wellFormed
  obtain ⟨scheme, hclosed, hmaxlen, -⟩ := Table.closed_of_estimate hg hinside
  rw [← hmaxlen] at hfits
  have hended := ended_descent hg hfits hclosed.admitted
  refine ⟨descentWithin_eq hg hfits hclosed.admitted, hended.drained, hmaxlen ▸ rfl, ?_⟩
  intro l m n hl hn hle hm
  have hk : InRange g inside ⟨l, m, n⟩ := ⟨hl, hmaxlen ▸ hm, hn, hle⟩
  refine ⟨?_, cheapest_lookup hg hfits hclosed.admitted hk⟩
  have hplace := place_lt_of_mem_cells hfits hk.mem_cells
  rw [← hended.size, hmaxlen] at hplace
  exact hplace

/-- A `P` over two of three positions goes with a `B` over the third. -/
theorem lookup_cheapest_gapped :
    Parser.gapped.grammar.Built ∧ Cell.Fits Parser.gapped.grammar.dict.size 4 ∧ ∃ inside events,
      Table.estimate Parser.gapped.grammar .length 4 = .ok (inside, events) ∧
        (estimate Parser.gapped.grammar inside).1.lookup ⟨4⟩ 3 2 = 2 ∧
        Cheapest Parser.gapped.grammar inside 3 ⟨4⟩ 2
          ((estimate Parser.gapped.grammar inside).1.lookup ⟨4⟩ 3 2) := by
  have hbuilt := Table.gapped_built
  have hfits : Cell.Fits Parser.gapped.grammar.dict.size 4 := by decide +kernel
  obtain ⟨-, -, -, hcheapest⟩ :=
    lookup_cheapest Parser.gapped.grammar .length 4 _ _ hbuilt rfl hfits
  refine ⟨hbuilt, hfits, _, _, rfl, ?_, (hcheapest ⟨4⟩ 3 2 (by decide +kernel) ?_ ?_ ?_).2⟩
  all_goals decide +kernel

end Outside

end Discontinuous
