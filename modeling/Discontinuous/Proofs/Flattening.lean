import Discontinuous.Parser.Derivation
import Mathlib

/-!
Trees without the nodes that binarization has introduced. Such a node is taken out after its
children have been sorted, and they are sorted again where they are put. That comes to a single
stable sort of what is kept next below a node, and a leaf stays a leaf while its parents are taken
out.
-/
namespace Discontinuous

/-- `ys` holds what `xs` holds in the order of the keys, and keeps what has the same key in its old
order. -/
structure IsStableSort {β : Type} (key : β → Int) (xs ys : List β) : Prop where
  ordered : ys.Pairwise fun a b => key a ≤ key b
  stable : ∀ k, (ys.filter fun a => key a = k) = xs.filter fun a => key a = k

section Sorting

variable {β γ : Type} {key : β → Int} {xs xs' ys zs : List β}

theorem mem_iff_of_filter_eq
    (h : ∀ k, (ys.filter fun a => key a = k) = zs.filter fun a => key a = k) (a : β) :
    a ∈ ys ↔ a ∈ zs := by
  have hiff := congrArg (a ∈ ·) (h (key a))
  simpa using hiff

/-- A list in order is known by what it holds at every key. -/
theorem eq_of_filter_eq (hys : ys.Pairwise fun a b => key a ≤ key b)
    (hzs : zs.Pairwise fun a b => key a ≤ key b)
    (h : ∀ k, (ys.filter fun a => key a = k) = zs.filter fun a => key a = k) : ys = zs := by
  induction ys generalizing zs with
  | nil =>
      cases zs with
      | nil => rfl
      | cons z zs =>
          exact absurd ((mem_iff_of_filter_eq h z).mpr List.mem_cons_self) List.not_mem_nil
  | cons y ys ih =>
      cases zs with
      | nil => exact absurd ((mem_iff_of_filter_eq h y).mp List.mem_cons_self) List.not_mem_nil
      | cons z zs =>
          -- Each of the two heads stands in the other list, so neither has the greater key.
          have hzy : key z ≤ key y := by
            rcases List.mem_cons.mp ((mem_iff_of_filter_eq h y).mp List.mem_cons_self) with
              rfl | hy
            · exact le_refl _
            · exact List.rel_of_pairwise_cons hzs hy
          have hyz : key y ≤ key z := by
            rcases List.mem_cons.mp ((mem_iff_of_filter_eq h z).mpr List.mem_cons_self) with
              rfl | hz
            · exact le_refl _
            · exact List.rel_of_pairwise_cons hys hz
          have hkey := le_antisymm hzy hyz
          have hhead := h (key y)
          rw [List.filter_cons_of_pos (by simp), List.filter_cons_of_pos (by simp [hkey])] at hhead
          obtain ⟨rfl, -⟩ := List.cons.inj hhead
          have htail : ∀ k, (ys.filter fun a => key a = k) = zs.filter fun a => key a = k := by
            intro k
            have hk := h k
            rw [List.filter_cons, List.filter_cons] at hk
            split at hk
            · exact (List.cons.inj hk).2
            · exact hk
          rw [ih (List.Pairwise.of_cons hys) (List.Pairwise.of_cons hzs) htail]

theorem IsStableSort.unique (hys : IsStableSort key xs ys) (hzs : IsStableSort key xs zs) :
    ys = zs :=
  eq_of_filter_eq hys.ordered hzs.ordered fun k => (hys.stable k).trans (hzs.stable k).symm

theorem IsStableSort.congr (h : IsStableSort key xs ys)
    (heq : ∀ k, (xs.filter fun a => key a = k) = xs'.filter fun a => key a = k) :
    IsStableSort key xs' ys :=
  ⟨h.ordered, fun k => (h.stable k).trans (heq k)⟩

theorem IsStableSort.map {key' : γ → Int} {f : β → γ} (hf : ∀ a, key' (f a) = key a)
    (h : IsStableSort key xs ys) : IsStableSort key' (xs.map f) (ys.map f) := by
  refine ⟨?_, fun k => ?_⟩
  · rw [List.pairwise_map]
    simpa only [hf] using h.ordered
  · rw [List.filter_map, List.filter_map]
    simp only [Function.comp_def, hf, h.stable k]

theorem isStableSort_mergeSort (key : β → Int) (xs : List β) :
    IsStableSort key xs (xs.mergeSort fun a b => key a ≤ key b) := by
  have htrans : ∀ a b c : β, decide (key a ≤ key b) = true → decide (key b ≤ key c) = true →
      decide (key a ≤ key c) = true := by
    intro a b c hab hbc
    rw [decide_eq_true_iff] at hab hbc ⊢
    exact le_trans hab hbc
  have htotal : ∀ a b : β, (decide (key a ≤ key b) || decide (key b ≤ key a)) = true := by
    intro a b
    simpa using le_total (key a) (key b)
  refine ⟨?_, fun k => ?_⟩
  · simpa using List.pairwise_mergeSort htrans htotal xs
  · have hsame : (xs.filter fun a => key a = k).Pairwise
        fun a b => decide (key a ≤ key b) = true := by
      rw [List.pairwise_iff_forall_sublist]
      intro a b hab
      have ha := List.of_mem_filter (hab.subset List.mem_cons_self)
      have hb := List.of_mem_filter (hab.subset (List.mem_cons_of_mem _ List.mem_cons_self))
      simp only [decide_eq_true_eq] at ha hb ⊢
      rw [ha, hb]
    have hsub := (List.sublist_mergeSort htrans htotal hsame List.filter_sublist).filter
      fun a => decide (key a = k)
    rw [List.filter_filter] at hsub
    simp only [Bool.and_self] at hsub
    exact (hsub.eq_of_length ((List.mergeSort_perm xs _).filter _).length_eq.symm).symm

/-- A list in order is left as it is. -/
theorem mergeSort_eq_self (h : xs.Pairwise fun a b => key a ≤ key b) :
    (xs.mergeSort fun a b => key a ≤ key b) = xs :=
  (isStableSort_mergeSort key xs).unique ⟨h, fun _ => rfl⟩

end Sorting

namespace Derivation

variable {α β : Type}

mutual

/-- A tree and all trees below it, each before those below it. -/
def nodes : Derivation α → List (Derivation α)
  | node l n s c ts => node l n s c ts :: nodesOfAll ts

def nodesOfAll : List (Derivation α) → List (Derivation α)
  | [] => []
  | t :: ts => nodes t ++ nodesOfAll ts

end

/-- All trees below a tree. -/
def descendants (d : Derivation α) : List (Derivation α) := d.children.flatMap nodes

/-- Every tree with every tree below it. -/
def ancestry (d : Derivation α) : List (Derivation α × Derivation α) :=
  d.nodes.flatMap fun t => t.descendants.map fun u => (t, u)

/-- What is kept below a root: leaves, and trees whose labels binarization has not introduced. -/
def isKept (dict : Dictionary) (d : Derivation α) : Bool :=
  d.isLeaf || !dict.isArtificial d.label

/-- What is kept below a tree. -/
def keptBelow (dict : Dictionary) (d : Derivation α) : List (Derivation α) :=
  d.descendants.filter (isKept dict)

/-- The root, and what is kept below it, with all that is kept below either. -/
def keptAncestry (dict : Dictionary) (d : Derivation α) : List (Derivation α × Derivation α) :=
  (d :: d.keptBelow dict).flatMap fun t => (t.keptBelow dict).map fun u => (t, u)

mutual

/-- What is kept next below a tree on every way down, from left to right. -/
def fringe (dict : Dictionary) : Derivation α → List (Derivation α)
  | node _ _ _ _ ts => fringeOfAll dict ts

def fringeOfAll (dict : Dictionary) : List (Derivation α) → List (Derivation α)
  | [] => []
  | t :: ts => (if t.isKept dict then [t] else fringe dict t) ++ fringeOfAll dict ts

end

mutual

/-- The tree with other costs. -/
def mapCost (f : α → β) : Derivation α → Derivation β
  | node l n s c ts => node l n s (f c) (mapCosts f ts)

def mapCosts (f : α → β) : List (Derivation α) → List (Derivation β)
  | [] => []
  | t :: ts => mapCost f t :: mapCosts f ts

end

/-- What passes from the children of a tree to the tree holds of all trees. -/
theorem induct {P : Derivation α → Prop} (h : ∀ d, (∀ t ∈ d.children, P t) → P d)
    (d : Derivation α) : P d :=
  Derivation.rec (motive_1 := P) (motive_2 := fun ts => ∀ t ∈ ts, P t)
    (fun _ _ _ _ _ ih => h _ ih) (fun _ ht => nomatch ht)
    (fun _ _ hd hts t ht => (List.mem_cons.mp ht).elim (fun heq => heq ▸ hd) (hts t)) d

section Equations

variable (dict : Dictionary) (d : Derivation α)

theorem nodes_eq : d.nodes = d :: d.descendants := by
  have hall : ∀ ts : List (Derivation α), nodesOfAll ts = ts.flatMap nodes := by
    intro ts
    induction ts with
    | nil => rfl
    | cons t ts ih => rw [nodesOfAll, ih, List.flatMap_cons]
  cases d
  rw [nodes, hall]
  rfl

theorem fringe_eq : d.fringe dict =
    d.children.flatMap fun t => if t.isKept dict then [t] else t.fringe dict := by
  have hall : ∀ ts : List (Derivation α), fringeOfAll dict ts =
      ts.flatMap fun t => if t.isKept dict then [t] else t.fringe dict := by
    intro ts
    induction ts with
    | nil => rfl
    | cons t ts ih => rw [fringeOfAll, ih, List.flatMap_cons]
  cases d
  exact hall _

theorem label_debinarize : (d.debinarize dict).label = d.label := by
  cases d
  rfl

theorem name_debinarize : (d.debinarize dict).name = d.name := by
  cases d
  rfl

theorem span_debinarize : (d.debinarize dict).span = d.span := by
  cases d
  rfl

theorem cost_debinarize : (d.debinarize dict).cost = d.cost := by
  cases d
  rfl

theorem children_debinarize : (d.debinarize dict).children =
    (flatten dict d.children).mergeSort fun a b => a.span.l1 ≤ b.span.l1 := by
  cases d
  rfl

/-- Taking nodes out makes no leaf, and leaves stay leaves. -/
theorem isLeaf_debinarize : (d.debinarize dict).isLeaf = d.isLeaf := by
  have hflatten : ∀ ts : List (Derivation α), (flatten dict ts).isEmpty = ts.isEmpty := by
    intro ts
    cases ts with
    | nil => rfl
    | cons t ts =>
        rw [flatten]
        split
        next htaken =>
          have hinner : (t.debinarize dict).isLeaf = false := by
            simpa using (Bool.and_eq_true_iff.mp htaken).1
          obtain ⟨u, us, hu⟩ := List.exists_cons_of_ne_nil (List.isEmpty_eq_false_iff.mp hinner)
          rw [hu]
          rfl
        next => rfl
  rw [isLeaf, children_debinarize, (List.mergeSort_perm _ _).isEmpty_eq, hflatten]
  rfl

theorem isKept_debinarize : (d.debinarize dict).isKept dict = d.isKept dict := by
  rw [isKept, isLeaf_debinarize, label_debinarize]
  rfl

/-- A child is put in the list itself if it is kept, and else its children are. -/
theorem flatten_eq (ts : List (Derivation α)) : flatten dict ts =
    ts.flatMap fun t =>
      if t.isKept dict then [t.debinarize dict] else (t.debinarize dict).children := by
  induction ts with
  | nil => rfl
  | cons t ts ih =>
      rw [flatten, ih, List.flatMap_cons, ← isKept_debinarize, isKept]
      cases (t.debinarize dict).isLeaf <;>
        cases dict.isArtificial (t.debinarize dict).label <;> rfl

end Equations

section Order

variable (dict : Dictionary) (d : Derivation α)

/-- The children are the fringe, sorted once. -/
theorem isStableSort_children : IsStableSort (fun t => t.span.l1)
    ((d.fringe dict).map (debinarize dict)) (d.debinarize dict).children := by
  induction d using induct with
  | h d ih =>
      rw [children_debinarize]
      refine (isStableSort_mergeSort _ _).congr fun k => ?_
      rw [flatten_eq, fringe_eq, List.map_flatMap, List.filter_flatMap, List.filter_flatMap]
      refine List.flatMap_congr fun t ht => ?_
      split
      · rfl
      · exact (ih t ht).stable k

theorem exists_sorted_fringe : ∃ ts, IsStableSort (fun t => t.span.l1) (d.fringe dict) ts ∧
    (d.debinarize dict).children = ts.map (debinarize dict) := by
  refine ⟨_, isStableSort_mergeSort _ _, ?_⟩
  refine (isStableSort_children dict d).unique ((isStableSort_mergeSort _ _).map fun t => ?_)
  rw [span_debinarize]

/-- What stands below a tree is what stood below it and is kept. -/
theorem descendants_debinarize :
    (d.debinarize dict).descendants.Perm ((d.keptBelow dict).map (debinarize dict)) := by
  induction d using induct with
  | h d ih =>
      rw [descendants, children_debinarize]
      refine ((List.mergeSort_perm _ _).flatMap_right nodes).trans ?_
      rw [flatten_eq, List.flatMap_assoc, keptBelow, descendants, List.filter_flatMap,
        List.map_flatMap]
      refine List.Perm.flatMap_left _ fun t ht => ?_
      rw [nodes_eq, List.filter_cons]
      split
      · rw [List.flatMap_singleton, nodes_eq, List.map_cons]
        exact (ih t ht).cons _
      · exact ih t ht

theorem isKept_of_mem_descendants {t : Derivation α} (ht : t ∈ (d.debinarize dict).descendants) :
    t.isKept dict = true := by
  obtain ⟨u, hu, rfl⟩ := List.mem_map.mp ((descendants_debinarize dict d).mem_iff.mp ht)
  rw [isKept_debinarize]
  exact List.of_mem_filter hu

theorem nodes_debinarize : (d.debinarize dict).nodes.Perm
    ((d :: d.keptBelow dict).map (debinarize dict)) := by
  rw [nodes_eq, List.map_cons]
  exact (descendants_debinarize dict d).cons _

/-- One kept tree stands below another exactly where it did. -/
theorem ancestry_debinarize : (d.debinarize dict).ancestry.Perm
    ((d.keptAncestry dict).map (Prod.map (debinarize dict) (debinarize dict))) := by
  refine ((nodes_debinarize dict d).flatMap_right _).trans ?_
  rw [keptAncestry, List.map_flatMap, List.flatMap_map]
  refine List.Perm.flatMap_left _ fun t _ => ?_
  rw [List.map_map]
  have hpairs := (descendants_debinarize dict t).map fun u => (t.debinarize dict, u)
  rwa [List.map_map] at hpairs

theorem ordered_debinarize {t : Derivation α} (ht : t ∈ (d.debinarize dict).nodes) :
    t.children.Pairwise fun a b => a.span.l1 ≤ b.span.l1 := by
  obtain ⟨u, -, rfl⟩ := List.mem_map.mp ((nodes_debinarize dict d).mem_iff.mp ht)
  exact (isStableSort_children dict u).ordered

variable {d} in
/-- A tree in order with nothing to take out is left as it is. -/
theorem debinarize_eq_self (hkept : ∀ t ∈ d.descendants, t.isKept dict = true)
    (hordered : ∀ t ∈ d.nodes, t.children.Pairwise fun a b => a.span.l1 ≤ b.span.l1) :
    d.debinarize dict = d := by
  induction d using induct with
  | h d ih =>
      have hbelow : ∀ t ∈ d.children, ∀ u ∈ t.nodes, u ∈ d.descendants := fun t ht u hu =>
        List.mem_flatMap.mpr ⟨t, ht, hu⟩
      have hflatten : flatten dict d.children = d.children := by
        rw [flatten_eq]
        conv_rhs => rw [← List.flatMap_singleton' d.children]
        refine List.flatMap_congr fun t ht => ?_
        have hself : t ∈ t.nodes := nodes_eq t ▸ List.mem_cons_self
        have hdown : ∀ u ∈ t.descendants, u ∈ t.nodes := fun u hu =>
          nodes_eq t ▸ List.mem_cons_of_mem t hu
        rw [if_pos (hkept t (hbelow t ht t hself)), ih t ht]
        · exact fun u hu => hkept u (hbelow t ht u (hdown u hu))
        · exact fun u hu => hordered u (nodes_eq d ▸ List.mem_cons_of_mem d (hbelow t ht u hu))
      have hsort := mergeSort_eq_self (hordered d (nodes_eq d ▸ List.mem_cons_self))
      cases d
      rw [debinarize]
      simp only [children] at hflatten hsort
      rw [hflatten, hsort]

theorem debinarize_debinarize : (d.debinarize dict).debinarize dict = d.debinarize dict :=
  debinarize_eq_self dict (fun _ => isKept_of_mem_descendants dict d)
    fun _ => ordered_debinarize dict d

end Order

/-! The positions of leaves. -/

section Leaves

/-- The positions that trees cover, one tree after another, if those of each can be listed. -/
def positionsOfAll? (ts : List (Derivation α)) : Option (List Int) :=
  if ts.all fun t => t.span.positions?.isSome then some (ts.flatMap fun t => t.span.positions)
  else none

theorem positionsOfAll?_append (ts us : List (Derivation α)) :
    positionsOfAll? (ts ++ us) =
      (positionsOfAll? ts).bind fun xs => (positionsOfAll? us).map fun ys => xs ++ ys := by
  simp only [positionsOfAll?, List.all_append, List.flatMap_append]
  cases ts.all fun t => t.span.positions?.isSome
  · rfl
  · cases us.all fun t => t.span.positions?.isSome <;> rfl

theorem positionsOfAll?_perm {ts us : List (Derivation α)} (h : ts.Perm us) :
    Option.Rel List.Perm (positionsOfAll? ts) (positionsOfAll? us) := by
  simp only [positionsOfAll?, h.all_eq]
  split
  · exact .some (h.flatMap_right _)
  · exact .none

theorem positions?_eq (s : Span) :
    s.positions? = if s.positions?.isSome then some s.positions else none := by
  unfold Span.positions?
  split <;> rfl

/-- The leaves of a tree, from left to right. -/
def leafNodes (d : Derivation α) : List (Derivation α) := d.nodes.filter isLeaf

theorem leaves?_eq (d : Derivation α) : d.leaves? = positionsOfAll? d.leafNodes := by
  induction d using induct with
  | h d ih =>
      obtain ⟨l, n, s, c, ts⟩ := d
      have hall : ∀ us ⊆ ts, leavesOfAll? us = positionsOfAll? (us.flatMap leafNodes) := by
        intro us hus
        induction us with
        | nil => rfl
        | cons u us ihus =>
            rw [List.cons_subset] at hus
            rw [leavesOfAll?, ih u hus.1, ihus hus.2, List.flatMap_cons, positionsOfAll?_append]
            cases positionsOfAll? u.leafNodes <;>
              cases positionsOfAll? (us.flatMap leafNodes) <;> rfl
      rw [leaves?, leafNodes, nodes_eq, descendants, List.filter_cons, List.filter_flatMap]
      cases ts with
      | nil =>
          simp only [isLeaf, children, List.isEmpty_nil, if_true, List.flatMap_nil]
          rw [positions?_eq]
          simp [positionsOfAll?, span]
      | cons t ts => exact hall (t :: ts) (List.Subset.refl _)

variable (dict : Dictionary) (d : Derivation α)

theorem leafNodes_debinarize :
    (d.debinarize dict).leafNodes.Perm (d.leafNodes.map (debinarize dict)) := by
  refine ((nodes_debinarize dict d).filter isLeaf).trans (.of_eq ?_)
  have hleaf : isLeaf ∘ debinarize dict = (isLeaf : Derivation α → Bool) :=
    funext fun t => isLeaf_debinarize dict t
  have hkept : ((d.keptBelow dict).filter isLeaf) = d.descendants.filter isLeaf := by
    rw [keptBelow, List.filter_filter]
    refine List.filter_congr fun t _ => ?_
    rw [isKept]
    cases t.isLeaf <;> rfl
  rw [List.filter_map, hleaf, leafNodes, nodes_eq, List.filter_cons, List.filter_cons, hkept]

theorem leaves?_debinarize :
    Option.Rel List.Perm (d.debinarize dict).leaves? d.leaves? := by
  have hspan : positionsOfAll? (d.leafNodes.map (debinarize dict)) =
      positionsOfAll? d.leafNodes := by
    simp only [positionsOfAll?, List.all_map, List.flatMap_map, Function.comp_def, span_debinarize]
  rw [leaves?_eq, leaves?_eq, ← hspan]
  exact positionsOfAll?_perm (leafNodes_debinarize dict d)

end Leaves

/-! Costs play no part, so they may tell apart nodes that are otherwise alike. -/

section Costs

variable (dict : Dictionary) (f : α → β) (d : Derivation α)

theorem mapCosts_eq (ts : List (Derivation α)) : mapCosts f ts = ts.map (mapCost f) := by
  induction ts with
  | nil => rfl
  | cons t ts ih => rw [mapCosts, ih, List.map_cons]

theorem children_mapCost : (d.mapCost f).children = d.children.map (mapCost f) := by
  cases d
  exact mapCosts_eq f _

theorem span_mapCost : (d.mapCost f).span = d.span := by
  cases d
  rfl

theorem isKept_mapCost : (d.mapCost f).isKept dict = d.isKept dict := by
  have hlabel : (d.mapCost f).label = d.label := by
    cases d
    rfl
  rw [isKept, isLeaf, children_mapCost, List.isEmpty_map, hlabel]
  rfl

theorem debinarize_mapCost :
    (d.mapCost f).debinarize dict = (d.debinarize dict).mapCost f := by
  induction d using induct with
  | h d ih =>
      have hflatten : flatten dict (d.children.map (mapCost f)) =
          (flatten dict d.children).map (mapCost f) := by
        rw [flatten_eq, flatten_eq, List.flatMap_map, List.map_flatMap]
        refine List.flatMap_congr fun t ht => ?_
        rw [isKept_mapCost, ih t ht]
        split
        · rfl
        · exact children_mapCost f _
      have hsort := (isStableSort_mergeSort (fun t : Derivation β => t.span.l1)
        ((flatten dict d.children).map (mapCost f))).unique
          ((isStableSort_mergeSort _ (flatten dict d.children)).map fun t => by rw [span_mapCost])
      cases d
      simp only [children] at hflatten hsort
      simp only [mapCost, debinarize, mapCosts_eq, hflatten, hsort]

end Costs

/-- Every node that is kept keeps its label, its name, its span and its cost, and has below it what
is kept next below it, sorted once and stably. One kept node stands below another exactly where it
did, leaves stay leaves at their positions, and nothing is left to take out or to sort. Costs play
no part, so nodes that are alike may be told apart by them. -/
theorem debinarize_flattens (dict : Dictionary) (d : Derivation α) :
    (∀ t ∈ d :: d.keptBelow dict, t.debinarize dict ∈ (d.debinarize dict).nodes ∧
      (t.debinarize dict).label = t.label ∧ (t.debinarize dict).name = t.name ∧
      (t.debinarize dict).span = t.span ∧ (t.debinarize dict).cost = t.cost ∧
      (t.debinarize dict).isLeaf = t.isLeaf ∧
      ∃ ts, IsStableSort (fun u => u.span.l1) (t.fringe dict) ts ∧
        (t.debinarize dict).children = ts.map (debinarize dict)) ∧
    (d.debinarize dict).descendants.Perm ((d.keptBelow dict).map (debinarize dict)) ∧
    (d.debinarize dict).ancestry.Perm
      ((d.keptAncestry dict).map (Prod.map (debinarize dict) (debinarize dict))) ∧
    (∀ t ∈ (d.debinarize dict).descendants,
      t.isLeaf = true ∨ dict.isArtificial t.label = false) ∧
    (∀ t ∈ (d.debinarize dict).nodes,
      t.children.Pairwise fun a b => a.span.l1 ≤ b.span.l1) ∧
    Option.Rel List.Perm (d.debinarize dict).leaves? d.leaves? ∧
    (d.debinarize dict).debinarize dict = d.debinarize dict ∧
    ∀ (β : Type) (f : α → β), (d.mapCost f).debinarize dict = (d.debinarize dict).mapCost f := by
  refine ⟨?kept, descendants_debinarize dict d, ancestry_debinarize dict d, ?inner,
    fun _ => ordered_debinarize dict d, leaves?_debinarize dict d, debinarize_debinarize dict d,
    fun _ f => debinarize_mapCost dict f d⟩
  case kept =>
    intro t ht
    exact ⟨(nodes_debinarize dict d).mem_iff.mpr (List.mem_map_of_mem ht), label_debinarize dict t,
      name_debinarize dict t, span_debinarize dict t, cost_debinarize dict t,
      isLeaf_debinarize dict t, exists_sorted_fringe dict t⟩
  case inner =>
    intro t ht
    simpa [isKept] using isKept_of_mem_descendants dict d ht

/-- A label of the grammar, and one of binarization. -/
def binarizedNames : Dictionary := ⟨#["S", "@S"], ∅⟩

def nestedLeaf : Derivation Nat := .node ⟨0⟩ "S" (.one 1 2) 1 []

/-- Two nodes to take out, one below the other, and a leaf that stays in spite of its label. Two
leaves start at the same position. -/
def nested : Derivation Nat :=
  .node ⟨1⟩ "@S" (.one 0 3) 9
    [.node ⟨1⟩ "@S" (.two 0 1 2 3) 6
      [.node ⟨1⟩ "@S" (.one 1 2) 3 [nestedLeaf], .node ⟨0⟩ "S" (.one 0 1) 2 []],
     .node ⟨1⟩ "@S" (.one 1 2) 4 []]

theorem debinarize_flattens_nested : nestedLeaf ∈ nested :: nested.keptBelow binarizedNames ∧
    nestedLeaf.debinarize binarizedNames ∈ (nested.debinarize binarizedNames).nodes ∧
    (nested.fringe binarizedNames).map cost = [1, 2, 4] ∧
    (nested.debinarize binarizedNames).children.map cost = [2, 1, 4] := by
  have hmem : nestedLeaf ∈ nested :: nested.keptBelow binarizedNames :=
    List.mem_cons_of_mem _ (List.mem_filter.mpr
      ⟨by simp [nested, nestedLeaf, descendants, children, nodes, nodesOfAll], rfl⟩)
  have hflat := debinarize_flattens binarizedNames nested
  obtain ⟨-, -, -, -, -, -, ts, hts, hchildren⟩ := hflat.1 nested List.mem_cons_self
  have hsorted : IsStableSort (fun u => u.span.l1) (nested.fringe binarizedNames)
      [.node ⟨0⟩ "S" (.one 0 1) 2 [], nestedLeaf, .node ⟨1⟩ "@S" (.one 1 2) 4 []] := by
    refine ⟨by decide, fun k => ?_⟩
    change _ = List.filter _
      [nestedLeaf, .node ⟨0⟩ "S" (.one 0 1) 2 [], .node ⟨1⟩ "@S" (.one 1 2) 4 []]
    simp only [nestedLeaf, List.filter_cons, span, Span.one]
    rcases eq_or_ne 0 k with rfl | hk
    · simp
    · simp [hk]
  refine ⟨hmem, (hflat.1 nestedLeaf hmem).1, by rfl, ?_⟩
  rw [hchildren, hts.unique hsorted, List.map_map]
  simp only [List.map_cons, List.map_nil, Function.comp_def, cost_debinarize]
  rfl

end Derivation

end Discontinuous
