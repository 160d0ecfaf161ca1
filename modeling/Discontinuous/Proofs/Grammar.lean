import Discontinuous.Lexicon
import Discontinuous.Proofs.Cost
import Discontinuous.Proofs.Keyed

/-!
Grammars and lexicons as callers build them: from nothing, by any additions, whether these succeed
or not. Whatever the order, clauses are found under their labels, labels keep the number of ranges
of their first use, and no cost is negative.
-/
namespace Discontinuous

namespace Dictionary

/-- The label has a name. -/
def Has (d : Dictionary) (l : Label) : Prop := 0 ≤ l.id ∧ l.id < d.size

instance (d : Dictionary) (l : Label) : Decidable (d.Has l) :=
  inferInstanceAs (Decidable (0 ≤ l.id ∧ l.id < d.size))

/-- Names lead to labels that have a name. -/
def Sound (d : Dictionary) : Prop :=
  ∀ (name : String) (l : Label), d.labels[name]? = some l → d.Has l

theorem sound_empty : empty.Sound := by
  intro name l h
  simp [empty] at h

theorem Has.mono {d d' : Dictionary} (hle : d.size ≤ d'.size) {l : Label} (h : d.Has l) :
    d'.Has l :=
  ⟨h.1, Int.lt_of_lt_of_le h.2 (Int.ofNat_le.mpr hle)⟩

structure Interned (d d' : Dictionary) (l : Label) : Prop where
  sound : d'.Sound
  size_le : d.size ≤ d'.size
  has : d'.Has l

theorem interned [Composer] {d : Dictionary} (hd : d.Sound) (name : String) :
    Interned d (d.intern name).1 (d.intern name).2 := by
  simp only [intern]
  rw [Std.TreeMap.get?_eq_getElem?]
  cases hl : d.labels[Text.composedString name]? with
  | some l => exact ⟨hd, Nat.le_refl _, hd _ _ hl⟩
  | none =>
      have hsize : d.size ≤ (d.names.push (Text.composedString name)).size := by
        rw [Array.size_push]
        exact Nat.le_succ _
      have hnew : 0 ≤ (d.size : Int) ∧
          (d.size : Int) < (d.names.push (Text.composedString name)).size := by
        rw [Array.size_push]
        simp only [size]
        omega
      refine ⟨?_, hsize, hnew⟩
      intro other l h
      rcases (Map.getElem?_insert_eq_some_iff _ _ _ _ _).mp h with ⟨-, rfl⟩ | ⟨-, h⟩
      · exact hnew
      · exact (hd other l h).mono hsize

end Dictionary

theorem Yield.classify_ok {y : Yield} {unary : Bool} {jt : JoinType}
    (h : y.classify unary = .ok jt) : jt.yield = y ∧ jt.isUnary = unary := by
  simp only [classify] at h
  split at h
  next => cases h
  next jt' hfind =>
    have hy := List.find?_some hfind
    split at h
    next hunary =>
      cases h
      exact ⟨eq_of_beq hy, hunary⟩
    next => split at h <;> cases h

namespace Grammar

variable {α : Type}

/-- An index lists the places of the clauses with a label, in ascending order. -/
def Lists (clauses : Array (Clause α)) (key : Clause α → Option Label)
    (index : Map Label (Array Nat)) : Prop :=
  ∀ l, (index.getD l #[]).toList =
    (List.range clauses.size).filter fun i => decide (clauses[i]?.bind key = some l)

theorem lists_empty (key : Clause α → Option Label) : Lists #[] key ∅ := by
  intro l
  simp [Std.TreeMap.getD_emptyc]

theorem Lists.congr {clauses clauses' : Array (Clause α)} {key : Clause α → Option Label}
    {index : Map Label (Array Nat)} (h : Lists clauses key index)
    (hsize : clauses'.size = clauses.size)
    (hkey : ∀ i : Nat, clauses'[i]?.bind key = clauses[i]?.bind key) :
    Lists clauses' key index := by
  intro l
  simp only [h l, hsize, hkey]

theorem filter_push (clauses : Array (Clause α)) (key : Clause α → Option Label) (c : Clause α)
    (l : Label) :
    ((List.range (clauses.push c).size).filter fun i =>
        decide ((clauses.push c)[i]?.bind key = some l)) =
      ((List.range clauses.size).filter fun i => decide (clauses[i]?.bind key = some l)) ++
        if key c = some l then [clauses.size] else [] := by
  rw [Array.size_push, List.range_succ, List.filter_append]
  congr 1
  · apply List.filter_congr
    intro i hi
    rw [Array.getElem?_push, if_neg (Nat.ne_of_lt (List.mem_range.mp hi))]
  · simp [List.filter_cons]

theorem Lists.push {clauses : Array (Clause α)} {key : Clause α → Option Label}
    {index : Map Label (Array Nat)} (h : Lists clauses key index) {c : Clause α} {l : Label}
    (hkey : key c = some l) : Lists (clauses.push c) key (appendAt index l clauses.size) := by
  intro k
  simp only [appendAt]
  rw [filter_push, Std.TreeMap.getD_insert, hkey]
  by_cases hk : l = k
  · subst hk
    rw [if_pos Std.ReflCmp.compare_self, if_pos rfl, Array.toList_push, h l]
  · rw [if_neg (by rwa [Keyed.cmp_eq_iff]), if_neg (fun heq => hk (Option.some.inj heq)), h k,
      List.append_nil]

theorem Lists.push_none {clauses : Array (Clause α)} {key : Clause α → Option Label}
    {index : Map Label (Array Nat)} (h : Lists clauses key index) {c : Clause α}
    (hkey : key c = none) : Lists (clauses.push c) key index := by
  intro k
  rw [filter_push, hkey, if_neg (by simp), List.append_nil]
  exact h k

/-- Reading a list place by place. -/
theorem filterMap_getElem?_range {β : Type} (xs : List β) :
    (List.range xs.length).filterMap (fun i => xs[i]?) = xs := by
  induction xs with
  | nil => rfl
  | cons x xs ih =>
      rw [List.length_cons, List.range_succ_eq_map,
        List.filterMap_cons_some List.getElem?_cons_zero, List.filterMap_map]
      exact congrArg (x :: ·) ih

/-- What is indexed under a label is what is found by going through all clauses in turn. -/
theorem Lists.clausesAt_eq {g : Grammar α} {key : Clause α → Option Label}
    {index : Map Label (Array Nat)} (h : Lists g.clauses key index) (l : Label) :
    g.clausesAt index l = g.clauses.toList.filter fun c => decide (key c = some l) := by
  have hall := filterMap_getElem?_range g.clauses.toList
  rw [Array.length_toList] at hall
  unfold clausesAt
  rw [h l, List.filterMap_filter, ← hall, List.filter_filterMap]
  congr 1
  funext i
  rw [Array.getElem?_toList]
  cases hi : g.clauses[i]? with
  | none => simp
  | some c => simp [Option.filter]

theorem Lists.mem_clausesAt {g : Grammar α} {key : Clause α → Option Label}
    {index : Map Label (Array Nat)} (h : Lists g.clauses key index) (l : Label) (c : Clause α) :
    c ∈ g.clausesAt index l ↔ c ∈ g.clauses ∧ key c = some l := by
  rw [h.clausesAt_eq, List.mem_filter, Array.mem_toList_iff, decide_eq_true_iff]

theorem checkArity_ok {g : Grammar α} {l : Label} {n : Nat} (h : g.checkArity l n = .ok ()) :
    ∀ m, g.arities[l]? = some m → m = n := by
  intro m hm
  simp only [checkArity] at h
  rw [Std.TreeMap.get?_eq_getElem?, hm] at h
  by_contra hne
  simp [hne] at h

/-- The uses behind the first one are checked against it and against all that were seen before. -/
theorem checkUses_cons {g : Grammar α} {seen rest : List (Label × Nat)} {k : Label} {used : Nat}
    (h : g.checkUses seen ((k, used) :: rest) = .ok ()) :
    (∀ m, g.arities[k]? = some m → m = used) ∧ (∀ m, seen.lookup k = some m → m = used) ∧
      ∃ seen', g.checkUses seen' rest = .ok () ∧ seen'.lookup k = some used ∧
        ∀ l m, seen.lookup l = some m → seen'.lookup l = some m := by
  simp only [checkUses] at h
  split at h
  next => cases h
  next hk =>
    refine ⟨checkArity_ok hk, ?_⟩
    split at h
    next hseen =>
      refine ⟨?_, (k, used) :: seen, h, by simp, ?_⟩
      · intro m hm
        cases hseen.symm.trans hm
      · intro l m hm
        by_cases heq : l = k
        · rw [heq, hseen] at hm
          cases hm
        · simpa [List.lookup_cons, beq_false_of_ne heq] using hm
    next first hseen =>
      split at h
      next heq =>
        subst heq
        refine ⟨?_, seen, h, hseen, fun _ _ hm => hm⟩
        intro m hm
        exact Option.some.inj (hm.symm.trans hseen)
      next => cases h

/-- Uses that pass the check agree with the arities so far, and with one another. -/
theorem checkUses_ok {g : Grammar α} {seen uses : List (Label × Nat)}
    (h : g.checkUses seen uses = .ok ()) : ∀ l n, (l, n) ∈ uses →
      (∀ m, g.arities[l]? = some m → m = n) ∧ (∀ m, seen.lookup l = some m → m = n) ∧
        ∀ m, (l, m) ∈ uses → m = n := by
  induction uses generalizing seen with
  | nil =>
      intro l n hmem
      cases hmem
  | cons use rest ih =>
      obtain ⟨k, used⟩ := use
      obtain ⟨hreg, hfirst, seen', hrest, hk, hkeep⟩ := checkUses_cons h
      intro l n hmem
      rcases List.mem_cons.mp hmem with heq | hmem
      · cases heq
        refine ⟨hreg, hfirst, ?_⟩
        intro m hm
        rcases List.mem_cons.mp hm with heq | hm
        · exact congrArg Prod.snd heq
        · exact ((ih hrest k m hm).2.1 used hk).symm
      · obtain ⟨h1, h2, h3⟩ := ih hrest l n hmem
        refine ⟨h1, fun m hm => h2 m (hkeep l m hm), ?_⟩
        intro m hm
        rcases List.mem_cons.mp hm with heq | hm
        · cases heq
          exact h2 used hk
        · exact h3 m hm

theorem registerUses_of_not_mem (uses : List (Label × Nat)) (a : Map Label Nat) {l : Label}
    (hl : ∀ n, (l, n) ∉ uses) : (registerUses a uses)[l]? = a[l]? := by
  simp only [registerUses]
  induction uses generalizing a with
  | nil => rfl
  | cons use rest ih =>
      rw [List.foldl_cons, ih _ fun n hn => hl n (List.mem_cons_of_mem _ hn)]
      refine Map.getElem?_insert_of_ne _ (fun heq => hl use.2 ?_) _
      rw [heq]
      exact List.mem_cons_self

theorem registerUses_of_mem (uses : List (Label × Nat)) (a : Map Label Nat) {l : Label} {n : Nat}
    (hl : (l, n) ∈ uses) (hsame : ∀ m, (l, m) ∈ uses → m = n) :
    (registerUses a uses)[l]? = some n := by
  induction uses generalizing a with
  | nil => cases hl
  | cons use rest ih =>
      by_cases hrest : ∃ m, (l, m) ∈ rest
      · obtain ⟨m, hm⟩ := hrest
        obtain rfl := hsame m (List.mem_cons_of_mem _ hm)
        exact ih _ hm fun k hk => hsame k (List.mem_cons_of_mem _ hk)
      · have hne : ∀ m, (l, m) ∉ rest := fun m hm => hrest ⟨m, hm⟩
        rcases List.mem_cons.mp hl with rfl | hl
        · exact (registerUses_of_not_mem rest _ hne).trans Std.TreeMap.getElem?_insert_self
        · exact absurd hl (hne n)

/-- Uses that pass the check leave the arities so far as they are. -/
theorem registerUses_of_checkUses {g : Grammar α} {uses : List (Label × Nat)}
    (h : g.checkUses [] uses = .ok ()) {l : Label} {n : Nat} (hl : g.arities[l]? = some n) :
    (registerUses g.arities uses)[l]? = some n := by
  have hok := checkUses_ok h
  by_cases hused : ∃ m, (l, m) ∈ uses
  · obtain ⟨m, hm⟩ := hused
    rw [(hok l m hm).1 n hl]
    exact registerUses_of_mem _ _ hm (hok l m hm).2.2
  · rwa [registerUses_of_not_mem _ _ fun m hm => hused ⟨m, hm⟩]

theorem insert_of_checkArity {g : Grammar α} {k l : Label} {m n : Nat}
    (h : g.checkArity k m = .ok ()) (hl : g.arities[l]? = some n) :
    (g.arities.insert k m)[l]? = some n := by
  by_cases heq : l = k
  · subst heq
    rw [checkArity_ok h n hl, Std.TreeMap.getElem?_insert_self]
  · rwa [Map.getElem?_insert_of_ne _ heq]

variable [Cost α]

/-- What is known of a clause of a grammar. -/
structure Holds (dict : Dictionary) (arities : Map Label Nat) (c : Clause α) : Prop where
  labels : ∀ l n, (l, n) ∈ usesOf c → dict.Has l ∧ arities[l]? = some n
  classified : c.yield.classify c.isUnary = .ok c.join
  cost : Cost.isAdmitted c.cost = true

structure WellFormed (g : Grammar α) : Prop where
  dict : g.dict.Sound
  start : g.dict.Has g.start
  id : ∀ (i : Nat) (c : Clause α), g.clauses[i]? = some c → c.id = i
  clause : ∀ c ∈ g.clauses, Holds g.dict g.arities c
  lhs : Lists g.clauses (fun c => some c.lhs) g.lhsIndex
  left : Lists g.clauses (fun c => some c.left) g.leftIndex
  right : Lists g.clauses Clause.right g.rightIndex
  preterminal : ∀ l, g.isPreterminal l = true → g.dict.Has l
  single : ∀ l, g.isPreterminal l = true → g.arities[l]? = some 1

theorem wellFormed_new [Composer] (start : String) : (new start : Grammar α).WellFormed := by
  have hi := Dictionary.interned Dictionary.sound_empty start
  refine ⟨hi.sound, hi.has, ?_, ?_, lists_empty _, lists_empty _, lists_empty _, ?_, ?_⟩
  · intro i c h
    simp [new] at h
  · intro c h
    simp [new] at h
  · intro l h
    simp [new, isPreterminal] at h
  · intro l h
    simp [new, isPreterminal] at h

theorem Holds.mono {d d' : Dictionary} {a a' : Map Label Nat} {c : Clause α} (h : Holds d a c)
    (hd : d.size ≤ d'.size) (ha : ∀ (l : Label) (n : Nat), a[l]? = some n → a'[l]? = some n) :
    Holds d' a' c :=
  ⟨fun l n hl => ⟨(h.labels l n hl).1.mono hd, ha l n (h.labels l n hl).2⟩, h.classified, h.cost⟩

/-- Dictionaries and arities may grow. -/
theorem WellFormed.grow {g : Grammar α} (h : g.WellFormed) {d : Dictionary} {a : Map Label Nat}
    (hd : d.Sound) (hsize : g.dict.size ≤ d.size)
    (ha : ∀ (l : Label) (n : Nat), g.arities[l]? = some n → a[l]? = some n) :
    { g with dict := d, arities := a }.WellFormed where
  dict := hd
  start := h.start.mono hsize
  id := h.id
  clause c hc := (h.clause c hc).mono hsize ha
  lhs := h.lhs
  left := h.left
  right := h.right
  preterminal l hl := (h.preterminal l hl).mono hsize
  single l hl := ha l 1 (h.single l hl)

theorem wellFormed_addPreterminal [Composer] {g : Grammar α} (h : g.WellFormed) (name : String) :
    (g.addPreterminal name).1.WellFormed := by
  have hi := Dictionary.interned h.dict name
  have hg := h.grow hi.sound hi.size_le fun _ _ => id
  simp only [addPreterminal]
  split
  next => exact hg
  next hok =>
    have hgrown := hg.grow hi.sound (Nat.le_refl _)
      (a := g.arities.insert (g.dict.intern name).2 1) fun l n hl =>
        insert_of_checkArity (g := { g with dict := (g.dict.intern name).1 }) hok hl
    have hold : ∀ l, (g.preterminals.insert (g.dict.intern name).2 ()).contains l = true →
        l = (g.dict.intern name).2 ∨ g.isPreterminal l = true := by
      intro l hl
      rw [Std.TreeMap.contains_insert, Bool.or_eq_true, beq_iff_eq, Keyed.cmp_eq_iff] at hl
      exact hl.imp_left Eq.symm
    refine ⟨hgrown.dict, hgrown.start, hgrown.id, hgrown.clause, hgrown.lhs, hgrown.left,
      hgrown.right, ?_, ?_⟩
    · intro l hl
      rcases hold l hl with rfl | hl
      · exact hi.has
      · exact hgrown.preterminal l hl
    · intro l hl
      rcases hold l hl with rfl | hl
      · exact Std.TreeMap.getElem?_insert_self
      · exact hgrown.single l hl

/-- A clause may take another admitted cost. -/
theorem wellFormed_keepCheaper {g : Grammar α} (h : g.WellFormed) {c : Clause α}
    (hc : c ∈ g.clauses) {cost : α} (hcost : Cost.isAdmitted cost = true) :
    (g.keepCheaper c cost).1.WellFormed := by
  simp only [keepCheaper]
  split
  next =>
    obtain ⟨i, hi⟩ := Array.mem_iff_getElem?.mp hc
    obtain rfl := h.id i c hi
    have hlt := (Array.getElem?_eq_some_iff.mp hi).1
    have hget : ∀ j : Nat, (g.clauses.setIfInBounds c.id { c with cost })[j]? =
        if c.id = j then some { c with cost } else g.clauses[j]? := fun j => by
      rw [Array.getElem?_setIfInBounds]
      simp [hlt]
    have hkey : ∀ (key : Clause α → Option Label), key { c with cost } = key c → ∀ j : Nat,
        (g.clauses.setIfInBounds c.id { c with cost })[j]?.bind key = g.clauses[j]?.bind key := by
      intro key hk j
      rw [hget]
      split
      next heq =>
        rw [← heq, hi]
        exact hk
      next => rfl
    have hsize : (g.clauses.setIfInBounds c.id { c with cost }).size = g.clauses.size :=
      Array.size_setIfInBounds
    refine ⟨h.dict, h.start, ?_, ?_, h.lhs.congr hsize (hkey _ rfl),
      h.left.congr hsize (hkey _ rfl), h.right.congr hsize (hkey _ rfl), h.preterminal,
      h.single⟩
    · intro j d hd
      rw [hget] at hd
      split at hd
      next heq =>
        cases hd
        exact heq
      next => exact h.id j d hd
    · intro d hd
      obtain ⟨j, hj⟩ := Array.mem_iff_getElem?.mp hd
      rw [hget] at hj
      split at hj
      next =>
        cases hj
        have hold := h.clause c hc
        exact ⟨hold.labels, hold.classified, hcost⟩
      next => exact h.clause d (Array.mem_of_getElem? hj)
  next => exact h

theorem wellFormed_append {g : Grammar α} (h : g.WellFormed) {c : Clause α}
    (hc : Holds g.dict g.arities c) (hid : c.id = g.clauses.size) : (g.append c).WellFormed where
  dict := h.dict
  start := h.start
  id i d hd := by
    change (g.clauses.push c)[i]? = some d at hd
    rw [Array.getElem?_push] at hd
    split at hd
    next heq =>
      cases hd
      rw [hid, heq]
    next => exact h.id i d hd
  clause d hd := by
    rcases Array.mem_push.mp hd with hd | rfl
    · exact h.clause d hd
    · exact hc
  lhs := by
    simp only [append]
    rw [hid]
    exact h.lhs.push rfl
  left := by
    simp only [append]
    rw [hid]
    exact h.left.push rfl
  right := by
    simp only [append]
    rw [hid]
    cases hr : c.right with
    | none => exact h.right.push_none hr
    | some r => exact h.right.push hr
  preterminal := h.preterminal
  single := h.single

theorem wellFormed_addInterned {g : Grammar α} (h : g.WellFormed) {c : Clause α}
    (hlabels : ∀ l n, (l, n) ∈ usesOf c → g.dict.Has l)
    (hclassified : c.yield.classify c.isUnary = .ok c.join)
    (hcost : Cost.isAdmitted c.cost = true) : (g.addInterned c).1.WellFormed := by
  unfold addInterned
  split
  next => exact h
  next hok =>
    have hreg : ∀ l n, (l, n) ∈ usesOf c → (registerUses g.arities (usesOf c))[l]? = some n :=
      fun l n hl => registerUses_of_mem _ _ hl (checkUses_ok hok l n hl).2.2
    have hg := h.grow h.dict (Nat.le_refl _) (a := registerUses g.arities (usesOf c))
      fun l n hl => registerUses_of_checkUses hok hl
    dsimp only
    split
    next old hold =>
      obtain ⟨i, -, hi⟩ := Option.bind_eq_some_iff.mp hold
      exact wellFormed_keepCheaper hg (Array.mem_of_getElem? hi) hcost
    next =>
      exact wellFormed_append hg
        ⟨fun l n hl => ⟨hlabels l n hl, hreg l n hl⟩, hclassified, hcost⟩ rfl

theorem wellFormed_addClause [Composer] {g : Grammar α} (h : g.WellFormed) (lhs left : String)
    (right : Option String) (y : Yield) (cost : α) :
    (g.addClause lhs left right y cost).1.WellFormed := by
  unfold addClause
  split
  next => exact h
  next hcost =>
    split
    next => exact h
    next jt hjt =>
      have hcost : Cost.isAdmitted cost = true := by simpa using hcost
      have h1 := Dictionary.interned h.dict lhs
      have h2 := Dictionary.interned h1.sound left
      dsimp only
      split
      next =>
        refine wellFormed_addInterned
          (h.grow h2.sound (Nat.le_trans h1.size_le h2.size_le) fun _ _ => id) ?_ hjt hcost
        intro l n hl
        simp only [usesOf, Option.map_none, Option.toList_none, List.mem_cons, Prod.mk.injEq,
          List.not_mem_nil, or_false] at hl
        rcases hl with ⟨rfl, -⟩ | ⟨rfl, -⟩
        · exact h1.has.mono h2.size_le
        · exact h2.has
      next right =>
        have h3 := Dictionary.interned h2.sound right
        refine wellFormed_addInterned (h.grow h3.sound
          (Nat.le_trans h1.size_le (Nat.le_trans h2.size_le h3.size_le)) fun _ _ => id) ?_
          hjt hcost
        intro l n hl
        simp only [usesOf, Option.map_some, Option.toList_some, List.mem_cons, Prod.mk.injEq,
          List.not_mem_nil, or_false] at hl
        rcases hl with ⟨rfl, -⟩ | ⟨rfl, -⟩ | ⟨rfl, -⟩
        · exact h1.has.mono (Nat.le_trans h2.size_le h3.size_le)
        · exact h2.has.mono h3.size_le
        · exact h3.has

theorem WellFormed.mem_byLhs {g : Grammar α} (h : g.WellFormed) {l : Label} {c : Clause α} :
    c ∈ g.byLhs l ↔ c ∈ g.clauses ∧ c.lhs = l :=
  (h.lhs.mem_clausesAt l c).trans (and_congr_right fun _ => Option.some_inj)

theorem WellFormed.mem_byLeft {g : Grammar α} (h : g.WellFormed) {l : Label} {c : Clause α} :
    c ∈ g.byLeft l ↔ c ∈ g.clauses ∧ c.left = l :=
  (h.left.mem_clausesAt l c).trans (and_congr_right fun _ => Option.some_inj)

theorem WellFormed.mem_byRight {g : Grammar α} (h : g.WellFormed) {l : Label} {c : Clause α} :
    c ∈ g.byRight l ↔ c ∈ g.clauses ∧ c.right = some l :=
  h.right.mem_clausesAt l c

/-- No two clauses of an index have the same number. -/
theorem WellFormed.pairwise_id_ne {g : Grammar α} (h : g.WellFormed)
    {key : Clause α → Option Label} {index : Map Label (Array Nat)}
    (hindex : Lists g.clauses key index) (l : Label) :
    (g.clausesAt index l).Pairwise fun c d => c.id ≠ d.id := by
  rw [hindex.clausesAt_eq]
  apply List.Pairwise.filter
  apply List.pairwise_iff_getElem.mpr
  intro i j hi hj hlt hid
  have hci := h.id i _ (Array.getElem?_eq_getElem hi)
  have hcj := h.id j _ (Array.getElem?_eq_getElem hj)
  rw [Array.getElem_toList, Array.getElem_toList] at hid
  omega

/-- The yield function of a clause is that of its join type. -/
theorem WellFormed.yield_eq {g : Grammar α} (h : g.WellFormed) {c : Clause α}
    (hc : c ∈ g.clauses) : c.yield = c.join.yield :=
  (Yield.classify_ok (h.clause c hc).classified).1.symm

theorem WellFormed.isUnary_join {g : Grammar α} (h : g.WellFormed) {c : Clause α}
    (hc : c ∈ g.clauses) : c.join.isUnary = c.isUnary :=
  (Yield.classify_ok (h.clause c hc).classified).2

theorem WellFormed.isUnary_eq_true {g : Grammar α} (h : g.WellFormed) {c : Clause α}
    (hc : c ∈ g.clauses) (hr : c.right = none) : c.join.isUnary = true := by
  rw [h.isUnary_join hc, Clause.isUnary, hr]
  rfl

theorem WellFormed.isUnary_eq_false {g : Grammar α} (h : g.WellFormed) {c : Clause α}
    (hc : c ∈ g.clauses) {r : Label} (hr : c.right = some r) : c.join.isUnary = false := by
  rw [h.isUnary_join hc, Clause.isUnary, hr]
  rfl

theorem WellFormed.has_lhs {g : Grammar α} (h : g.WellFormed) {c : Clause α}
    (hc : c ∈ g.clauses) : g.dict.Has c.lhs :=
  ((h.clause c hc).labels _ _ List.mem_cons_self).1

theorem WellFormed.arity_lhs {g : Grammar α} (h : g.WellFormed) {c : Clause α}
    (hc : c ∈ g.clauses) : g.arity c.lhs = c.join.arity := by
  have huse := (h.clause c hc).labels c.lhs c.join.arity List.mem_cons_self
  rw [arity, Std.TreeMap.getD_eq_getD_getElem?, huse.2]
  rfl

theorem WellFormed.arity_preterminal {g : Grammar α} (h : g.WellFormed) {l : Label}
    (hl : g.isPreterminal l = true) : g.arity l = 1 := by
  rw [arity, Std.TreeMap.getD_eq_getD_getElem?, h.single l hl]
  rfl

theorem WellFormed.arity_left {g : Grammar α} (h : g.WellFormed) {c : Clause α}
    (hc : c ∈ g.clauses) : g.dict.Has c.left ∧ g.arity c.left = c.join.childArity .left := by
  have huse := (h.clause c hc).labels c.left (c.join.childArity .left) (by simp [usesOf])
  refine ⟨huse.1, ?_⟩
  rw [arity, Std.TreeMap.getD_eq_getD_getElem?, huse.2]
  rfl

theorem WellFormed.arity_right {g : Grammar α} (h : g.WellFormed) {c : Clause α}
    (hc : c ∈ g.clauses) {r : Label} (hr : c.right = some r) :
    g.dict.Has r ∧ g.arity r = c.join.childArity .right := by
  have huse := (h.clause c hc).labels r (c.join.childArity .right) (by simp [usesOf, hr])
  refine ⟨huse.1, ?_⟩
  rw [arity, Std.TreeMap.getD_eq_getD_getElem?, huse.2]
  rfl

omit [Cost α] in
theorem mem_preterminalList {g : Grammar α} {l : Label} :
    l ∈ g.preterminalList ↔ g.isPreterminal l = true := by
  simp only [preterminalList, isPreterminal]
  rw [Std.TreeMap.mem_keys, Std.TreeMap.mem_iff_contains]

end Grammar

namespace Lexicon

variable {α : Type} [Cost α]

/-- No entry has a cost that is refused. -/
def WellFormed (lex : Lexicon α) : Prop :=
  ∀ (t : Tagging) (cost : α), lex.costs[t]? = some cost → Cost.isAdmitted cost = true

theorem wellFormed_empty : (empty : Lexicon α).WellFormed := by
  intro t cost h
  simp [empty] at h

omit [Cost α] in
theorem costs_intern [Composer] (lex : Lexicon α) (word : Text) : (lex.intern word).1.costs = lex.costs := by
  simp only [intern]
  split <;> rfl

theorem wellFormed_enter {lex : Lexicon α} (h : lex.WellFormed) (t : Tagging) {cost : α}
    (hcost : Cost.isAdmitted cost = true) : (lex.enter t cost).WellFormed := by
  have hinsert : ∀ (u : Tagging) (x : α), (lex.costs.insert t cost)[u]? = some x →
      Cost.isAdmitted x = true := by
    intro u x hx
    rcases (Map.getElem?_insert_eq_some_iff _ _ _ _ _).mp hx with ⟨-, rfl⟩ | ⟨-, hx⟩
    · exact hcost
    · exact h u x hx
  simp only [enter]
  split
  next =>
    split
    next => exact hinsert
    next => exact h
  next => exact hinsert

/-- What becomes of an entry. It is refused for its cost while nothing has changed, or for its tag,
and otherwise its word has a number before it is entered. -/
inductive AddsEntry [Composer] (lex : Lexicon α) (g : Grammar α) (word : Text) (tag : String) (cost : α) :
    Lexicon α × Grammar α × Except GrammarError Unit → Prop where
  | badCost : Cost.isAdmitted cost = false → AddsEntry lex g word tag cost
      (lex, g, .error (.badCost ("lexical entry " ++ word.toString ++ "/" ++ tag)))
  | badTag {e : GrammarError} : Cost.isAdmitted cost = true →
      (g.addPreterminal tag).2 = .error e →
      AddsEntry lex g word tag cost (lex, (g.addPreterminal tag).1, .error e)
  | entered {l : Label} : Cost.isAdmitted cost = true → (g.addPreterminal tag).2 = .ok l →
      AddsEntry lex g word tag cost
        ((lex.intern word).1.enter ⟨(lex.intern word).2, l⟩ cost, (g.addPreterminal tag).1, .ok ())

theorem addsEntry [Composer] (lex : Lexicon α) (g : Grammar α) (word : Text) (tag : String) (cost : α) :
    lex.AddsEntry g word tag cost (lex.add g word tag cost) := by
  unfold add
  by_cases hcost : Cost.isAdmitted cost = true
  · rw [hcost, Bool.not_true, if_neg Bool.false_ne_true]
    rcases hadd : g.addPreterminal tag with ⟨g', e | l⟩
    · obtain rfl : (g.addPreterminal tag).1 = g' := congrArg Prod.fst hadd
      exact .badTag hcost (congrArg Prod.snd hadd)
    · obtain rfl : (g.addPreterminal tag).1 = g' := congrArg Prod.fst hadd
      exact .entered hcost (congrArg Prod.snd hadd)
  · rw [Bool.not_eq_true] at hcost
    rw [hcost, Bool.not_false, if_pos rfl]
    exact .badCost hcost

end Lexicon

/-- An addition that a caller can ask for. -/
inductive Edit (α : Type) where
  | preterminal (name : String)
  | clause (lhs left : String) (right : Option String) (yield : Yield) (cost : α)
  | entry (word : Text) (tag : String) (cost : α)

/-- A grammar and the lexicon that goes with it. -/
structure Language (α : Type) where
  grammar : Grammar α
  lexicon : Lexicon α

namespace Language

variable {α : Type} [Composer] [Cost α]

/-- Makes an addition. One that is refused leaves what it leaves. -/
def apply (L : Language α) : Edit α → Language α
  | .preterminal name => { L with grammar := (L.grammar.addPreterminal name).1 }
  | .clause lhs left right y cost =>
      { L with grammar := (L.grammar.addClause lhs left right y cost).1 }
  | .entry word tag cost =>
      let (lexicon, grammar, _) := L.lexicon.add L.grammar word tag cost
      ⟨grammar, lexicon⟩

/-- What additions make of the grammar with a start symbol and an empty lexicon. -/
def ofEdits (start : String) (edits : List (Edit α)) : Language α :=
  edits.foldl apply ⟨.new start, .empty⟩

structure WellFormed (L : Language α) : Prop where
  grammar : L.grammar.WellFormed
  lexicon : L.lexicon.WellFormed

theorem wellFormed_apply {L : Language α} (h : L.WellFormed) (e : Edit α) :
    (L.apply e).WellFormed := by
  cases e with
  | preterminal name => exact ⟨Grammar.wellFormed_addPreterminal h.grammar name, h.lexicon⟩
  | clause lhs left right y cost =>
      exact ⟨Grammar.wellFormed_addClause h.grammar lhs left right y cost, h.lexicon⟩
  | entry word tag cost =>
      have hpre := Grammar.wellFormed_addPreterminal h.grammar tag
      have hadds := L.lexicon.addsEntry L.grammar word tag cost
      simp only [apply]
      generalize L.lexicon.add L.grammar word tag cost = result at hadds ⊢
      cases hadds with
      | badCost _ => exact h
      | badTag _ _ => exact ⟨hpre, h.lexicon⟩
      | entered hcost _ =>
          refine ⟨hpre, Lexicon.wellFormed_enter (fun t x hx => h.lexicon t x ?_) _ hcost⟩
          rwa [Lexicon.costs_intern] at hx

theorem wellFormed_ofEdits (start : String) (edits : List (Edit α)) :
    (ofEdits start edits).WellFormed := by
  refine List.foldlRecOn edits apply
    ⟨Grammar.wellFormed_new start, Lexicon.wellFormed_empty⟩ ?_
  intro L h e _
  exact wellFormed_apply h e

end Language

end Discontinuous
