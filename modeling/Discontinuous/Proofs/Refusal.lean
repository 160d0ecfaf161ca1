import Discontinuous.Proofs.Representation

/-!
Additions that are refused. A grammar and a lexicon stay as they are, but a clause that is refused
for its arities has given labels to its names by then. Nothing else of it is left, and the clauses
that are refused can be told beforehand.
-/
namespace Discontinuous

namespace Dictionary

/-- Every name that leads to a label is the name of that label. -/
def Faithful (d : Dictionary) : Prop :=
  ∀ (s : String) (l : Label), d.labels[s]? = some l → d.name? l = some s

theorem faithful_empty : empty.Faithful := by
  intro s l h
  simp [empty] at h

theorem Faithful.has {d : Dictionary} (h : d.Faithful) {s : String} {l : Label}
    (hl : d.labels[s]? = some l) : d.Has l := by
  have hname := h s l hl
  rw [name?] at hname
  split at hname
  next hpos =>
    obtain ⟨hlt, -⟩ := Array.getElem?_eq_some_iff.mp hname
    refine ⟨hpos, ?_⟩
    rw [size]
    omega
  next => cases hname

section Enrols

variable [Composer]

/-- `d'` has labels for the names as well, and `fresh` are the texts that had none in `d`. -/
structure Enrols (d d' : Dictionary) (names fresh : List String) : Prop where
  texts : d'.names.toList = d.names.toList ++ fresh
  kept : ∀ (s : String) (l : Label), d.labels[s]? = some l → d'.labels[s]? = some l
  told : ∀ (s : String) (l : Label), d'.labels[s]? = some l →
    d.labels[s]? = some l ∨ ¬ d.Has l
  new : ∀ s ∈ fresh, d.labels[s]? = none ∧ ∃ name ∈ names, s = Text.composedString name
  known : ∀ s ∈ fresh, ∃ l, d'.labels[s]? = some l
  nodup : fresh.Nodup
  faithful : d.Faithful → d'.Faithful
  same : fresh = [] → d' = d

variable {d d' d'' : Dictionary} {names names' fresh fresh' : List String}

theorem Enrols.size_le (h : d.Enrols d' names fresh) : d.size ≤ d'.size := by
  have hlength := congrArg List.length h.texts
  rw [List.length_append, Array.length_toList, Array.length_toList] at hlength
  simp only [size]
  omega

theorem enrols_intern (d : Dictionary) (name : String) :
    ∃ fresh, d.Enrols (d.intern name).1 [name] fresh := by
  unfold intern
  dsimp only
  rw [Std.TreeMap.get?_eq_getElem?]
  cases hname : d.labels[Text.composedString name]? with
  | some l =>
      exact ⟨[], by simp, fun _ _ => id, fun _ _ => .inl, by simp, by simp, .nil, id, fun _ => rfl⟩
  | none =>
      refine ⟨[Text.composedString name], by simp,
        fun s l => Map.getElem?_insert_of_none _ hname, ?_, ?_, ?_, List.nodup_singleton _, ?_, ?_⟩
      · intro s l hl
        rcases (Map.getElem?_insert_eq_some_iff _ _ _ _ _).mp hl with ⟨-, rfl⟩ | ⟨-, hl⟩
        · exact .inr fun hhas => absurd hhas.2 (Int.lt_irrefl _)
        · exact .inl hl
      · intro s hs
        rw [List.mem_singleton.mp hs]
        exact ⟨hname, name, List.mem_cons_self, rfl⟩
      · intro s hs
        rw [List.mem_singleton.mp hs]
        exact ⟨_, Std.TreeMap.getElem?_insert_self⟩
      · intro hd s l hl
        rcases (Map.getElem?_insert_eq_some_iff _ _ _ _ _).mp hl with ⟨rfl, rfl⟩ | ⟨-, hl⟩
        · simp [name?, size]
        · have hlt := (hd.has hl).2
          have hold := hd s l hl
          simp only [name?] at hold ⊢
          split at hold
          next hpos =>
            rw [if_pos hpos, Array.getElem?_push, if_neg, hold]
            rw [size] at hlt
            omega
          next => cases hold
      · intro h
        cases h

theorem Enrols.trans (h : d.Enrols d' names fresh) (h' : d'.Enrols d'' names' fresh') :
    d.Enrols d'' (names ++ names') (fresh ++ fresh') := by
  refine ⟨?_, fun s l hl => h'.kept s l (h.kept s l hl), ?_, ?_, ?_, ?_,
    fun hd => h'.faithful (h.faithful hd), ?_⟩
  · rw [h'.texts, h.texts, List.append_assoc]
  · intro s l hl
    rcases h'.told s l hl with hl | hnew
    · exact h.told s l hl
    · exact .inr fun hhas => hnew (hhas.mono h.size_le)
  · intro s hs
    rcases List.mem_append.mp hs with hs | hs
    · obtain ⟨hnone, name, hname, heq⟩ := h.new s hs
      exact ⟨hnone, name, List.mem_append_left _ hname, heq⟩
    · obtain ⟨hnone, name, hname, heq⟩ := h'.new s hs
      refine ⟨?_, name, List.mem_append_right _ hname, heq⟩
      cases hl : d.labels[s]? with
      | none => rfl
      | some l => cases hnone.symm.trans (h.kept s l hl)
  · intro s hs
    rcases List.mem_append.mp hs with hs | hs
    · obtain ⟨l, hl⟩ := h.known s hs
      exact ⟨l, h'.kept s l hl⟩
    · exact h'.known s hs
  · refine List.nodup_append.mpr ⟨h.nodup, h'.nodup, ?_⟩
    rintro s hs _ hs' rfl
    obtain ⟨l, hl⟩ := h.known s hs
    cases (h'.new s hs').1.symm.trans hl
  · intro hnil
    obtain ⟨hfresh, hfresh'⟩ := List.append_eq_nil_iff.mp hnil
    rw [h'.same hfresh', h.same hfresh]

/-- Labels keep their names. -/
theorem Enrols.name_eq (h : d.Enrols d' names fresh) {l : Label} (hl : d.Has l) :
    d'.name l = d.name l := by
  have hlt : l.id.toNat < d.names.toList.length := by
    obtain ⟨hlow, hhigh⟩ := hl
    rw [size] at hhigh
    rw [Array.length_toList]
    omega
  simp only [name, name?]
  rw [if_pos hl.1, if_pos hl.1, ← Array.getElem?_toList, h.texts, List.getElem?_append_left hlt,
    Array.getElem?_toList]

end Enrols

end Dictionary

/-- A label is used with two arities. -/
def GrammarError.OfArity : GrammarError → Prop
  | .arityMismatch .. | .twoArities .. => True
  | .badCost _ | .badShape .. | .unknownLabel _ => False

namespace Request

variable {α : Type} [Composer]

/-- The names of the labels, in the order in which they are looked up. -/
def names (r : Request α) : List String := r.lhs :: r.left :: r.right.toList

/-- The names with the numbers of ranges that a join type gives them. -/
def uses (r : Request α) (jt : JoinType) : List (String × Nat) :=
  (r.lhs, jt.arity) :: (r.left, jt.childArity .left) ::
    (r.right.map fun name => (name, jt.childArity .right)).toList

/-- The addition that a request makes. -/
def edit (r : Request α) : Edit α := .clause r.lhs r.left r.right r.yield r.cost

/-- Some label would have two arities: from one request, or from the grammar and the request. -/
def Conflicts (r : Request α) (g : Grammar α) (jt : JoinType) : Prop :=
  ∃ name n, (name, n) ∈ r.uses jt ∧
    ((∃ other m, (other, m) ∈ r.uses jt ∧
        Text.composedString other = Text.composedString name ∧ m ≠ n) ∨
      ∃ l m, g.dict.lookup? name = some l ∧ g.arities[l]? = some m ∧ m ≠ n)

/-- The labels of a clause are used as their names are. -/
theorem For.mem_usesOf {r : Request α} {d : Dictionary} {c : Clause α} (h : r.For d c.shape)
    {l : Label} {n : Nat} : (l, n) ∈ Grammar.usesOf c ↔
      ∃ name, (name, n) ∈ r.uses c.join ∧ d.lookup? name = some l := by
  have hlhs : d.lookup? r.lhs = some c.lhs := h.lhs
  have hleft : d.lookup? r.left = some c.left := h.left
  have hright : r.right.map d.lookup? = c.right.map some := h.right
  unfold uses Grammar.usesOf
  cases hr : r.right with
  | none =>
      rw [hr, Option.map_none, eq_comm, Option.map_eq_none_iff] at hright
      simp only [hright, Option.map_none, Option.toList_none, List.mem_cons, List.not_mem_nil,
        or_false, Prod.mk.injEq, or_and_right, exists_or]
      simp [hlhs, hleft, eq_comm, and_comm]
  | some name =>
      rw [hr, Option.map_some, eq_comm, Option.map_eq_some_iff] at hright
      obtain ⟨k, hk, hname⟩ := hright
      simp only [hk, Option.map_some, Option.toList_some, List.mem_cons, List.not_mem_nil,
        or_false, Prod.mk.injEq, or_and_right, exists_or]
      simp [hlhs, hleft, ← hname, eq_comm, and_comm]

theorem For.exists_label {r : Request α} {d : Dictionary} {s : Clause.Shape} (h : r.For d s)
    {jt : JoinType} {name : String} {n : Nat} (hmem : (name, n) ∈ r.uses jt) :
    ∃ l, d.lookup? name = some l := by
  unfold uses at hmem
  rcases List.mem_cons.mp hmem with heq | hmem
  · cases heq
    exact ⟨_, h.lhs⟩
  rcases List.mem_cons.mp hmem with heq | hmem
  · cases heq
    exact ⟨_, h.left⟩
  obtain ⟨right, hr, heq⟩ := Option.map_eq_some_iff.mp (Option.mem_toList.mp hmem)
  cases heq
  have hright := h.right
  rw [hr, Option.map_some, eq_comm, Option.map_eq_some_iff] at hright
  obtain ⟨l, -, hl⟩ := hright
  exact ⟨l, hl.symm⟩

end Request

namespace Grammar

variable {α : Type} {g : Grammar α}

/-! Which uses of labels pass. -/

theorem checkArity_of_agree {l : Label} {n : Nat} (h : ∀ m, g.arities[l]? = some m → m = n) :
    g.checkArity l n = .ok () := by
  unfold checkArity
  rw [Std.TreeMap.get?_eq_getElem?]
  cases hm : g.arities[l]? with
  | none => rfl
  | some m => simp [h m hm]

theorem ofArity_of_checkArity {l : Label} {n : Nat} {e : GrammarError}
    (h : g.checkArity l n = .error e) : e.OfArity := by
  unfold checkArity at h
  split at h
  next => cases h
  next =>
    split at h
    next => cases h
    next =>
      cases h
      trivial

theorem ofArity_of_checkUses {seen uses : List (Label × Nat)} {e : GrammarError}
    (h : g.checkUses seen uses = .error e) : e.OfArity := by
  fun_induction checkUses g seen uses with
  | case1 => cases h
  | case2 _ _ _ _ _ harity =>
      cases h
      exact ofArity_of_checkArity harity
  | case3 _ _ _ _ _ _ ih => exact ih h
  | case4 _ _ _ _ _ _ ih => exact ih h
  | case5 =>
      cases h
      trivial

/-- Uses pass that agree with the arities so far, and with one another. -/
theorem checkUses_of_agree {seen uses : List (Label × Nat)}
    (h : ∀ l n, (l, n) ∈ uses → (∀ m, g.arities[l]? = some m → m = n) ∧
      (∀ m, seen.lookup l = some m → m = n) ∧ ∀ m, (l, m) ∈ uses → m = n) :
    g.checkUses seen uses = .ok () := by
  induction uses generalizing seen with
  | nil => rfl
  | cons use rest ih =>
      obtain ⟨k, used⟩ := use
      obtain ⟨hreg, hseen, hsame⟩ := h k used List.mem_cons_self
      have hrest := fun l n (hmem : (l, n) ∈ rest) => h l n (List.mem_cons_of_mem _ hmem)
      rw [checkUses, checkArity_of_agree hreg]
      dsimp only
      cases hfirst : seen.lookup k with
      | none =>
          refine ih fun l n hmem => ?_
          obtain ⟨hreg', hseen', hsame'⟩ := hrest l n hmem
          refine ⟨hreg', ?_, fun m hm => hsame' m (List.mem_cons_of_mem _ hm)⟩
          intro m hm
          rw [List.lookup_cons] at hm
          split at hm
          next heq =>
            obtain rfl := eq_of_beq heq
            cases hm
            exact hsame' used List.mem_cons_self
          next => exact hseen' m hm
      | some first =>
          rw [hseen first hfirst]
          dsimp only
          rw [if_pos rfl]
          refine ih fun l n hmem => ?_
          obtain ⟨hreg', hseen', hsame'⟩ := hrest l n hmem
          exact ⟨hreg', hseen', fun m hm => hsame' m (List.mem_cons_of_mem _ hm)⟩

theorem checkUses_eq_ok_iff {uses : List (Label × Nat)} : g.checkUses [] uses = .ok () ↔
    ∀ l n, (l, n) ∈ uses → (∀ m, g.arities[l]? = some m → m = n) ∧
      ∀ m, (l, m) ∈ uses → m = n := by
  constructor
  · intro h l n hmem
    obtain ⟨hreg, -, hsame⟩ := checkUses_ok h l n hmem
    exact ⟨hreg, hsame⟩
  · intro h
    refine checkUses_of_agree fun l n hmem => ⟨(h l n hmem).1, ?_, (h l n hmem).2⟩
    intro m hm
    simp at hm

/-! Labels and arities, as additions leave them. -/

/-- Names are those of their labels, and no arity is registered without a label. -/
structure Enrolled (g : Grammar α) : Prop where
  faithful : g.dict.Faithful
  has : ∀ (l : Label) (n : Nat), g.arities[l]? = some n → g.dict.Has l

variable [Composer]

theorem Enrolled.grow (h : g.Enrolled) {d : Dictionary} {names fresh : List String}
    (hd : g.dict.Enrols d names fresh) : { g with dict := d }.Enrolled :=
  ⟨hd.faithful h.faithful, fun l n hl => (h.has l n hl).mono hd.size_le⟩

theorem enrolled_new (start : String) : (new start : Grammar α).Enrolled := by
  obtain ⟨fresh, hfresh⟩ := Dictionary.enrols_intern .empty start
  have hfaithful := hfresh.faithful Dictionary.faithful_empty
  refine ⟨hfaithful, fun l n hl => ?_⟩
  rcases (Map.getElem?_insert_eq_some_iff _ _ _ _ _).mp hl with ⟨rfl, -⟩ | ⟨-, hl⟩
  · exact hfaithful.has (Dictionary.lookup?_intern_self .empty start)
  · simp at hl

theorem enrolled_addPreterminal (h : g.Enrolled) (name : String) :
    (g.addPreterminal name).1.Enrolled := by
  obtain ⟨fresh, hfresh⟩ := Dictionary.enrols_intern g.dict name
  have hgrown := h.grow hfresh
  unfold addPreterminal
  dsimp only
  split
  next => exact hgrown
  next =>
    refine ⟨hgrown.faithful, fun l n hl => ?_⟩
    rcases (Map.getElem?_insert_eq_some_iff _ _ _ _ _).mp hl with ⟨rfl, -⟩ | ⟨-, hl⟩
    · exact hgrown.faithful.has (Dictionary.lookup?_intern_self g.dict name)
    · exact hgrown.has l n hl

/-- A pre-terminal is refused only for a label that is there, and nothing changes then. -/
theorem addPreterminal_error (h : g.Enrolled) {name : String} {e : GrammarError}
    (he : (g.addPreterminal name).2 = .error e) : (g.addPreterminal name).1 = g := by
  obtain ⟨fresh, hfresh⟩ := Dictionary.enrols_intern g.dict name
  have hself := Dictionary.lookup?_intern_self g.dict name
  unfold addPreterminal at he ⊢
  dsimp only at he ⊢
  split at he
  next harity =>
    have hknown : fresh = [] := by
      by_contra hne
      obtain ⟨s, hs⟩ := List.exists_mem_of_ne_nil _ hne
      obtain ⟨hnone, other, hother, rfl⟩ := hfresh.new s hs
      rw [List.mem_singleton.mp hother] at hnone
      refine absurd (checkArity_of_agree fun m hm => ?_) (by rw [harity]; exact nofun)
      rcases hfresh.told _ _ hself with hl | hnew
      · cases hnone.symm.trans hl
      · exact absurd (h.has _ m hm) hnew
    dsimp only
    rw [hfresh.same hknown]
  next => cases he

variable [Cost α]

omit [Composer] in
theorem enrolled_addInterned (h : g.Enrolled) {c : Clause α}
    (hlabels : ∀ l n, (l, n) ∈ usesOf c → g.dict.Has l) : (g.addInterned c).1.Enrolled := by
  have hregistered : ∀ (l : Label) (n : Nat),
      (registerUses g.arities (usesOf c))[l]? = some n → g.dict.Has l := by
    intro l n hl
    rcases registerUses_cases hl with hused | hl
    · exact hlabels l n hused
    · exact h.has l n hl
  unfold addInterned
  split
  next => exact h
  next =>
    dsimp only
    split
    next =>
      rw [keepCheaper_eq]
      exact ⟨h.faithful, hregistered⟩
    next => exact ⟨h.faithful, hregistered⟩

omit [Composer] in
theorem addInterned_error {c : Clause α} {e : GrammarError}
    (he : (g.addInterned c).2 = .error e) : (g.addInterned c).1 = g ∧ e.OfArity := by
  unfold addInterned at he ⊢
  split at he
  next hcheck =>
    cases he
    exact ⟨rfl, ofArity_of_checkUses hcheck⟩
  next =>
    dsimp only at he
    split at he <;> cases he

omit [Composer] in
theorem addInterned_refused_iff {c : Clause α} :
    (∃ e, (g.addInterned c).2 = .error e) ↔ g.checkUses [] (usesOf c) ≠ .ok () := by
  unfold addInterned
  cases hcheck : g.checkUses [] (usesOf c) with
  | error e => simp
  | ok =>
      dsimp only
      split <;> simp

/-- What becomes of a request for a clause. It is refused for its cost or for its yield function
while nothing has changed, and otherwise its names have labels before it is added. -/
inductive AddsClause (g : Grammar α) (r : Request α) :
    Grammar α × Except GrammarError (Addition α) → Prop where
  | badCost : Cost.isAdmitted r.cost = false →
      AddsClause g r (g, .error (.badCost ("clause for " ++ r.lhs)))
  | badShape {e : ShapeError} : Cost.isAdmitted r.cost = true →
      r.yield.classify r.right.isNone = .error e → AddsClause g r (g, .error (.badShape r.lhs e))
  | interned {d : Dictionary} {fresh : List String} {c : Clause α} :
      Cost.isAdmitted r.cost = true → r.yield.classify r.right.isNone = .ok c.join →
      g.dict.Enrols d r.names fresh → r.For d c.shape →
      AddsClause g r ({ g with dict := d }.addInterned c)

theorem addsClause (g : Grammar α) (r : Request α) :
    g.AddsClause r (g.addClause r.lhs r.left r.right r.yield r.cost) := by
  obtain ⟨lhs, left, right, y, cost⟩ := r
  unfold addClause
  dsimp only
  split
  next hcost => exact .badCost (by simpa using hcost)
  next hcost =>
    have hadmitted : Cost.isAdmitted cost = true := by simpa using hcost
    split
    next hshape => exact .badShape hadmitted hshape
    next jt hjt =>
      obtain ⟨fresh, h1⟩ := Dictionary.enrols_intern g.dict lhs
      obtain ⟨fresh', h2⟩ := Dictionary.enrols_intern (g.dict.intern lhs).1 left
      have hlhs := Dictionary.lookup?_intern
        (Dictionary.lookup?_intern_self g.dict lhs) left
      have hleft := Dictionary.lookup?_intern_self (g.dict.intern lhs).1 left
      cases right with
      | none => exact .interned hadmitted hjt (h1.trans h2) ⟨hlhs, hleft, rfl, rfl⟩
      | some right =>
          obtain ⟨fresh'', h3⟩ :=
            Dictionary.enrols_intern ((g.dict.intern lhs).1.intern left).1 right
          exact .interned hadmitted hjt ((h1.trans h2).trans h3)
            ⟨Dictionary.lookup?_intern hlhs right, Dictionary.lookup?_intern hleft right,
              congrArg some (Dictionary.lookup?_intern_self _ right), rfl⟩

theorem enrolled_addClause (h : g.Enrolled) (r : Request α) :
    (g.addClause r.lhs r.left r.right r.yield r.cost).1.Enrolled := by
  have hadds := g.addsClause r
  generalize g.addClause r.lhs r.left r.right r.yield r.cost = result at hadds ⊢
  cases hadds with
  | badCost _ => exact h
  | badShape _ _ => exact h
  | interned _ _ hd hfor =>
      have hgrown := h.grow hd
      refine enrolled_addInterned hgrown fun l n hmem => ?_
      obtain ⟨name, -, hl⟩ := hfor.mem_usesOf.mp hmem
      exact hgrown.faithful.has hl

omit [Cost α] in
/-- With labels for its names, a request conflicts if its uses of labels do not pass. -/
theorem conflicts_iff (h : g.Enrolled) {r : Request α} {d : Dictionary} {fresh : List String}
    {c : Clause α} (hd : g.dict.Enrols d r.names fresh) (hfor : r.For d c.shape) :
    r.Conflicts g c.join ↔ { g with dict := d }.checkUses [] (usesOf c) ≠ .ok () := by
  have hgrown := h.grow hd
  rw [ne_eq, checkUses_eq_ok_iff]
  constructor
  · rintro ⟨name, n, hmem, hconflict⟩ hagree
    obtain ⟨l, hl⟩ := hfor.exists_label hmem
    obtain ⟨hreg, hsame⟩ := hagree l n (hfor.mem_usesOf.mpr ⟨name, hmem, hl⟩)
    rcases hconflict with ⟨other, m, hother, heq, hne⟩ | ⟨k, m, hk, hm, hne⟩
    · have hl' : d.lookup? other = some l := by
        rw [Dictionary.lookup?, heq]
        exact hl
      exact hne (hsame m (hfor.mem_usesOf.mpr ⟨other, hother, hl'⟩))
    · cases (hd.kept _ _ hk).symm.trans hl
      exact hne (hreg m hm)
  · intro hnot
    by_contra hnone
    refine hnot fun l n hmem => ?_
    obtain ⟨name, hname, hl⟩ := hfor.mem_usesOf.mp hmem
    constructor
    · intro m hm
      by_contra hne
      refine hnone ⟨name, n, hname, .inr ⟨l, m, ?_, hm, hne⟩⟩
      rcases hd.told _ _ hl with hold | hnew
      · exact hold
      · exact absurd (h.has l m hm) hnew
    · intro m hm
      by_contra hne
      obtain ⟨other, hother, hl'⟩ := hfor.mem_usesOf.mp hm
      refine hnone ⟨name, n, hname, .inl ⟨other, m, hother, ?_, hne⟩⟩
      exact Option.some.inj ((hgrown.faithful _ _ hl').symm.trans (hgrown.faithful _ _ hl))

/-- Which requests for clauses are refused. -/
theorem refused_iff (h : g.Enrolled) (r : Request α) :
    (∃ e, (g.addClause r.lhs r.left r.right r.yield r.cost).2 = .error e) ↔
      Cost.isAdmitted r.cost = false ∨ (∃ e, r.yield.classify r.right.isNone = .error e) ∨
        ∃ jt, r.yield.classify r.right.isNone = .ok jt ∧ r.Conflicts g jt := by
  have hadds := g.addsClause r
  generalize g.addClause r.lhs r.left r.right r.yield r.cost = result at hadds ⊢
  cases hadds with
  | badCost hcost => simp [hcost]
  | badShape _ hshape => simp [hshape]
  | interned hcost hjt hd hfor =>
      rw [addInterned_refused_iff, ← conflicts_iff h hd hfor]
      simp [hcost, hjt]

end Grammar

namespace Language

section Refusals

variable {α : Type} [Composer] [Cost α]

/-- The error of an addition that is refused. -/
def refusal? (L : Language α) : Edit α → Option GrammarError
  | .preterminal name => error? (L.grammar.addPreterminal name).2
  | .clause lhs left right y cost => error? (L.grammar.addClause lhs left right y cost).2
  | .entry word tag cost => error? (L.lexicon.add L.grammar word tag cost).2.2
where
  error? {β : Type} : Except GrammarError β → Option GrammarError
    | .error e => some e
    | .ok _ => none

/-- `L'` is `L` with labels for some new texts, which nothing uses. -/
structure AddsNames (L L' : Language α) (fresh : List String) : Prop where
  rest : L' = ⟨{ L.grammar with dict := L'.grammar.dict }, L.lexicon⟩
  texts : L'.grammar.dict.names.toList = L.grammar.dict.names.toList ++ fresh
  nodup : fresh.Nodup
  name : ∀ l, L.grammar.dict.Has l → L'.grammar.dict.name l = L.grammar.dict.name l
  label : ∀ name l, L.grammar.dict.lookup? name = some l → L'.grammar.dict.lookup? name = some l
  arity : ∀ l, ¬ L.grammar.dict.Has l → L'.grammar.arity l = 0

omit [Cost α] in
theorem addsNames_of_enrols {L : Language α} (h : L.grammar.Enrolled) {d : Dictionary}
    {names fresh : List String} (hd : L.grammar.dict.Enrols d names fresh) :
    L.AddsNames ⟨{ L.grammar with dict := d }, L.lexicon⟩ fresh := by
  refine ⟨rfl, hd.texts, hd.nodup, fun _ => hd.name_eq, fun _ _ => hd.kept _ _, ?_⟩
  intro l hl
  rw [Grammar.arity, Std.TreeMap.getD_eq_getD_getElem?]
  cases hn : L.grammar.arities[l]? with
  | none => rfl
  | some n => exact absurd (h.has l n hn) hl

theorem enrolled_apply {L : Language α} (h : L.grammar.Enrolled) (e : Edit α) :
    (L.apply e).grammar.Enrolled := by
  cases e with
  | preterminal name => exact Grammar.enrolled_addPreterminal h name
  | clause lhs left right y cost => exact Grammar.enrolled_addClause h ⟨lhs, left, right, y, cost⟩
  | entry word tag cost =>
      rcases L.grammar_apply_entry word tag cost with heq | heq
      · rwa [heq]
      · rw [heq]
        exact Grammar.enrolled_addPreterminal h tag

theorem enrolled_ofEdits (start : String) (edits : List (Edit α)) :
    (ofEdits start edits).grammar.Enrolled := by
  refine List.foldlRecOn edits apply (motive := fun L : Language α => L.grammar.Enrolled)
    (Grammar.enrolled_new start) ?_
  intro L h e _
  exact enrolled_apply h e

omit [Composer] in
theorem eq_error_of_error? {β : Type} {x : Except GrammarError β} {err : GrammarError}
    (h : refusal?.error? x = some err) : x = .error err := by
  cases x with
  | error e => exact congrArg Except.error (Option.some.inj h)
  | ok _ => cases h

/-- An entry that is refused changes neither the lexicon nor the grammar. -/
theorem apply_entry_error {L : Language α} (h : L.grammar.Enrolled) {word : Text} {tag : String}
    {cost : α} {err : GrammarError}
    (herr : (L.lexicon.add L.grammar word tag cost).2.2 = .error err) :
    L.apply (.entry word tag cost) = L := by
  have hadds := L.lexicon.addsEntry L.grammar word tag cost
  simp only [apply]
  generalize L.lexicon.add L.grammar word tag cost = result at hadds herr ⊢
  cases hadds with
  | badCost _ => rfl
  | badTag _ he =>
      dsimp only
      rw [Grammar.addPreterminal_error h he]
  | entered _ _ => cases herr

/-- What a refused addition leaves behind. -/
theorem apply_of_refusal {L : Language α} (h : L.grammar.Enrolled) {e : Edit α}
    {err : GrammarError} (herr : L.refusal? e = some err) :
    L.apply e = L ∨ err.OfArity ∧ ∃ (r : Request α) (fresh : List String), e = r.edit ∧
      L.AddsNames (L.apply e) fresh ∧ ∀ s ∈ fresh, ∃ name ∈ r.names,
        s = Text.composedString name ∧ L.grammar.dict.lookup? name = none := by
  cases e with
  | preterminal name =>
      left
      rw [apply, Grammar.addPreterminal_error h (eq_error_of_error? herr)]
  | entry word tag cost => exact .inl (apply_entry_error h (eq_error_of_error? herr))
  | clause lhs left right y cost =>
      have herror := eq_error_of_error? herr
      have hadds := L.grammar.addsClause ⟨lhs, left, right, y, cost⟩
      simp only [apply]
      dsimp only at hadds
      generalize L.grammar.addClause lhs left right y cost = result at hadds herror ⊢
      cases hadds with
      | badCost _ => exact .inl rfl
      | badShape _ _ => exact .inl rfl
      | interned _ _ hd hfor =>
          obtain ⟨hgrammar, harity⟩ := Grammar.addInterned_error herror
          rw [hgrammar]
          refine .inr ⟨harity, ⟨lhs, left, right, y, cost⟩, _, rfl, addsNames_of_enrols h hd, ?_⟩
          intro s hs
          obtain ⟨hnone, name, hname, rfl⟩ := hd.new s hs
          exact ⟨name, hname, rfl, hnone⟩

/-- Whatever has been added, with success or in vain, an addition that is refused changes nothing,
or it is a clause that is refused for its arities and leaves labels for its new names. Clauses are
refused for their costs, for their yield functions, and for their arities. -/
theorem refusals_leave_names (start : String) (edits : List (Edit α)) :
    (∀ e err, (ofEdits start edits).refusal? e = some err →
      (ofEdits start edits).apply e = ofEdits start edits ∨
        err.OfArity ∧ ∃ (r : Request α) (fresh : List String), e = r.edit ∧
          (ofEdits start edits).AddsNames ((ofEdits start edits).apply e) fresh ∧
          ∀ s ∈ fresh, ∃ name ∈ r.names, s = Text.composedString name ∧
            (ofEdits start edits).grammar.dict.lookup? name = none) ∧
    ∀ r : Request α, (∃ err, (ofEdits start edits).refusal? r.edit = some err) ↔
      Cost.isAdmitted r.cost = false ∨ (∃ e, r.yield.classify r.right.isNone = .error e) ∨
        ∃ jt, r.yield.classify r.right.isNone = .ok jt ∧
          r.Conflicts (ofEdits start edits).grammar jt := by
  have hL := enrolled_ofEdits start edits
  refine ⟨fun e err => apply_of_refusal hL, fun r => ?_⟩
  rw [← Grammar.refused_iff hL r]
  simp only [refusal?, Request.edit]
  rcases ((ofEdits start edits).grammar.addClause r.lhs r.left r.right r.yield r.cost).2 with e | a
  · simp [refusal?.error?]
  · simp [refusal?.error?]

end Refusals

/-- A clause whose left hand side has one range already, and one that gives a label two arities. -/
def overstretched : Request Price := ⟨"S", "B", some "C", [[.left], [.right]], 0⟩

def selfConflicting : Request Price := ⟨"B", "B", some "C", [[.left], [.right]], 0⟩

theorem refusals_leave_names_overstretched :
    (∃ err, (ofEdits "S" [.preterminal "C"]).refusal? overstretched.edit = some err ∧
      err.OfArity) ∧
    ((ofEdits "S" [.preterminal "C"]).apply overstretched.edit).grammar.dict.names =
      #["S", "C", "B"] ∧
    ∃ err, (ofEdits "S" []).refusal? selfConflicting.edit = some err := by
  have hlabels := refusals_leave_names (α := Price) "S" [.preterminal "C"]
  obtain ⟨err, herr⟩ := (hlabels.2 overstretched).mpr (.inr (.inr ⟨.juxtapose, rfl,
    "S", 2, List.mem_cons_self, .inr ⟨⟨0⟩, 1, by decide +kernel, by decide +kernel, by decide⟩⟩))
  have hnames : ((ofEdits "S" [.preterminal "C"]).apply overstretched.edit).grammar.dict.names =
      #["S", "C", "B"] := by decide +kernel
  refine ⟨⟨err, herr, ?_⟩, hnames, ?_⟩
  · rcases hlabels.1 _ err herr with hsame | ⟨harity, -⟩
    · rw [hsame] at hnames
      exact absurd hnames (by decide +kernel)
    · exact harity
  · exact ((refusals_leave_names (α := Price) "S" []).2 selfConflicting).mpr (.inr (.inr
      ⟨.juxtapose, rfl, "B", 2, List.mem_cons_self,
        .inl ⟨"B", 1, List.mem_cons_of_mem _ List.mem_cons_self, rfl, by decide⟩⟩))

end Language

end Discontinuous
