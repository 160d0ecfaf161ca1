import Discontinuous.Proofs.Refusal

/-!
What a lexicon is, in terms of the entries that it came about by. Words are numbered in order of
first occurrence, and one composed form has one number. A pair of a word and a tag has the least of
the costs that it was entered at, and the tags of a word are listed once, in order of first entry.
-/
namespace Discontinuous

section Lists

variable {β : Type}

theorem getElem?_concat_eq_some_iff (xs : List β) (x y : β) (i : Nat) :
    (xs ++ [x])[i]? = some y ↔ (i = xs.length ∧ x = y) ∨ xs[i]? = some y := by
  rw [List.getElem?_append]
  split
  next hlt => simp [Nat.ne_of_lt hlt]
  next hge =>
    rw [List.getElem?_eq_none (Nat.not_lt.mp hge), List.getElem?_singleton]
    simp only [reduceCtorEq, or_false]
    split <;> simp <;> omega

variable [BEq β] [LawfulBEq β] {xs : List β} {x : β}

theorem eraseDups_concat_of_mem (h : x ∈ xs) : (xs ++ [x]).eraseDups = xs.eraseDups := by
  simp [List.eraseDups_append, List.removeAll, h]

theorem eraseDups_concat_of_not_mem (h : x ∉ xs) :
    (xs ++ [x]).eraseDups = xs.eraseDups ++ [x] := by
  simp [List.eraseDups_append, List.removeAll, h, List.eraseDups_cons]

theorem nodup_eraseDups (xs : List β) : xs.eraseDups.Nodup := by
  induction xs using List.reverseRecOn with
  | nil => simp
  | append_singleton xs x ih =>
      by_cases hx : x ∈ xs
      · rwa [eraseDups_concat_of_mem hx]
      · rw [eraseDups_concat_of_not_mem hx, ← List.concat_eq_append]
        exact ih.concat (by rwa [List.mem_eraseDups])

end Lists

namespace Lexicon

variable {α : Type} {lex : Lexicon α}

/-! Numbers of words. -/

/-- Words are numbered by the places where their composed forms occur first among `texts`. -/
structure Numbers (lex : Lexicon α) (texts : List Text) : Prop where
  size : lex.words.size = texts.eraseDups.length
  number : ∀ (text : Text) (w : Nat),
    lex.words[text]? = some w ↔ texts.eraseDups[w]? = some text

theorem numbers_empty : (empty : Lexicon α).Numbers [] := by
  refine ⟨rfl, fun text w => ?_⟩
  simp [empty]

theorem Numbers.mem_iff {texts : List Text} (h : lex.Numbers texts) (text : Text) :
    text ∈ texts ↔ ∃ w, lex.words[text]? = some w := by
  rw [← List.mem_eraseDups, List.mem_iff_getElem?]
  simp only [h.number]

section Words

variable [Composer]

theorem Numbers.intern {texts : List Text} (h : lex.Numbers texts) (word : Text) :
    (lex.intern word).1.Numbers (texts ++ [Text.composed word]) := by
  have hmem := h.mem_iff (Text.composed word)
  unfold Lexicon.intern
  dsimp only
  rw [Std.TreeMap.get?_eq_getElem?]
  cases hword : lex.words[Text.composed word]? with
  | some w =>
      have hold := eraseDups_concat_of_mem (hmem.mpr ⟨w, hword⟩)
      exact ⟨by rw [hold, h.size], fun text v => by rw [hold, h.number]⟩
  | none =>
      have hfresh : Text.composed word ∉ texts := by
        rw [hmem, hword]
        exact nofun
      have hnew := eraseDups_concat_of_not_mem hfresh
      have hsize := h.size
      refine ⟨?_, fun text v => ?_⟩
      · rw [hnew, List.length_append, List.length_singleton, ← hsize]
        exact Map.size_insert_of_none _ hword _
      · rw [hnew, getElem?_concat_eq_some_iff, Map.getElem?_insert_eq_some_iff, ← h.number, hsize]
        constructor
        · rintro (⟨rfl, rfl⟩ | ⟨-, hold⟩)
          · exact .inl ⟨rfl, rfl⟩
          · exact .inr hold
        · rintro (⟨rfl, rfl⟩ | hold)
          · exact .inl ⟨rfl, rfl⟩
          · refine .inr ⟨?_, hold⟩
            rintro rfl
            cases hword.symm.trans hold

theorem word?_intern_self (lex : Lexicon α) (word : Text) :
    (lex.intern word).1.word? word = some (lex.intern word).2 := by
  unfold word? intern
  dsimp only
  rw [Std.TreeMap.get?_eq_getElem?, Std.TreeMap.get?_eq_getElem?]
  cases hword : lex.words[Text.composed word]? with
  | some w => exact hword
  | none => exact Std.TreeMap.getElem?_insert_self

/-- A number that a word has is never given up. -/
theorem word?_intern {word : Text} {w : Nat} (h : lex.word? word = some w) (other : Text) :
    (lex.intern other).1.word? word = some w := by
  unfold word? at h ⊢
  unfold intern
  dsimp only
  rw [Std.TreeMap.get?_eq_getElem?] at h ⊢
  rw [Std.TreeMap.get?_eq_getElem?]
  cases hother : lex.words[Text.composed other]? with
  | some _ => exact h
  | none => exact Map.getElem?_insert_of_none _ hother h

theorem tags_intern (lex : Lexicon α) (word : Text) (w : Nat) :
    (lex.intern word).1.tags w = lex.tags w := by
  unfold intern
  dsimp only
  split <;> rfl

end Words

variable [Cost α]

theorem words_enter (lex : Lexicon α) (t : Tagging) (cost : α) :
    (lex.enter t cost).words = lex.words := by
  unfold enter
  split
  next => split <;> rfl
  next => rfl

theorem Numbers.enter {texts : List Text} (h : lex.Numbers texts) (t : Tagging) (cost : α) :
    (lex.enter t cost).Numbers texts :=
  ⟨by rw [words_enter, h.size], by rw [words_enter]; exact h.number⟩

theorem word?_enter [Composer] (lex : Lexicon α) (t : Tagging) (cost : α) (word : Text) :
    (lex.enter t cost).word? word = lex.word? word := by
  unfold word?
  rw [words_enter]

/-! What a pair is entered at. -/

/-- The tags of a word among pairs, in order of first mention. -/
def tagsAmong (pairs : List Tagging) (w : Nat) : List Label :=
  ((pairs.filter fun t => decide (t.word = w)).map Tagging.tag).eraseDups

theorem mem_tagsAmong {pairs : List Tagging} {w : Nat} {l : Label} :
    l ∈ tagsAmong pairs w ↔ ⟨w, l⟩ ∈ pairs := by
  unfold tagsAmong
  rw [List.mem_eraseDups, List.mem_map]
  constructor
  · rintro ⟨t, ht, rfl⟩
    obtain ⟨ht, hw⟩ := List.mem_filter.mp ht
    rwa [← of_decide_eq_true hw]
  · intro h
    exact ⟨_, List.mem_filter.mpr ⟨h, decide_eq_true rfl⟩, rfl⟩

theorem tagsAmong_concat_of_mem {pairs : List Tagging} {t : Tagging} (h : t ∈ pairs) (w : Nat) :
    tagsAmong (pairs ++ [t]) w = tagsAmong pairs w := by
  unfold tagsAmong
  by_cases hw : t.word = w
  · subst hw
    rw [List.filter_append, List.filter_singleton, decide_eq_true rfl, cond_true, List.map_append,
      List.map_singleton, eraseDups_concat_of_mem]
    exact List.mem_eraseDups.mp (mem_tagsAmong.mpr h)
  · simp [List.filter_append, hw]

theorem tagsAmong_concat_of_not_mem {pairs : List Tagging} {t : Tagging} (h : t ∉ pairs)
    (w : Nat) :
    tagsAmong (pairs ++ [t]) w = tagsAmong pairs w ++ if t.word = w then [t.tag] else [] := by
  unfold tagsAmong
  by_cases hw : t.word = w
  · subst hw
    rw [List.filter_append, List.filter_singleton, decide_eq_true rfl, cond_true, List.map_append,
      List.map_singleton, eraseDups_concat_of_not_mem, if_pos rfl]
    exact fun hmem => h (mem_tagsAmong.mp (List.mem_eraseDups.mpr hmem))
  · simp [List.filter_append, hw]

/-- Every pair has its cost from a call, and no call had a lesser one. The tags of a word are those
of its calls. -/
structure Tallies (lex : Lexicon α) (calls : List (Tagging × α)) : Prop where
  attained : ∀ (t : Tagging) (x : α), lex.costs[t]? = some x → (t, x) ∈ calls
  served : ∀ (t : Tagging) (x : α), (t, x) ∈ calls → Cost.isAdmitted x = true ∧
    ∃ y, lex.costs[t]? = some y ∧ Cost.le y x = true
  tags : ∀ w, lex.tags w = tagsAmong (calls.map Prod.fst) w
  size : lex.size = (calls.map Prod.fst).eraseDups.length

variable {calls : List (Tagging × α)} {t : Tagging} {cost old : α}

theorem tallies_empty : (empty : Lexicon α).Tallies [] := by
  refine ⟨?_, ?_, ?_, rfl⟩
  · intro t x h
    simp [empty] at h
  · intro t x h
    cases h
  · intro w
    simp [empty, Lexicon.tags, tagsAmong]

theorem Tallies.mem_iff (h : lex.Tallies calls) (t : Tagging) :
    t ∈ calls.map Prod.fst ↔ ∃ x, lex.costs[t]? = some x := by
  rw [List.mem_map]
  constructor
  · rintro ⟨⟨t, x⟩, hmem, rfl⟩
    obtain ⟨-, y, hy, -⟩ := h.served t x hmem
    exact ⟨y, hy⟩
  · rintro ⟨x, hx⟩
    exact ⟨_, h.attained t x hx, rfl⟩

/-- The tags of a word are those it has a cost with. -/
theorem Tallies.mem_tags_iff (h : lex.Tallies calls) {w : Nat} {l : Label} :
    l ∈ lex.tags w ↔ ∃ x, lex.cost? w l = some x := by
  rw [h.tags, mem_tagsAmong, h.mem_iff]
  rfl

theorem Tallies.intern [Composer] (h : lex.Tallies calls) (word : Text) :
    (lex.intern word).1.Tallies calls := by
  refine ⟨?_, ?_, fun w => (tags_intern lex word w).trans (h.tags w), ?_⟩
  · rw [costs_intern]
    exact h.attained
  · rw [costs_intern]
    exact h.served
  · rw [← h.size, Lexicon.size, costs_intern]
    rfl

/-- A pair that is there keeps the lesser of two costs, and nothing else changes. -/
theorem enter_of_some (h : lex.costs[t]? = some old) (cost : α) :
    ∃ costs, lex.enter t cost = { lex with costs } ∧ costs.size = lex.costs.size ∧
      ∀ u : Tagging, costs[u]? =
        if t = u then some (if Cost.lt cost old then cost else old) else lex.costs[u]? := by
  unfold enter
  rw [Std.TreeMap.get?_eq_getElem?, h]
  dsimp only
  split
  next hlt =>
    refine ⟨_, rfl, Map.size_insert_of_some _ h _, fun u => ?_⟩
    by_cases hu : t = u
    · rw [if_pos hu, ← hu, Std.TreeMap.getElem?_insert_self]
    · rw [if_neg hu, Map.getElem?_insert_of_ne _ (Ne.symm hu)]
  next hlt =>
    refine ⟨_, rfl, rfl, fun u => ?_⟩
    by_cases hu : t = u
    · rw [if_pos hu, ← hu, h]
    · rw [if_neg hu]

theorem Tallies.enter_of_some [ComparableCost α] (h : lex.Tallies calls)
    (hold : lex.costs[t]? = some old) (hcost : Cost.isAdmitted cost = true) :
    (lex.enter t cost).Tallies (calls ++ [(t, cost)]) := by
  obtain ⟨costs, henter, hsize, hget⟩ := Lexicon.enter_of_some hold cost
  have hadmitted := (h.served t old (h.attained t old hold)).1
  obtain ⟨hle, hle'⟩ := Cost.lesser_le hcost hadmitted
  have hknown := (h.mem_iff t).mpr ⟨old, hold⟩
  have hself := hget t
  rw [if_pos rfl] at hself
  rw [henter]
  refine ⟨?_, ?_, ?_, ?_⟩
  · intro u x hx
    change costs[u]? = some x at hx
    rw [hget] at hx
    split at hx
    next hu =>
      obtain rfl := hu
      split at hx
      next =>
        cases hx
        simp
      next => exact List.mem_append_left _ (h.attained _ _ (hold.trans hx))
    next => exact List.mem_append_left _ (h.attained u x hx)
  · intro u x hx
    change _ ∧ ∃ y, costs[u]? = some y ∧ _
    rcases List.mem_append.mp hx with hx | hx
    · obtain ⟨hxcost, y, hy, hyx⟩ := h.served u x hx
      refine ⟨hxcost, ?_⟩
      by_cases hu : t = u
      · subst hu
        cases hold.symm.trans hy
        refine ⟨_, hself, ComparableCost.le_trans ?_ hadmitted hxcost hle' hyx⟩
        split <;> assumption
      · exact ⟨y, by rw [hget, if_neg hu, hy], hyx⟩
    · cases List.mem_singleton.mp hx
      exact ⟨hcost, _, hself, hle⟩
  · intro w
    rw [List.map_append, List.map_singleton, tagsAmong_concat_of_mem hknown]
    exact h.tags w
  · rw [List.map_append, List.map_singleton, eraseDups_concat_of_mem hknown, ← h.size]
    exact hsize

theorem Tallies.enter_of_none [ComparableCost α] (h : lex.Tallies calls)
    (hnone : lex.costs[t]? = none) (hcost : Cost.isAdmitted cost = true) :
    (lex.enter t cost).Tallies (calls ++ [(t, cost)]) := by
  have hnew : t ∉ calls.map Prod.fst := by
    rw [h.mem_iff, hnone]
    exact nofun
  unfold Lexicon.enter
  rw [Std.TreeMap.get?_eq_getElem?, hnone]
  refine ⟨?_, ?_, ?_, ?_⟩
  · intro u x hx
    rcases (Map.getElem?_insert_eq_some_iff _ _ _ _ _).mp hx with ⟨rfl, rfl⟩ | ⟨-, hx⟩
    · simp
    · exact List.mem_append_left _ (h.attained u x hx)
  · intro u x hx
    rcases List.mem_append.mp hx with hx | hx
    · obtain ⟨hxcost, y, hy, hyx⟩ := h.served u x hx
      exact ⟨hxcost, y, Map.getElem?_insert_of_none _ hnone hy, hyx⟩
    · cases List.mem_singleton.mp hx
      exact ⟨hcost, _, Std.TreeMap.getElem?_insert_self, Cost.le_refl_of_admitted hcost⟩
  · intro w
    rw [List.map_append, List.map_singleton, tagsAmong_concat_of_not_mem hnew, ← h.tags w]
    unfold Lexicon.tags
    rw [Std.TreeMap.getD_insert]
    by_cases hw : t.word = w
    · subst hw
      rw [if_pos Std.ReflCmp.compare_self, if_pos rfl, Array.toList_push]
    · rw [if_neg (by rwa [Keyed.cmp_eq_iff]), if_neg hw, List.append_nil]
  · rw [List.map_append, List.map_singleton, eraseDups_concat_of_not_mem hnew, List.length_append,
      List.length_singleton, ← h.size]
    exact Map.size_insert_of_none _ hnone _

theorem Tallies.enter [ComparableCost α] (h : lex.Tallies calls) (t : Tagging)
    (hcost : Cost.isAdmitted cost = true) : (lex.enter t cost).Tallies (calls ++ [(t, cost)]) := by
  cases ht : lex.costs[t]? with
  | some old => exact h.enter_of_some ht hcost
  | none => exact h.enter_of_none ht hcost

/-! Entries and what they come to. -/

/-- What a caller asks for when entering a word with a tag. -/
structure Entry (α : Type) where
  word : Text
  tag : String
  cost : α

variable [Composer]

/-- The pair that an entry is for: the number of its word and the label of its tag. -/
def Entry.tagging? (e : Entry α) (lex : Lexicon α) (d : Dictionary) : Option Tagging :=
  (lex.word? e.word).bind fun w => (d.lookup? e.tag).map fun t => ⟨w, t⟩

omit [Cost α] in
theorem Entry.tagging?_eq_some_iff {e : Entry α} {d : Dictionary} {t : Tagging} :
    e.tagging? lex d = some t ↔ lex.word? e.word = some t.word ∧ d.lookup? e.tag = some t.tag := by
  unfold Entry.tagging?
  rw [Option.bind_eq_some_iff]
  constructor
  · rintro ⟨w, hw, hmap⟩
    obtain ⟨l, hl, rfl⟩ := Option.map_eq_some_iff.mp hmap
    exact ⟨hw, hl⟩
  · rintro ⟨hw, hl⟩
    exact ⟨t.word, hw, Option.map_eq_some_iff.mpr ⟨t.tag, hl, rfl⟩⟩

omit [Cost α] in
/-- An entry is for the same pair as long as words keep their numbers and tags their labels. -/
theorem Entry.tagging?_mono {e : Entry α} {lex' : Lexicon α} {d d' : Dictionary} {t : Tagging}
    (h : e.tagging? lex d = some t)
    (hword : ∀ word w, lex.word? word = some w → lex'.word? word = some w)
    (hlabel : ∀ name l, d.lookup? name = some l → d'.lookup? name = some l) :
    e.tagging? lex' d' = some t := by
  rw [tagging?_eq_some_iff] at h ⊢
  exact ⟨hword _ _ h.1, hlabel _ _ h.2⟩

/-- The pairs of a series of entries, with their costs. -/
def callsOf (entries : List (Entry α)) (lex : Lexicon α) (d : Dictionary) : List (Tagging × α) :=
  entries.filterMap fun e => (e.tagging? lex d).map fun t => (t, e.cost)

omit [Cost α] in
theorem map_fst_callsOf (entries : List (Entry α)) (lex : Lexicon α) (d : Dictionary) :
    (callsOf entries lex d).map Prod.fst = entries.filterMap fun e => e.tagging? lex d := by
  unfold callsOf
  rw [List.map_filterMap]
  congr 1
  funext e
  rw [Option.map_map]
  exact Option.map_id'

omit [Cost α] in
theorem mem_callsOf {entries : List (Entry α)} {d : Dictionary} {t : Tagging} {x : α} :
    (t, x) ∈ callsOf entries lex d ↔ ∃ e ∈ entries, e.tagging? lex d = some t ∧ e.cost = x := by
  unfold callsOf
  rw [List.mem_filterMap]
  simp [Option.map_eq_some_iff]

/-- What a lexicon is, given the entries that were made and the labels of tags. -/
structure Represents (lex : Lexicon α) (d : Dictionary) (entries : List (Entry α)) : Prop where
  number : ∀ (word : Text) (w : Nat), lex.word? word = some w ↔
    (entries.map fun e => Text.composed e.word).eraseDups[w]? = some (Text.composed word)
  same : ∀ (word other : Text) (w : Nat), lex.word? word = some w →
    (lex.word? other = some w ↔ Text.composed other = Text.composed word)
  label : ∀ e ∈ entries, ∀ name, d.lookup? name = d.lookup? e.tag ↔
    Text.composedString name = Text.composedString e.tag
  placed : ∀ e ∈ entries, ∃ t, e.tagging? lex d = some t
  defined : ∀ (w : Nat) (t : Label), (∃ x, lex.cost? w t = some x) ↔
    ∃ e ∈ entries, e.tagging? lex d = some ⟨w, t⟩
  attained : ∀ (w : Nat) (t : Label) (x : α), lex.cost? w t = some x →
    ∃ e ∈ entries, e.tagging? lex d = some ⟨w, t⟩ ∧ e.cost = x
  least : ∀ (w : Nat) (t : Label) (x : α), lex.cost? w t = some x →
    ∀ e ∈ entries, e.tagging? lex d = some ⟨w, t⟩ → Cost.le x e.cost = true
  tags : ∀ w, lex.tags w = tagsAmong (entries.filterMap fun e => e.tagging? lex d) w
  nodup : ∀ w, (lex.tags w).Nodup
  size : lex.size = (entries.filterMap fun e => e.tagging? lex d).eraseDups.length

end Lexicon

namespace Grammar

variable {α : Type} [Composer] {g : Grammar α}

/-- Names keep their labels, and pre-terminals stay what they are. -/
structure GrowsTo (g g' : Grammar α) : Prop where
  label : ∀ name l, g.dict.lookup? name = some l → g'.dict.lookup? name = some l
  preterminal : ∀ l, g.isPreterminal l = true → g'.isPreterminal l = true

theorem GrowsTo.refl (g : Grammar α) : g.GrowsTo g := ⟨fun _ _ => id, fun _ => id⟩

theorem growsTo_addPreterminal (g : Grammar α) (name : String) :
    g.GrowsTo (g.addPreterminal name).1 := by
  have hlabel : ∀ other l, g.dict.lookup? other = some l →
      (g.dict.intern name).1.lookup? other = some l :=
    fun _ _ h => Dictionary.lookup?_intern h name
  unfold addPreterminal
  dsimp only
  split
  next => exact ⟨hlabel, fun _ => id⟩
  next =>
    refine ⟨hlabel, fun l hl => ?_⟩
    unfold isPreterminal at hl ⊢
    rw [Std.TreeMap.contains_insert, hl, Bool.or_true]

/-- A name that is made a pre-terminal has a label, which is one. -/
theorem addPreterminal_ok {name : String} {l : Label}
    (h : (g.addPreterminal name).2 = .ok l) :
    (g.addPreterminal name).1.dict.lookup? name = some l ∧
      (g.addPreterminal name).1.isPreterminal l = true := by
  have hself := Dictionary.lookup?_intern_self g.dict name
  unfold addPreterminal at h ⊢
  dsimp only at h ⊢
  split at h
  next => cases h
  next =>
    cases h
    exact ⟨hself, by simp [isPreterminal]⟩

variable [Cost α]

omit [Composer] in
theorem addInterned_keeps (g : Grammar α) (c : Clause α) :
    (g.addInterned c).1.dict = g.dict ∧ (g.addInterned c).1.preterminals = g.preterminals := by
  unfold addInterned
  split
  next => exact ⟨rfl, rfl⟩
  next =>
    dsimp only
    split
    next =>
      rw [keepCheaper_eq]
      exact ⟨rfl, rfl⟩
    next => exact ⟨rfl, rfl⟩

theorem growsTo_addClause (g : Grammar α) (r : Request α) :
    g.GrowsTo (g.addClause r.lhs r.left r.right r.yield r.cost).1 := by
  have hadds := g.addsClause r
  generalize g.addClause r.lhs r.left r.right r.yield r.cost = result at hadds ⊢
  cases hadds with
  | badCost _ => exact .refl g
  | badShape _ _ => exact .refl g
  | @interned d fresh c _ _ hd _ =>
      obtain ⟨hdict, hpre⟩ := addInterned_keeps { g with dict := d } c
      refine ⟨fun name l hl => ?_, fun l hl => ?_⟩
      · rw [hdict]
        exact hd.kept _ _ hl
      · unfold isPreterminal
        rw [hpre]
        exact hl

end Grammar

namespace Language

variable {α : Type} [Composer] [Cost α] {L : Language α} {entries : List (Lexicon.Entry α)}

/-- What an addition enters, if it is an entry and is not refused. -/
def enters (L : Language α) : Edit α → List (Lexicon.Entry α)
  | .entry word tag cost =>
      match (L.lexicon.add L.grammar word tag cost).2.2 with
      | .ok _ => [⟨word, tag, cost⟩]
      | .error _ => []
  | .preterminal _ | .clause .. => []

/-- The entries that are made in a series of additions, in order. -/
def entered (L : Language α) : List (Edit α) → List (Lexicon.Entry α)
  | [] => []
  | e :: edits => L.enters e ++ (L.apply e).entered edits

/-- The lexicon is what the entries make of it, and their tags are pre-terminals. -/
structure Records (L : Language α) (entries : List (Lexicon.Entry α)) : Prop where
  numbers : L.lexicon.Numbers (entries.map fun e => Text.composed e.word)
  tallies : L.lexicon.Tallies (Lexicon.callsOf entries L.lexicon L.grammar.dict)
  placed : ∀ e ∈ entries, ∃ t, e.tagging? L.lexicon L.grammar.dict = some t ∧
    L.grammar.isPreterminal t.tag = true

theorem Records.calls_eq (h : L.Records entries) {lex : Lexicon α} {d : Dictionary}
    (hword : ∀ word w, L.lexicon.word? word = some w → lex.word? word = some w)
    (hlabel : ∀ name l, L.grammar.dict.lookup? name = some l → d.lookup? name = some l) :
    Lexicon.callsOf entries lex d = Lexicon.callsOf entries L.lexicon L.grammar.dict := by
  apply List.filterMap_congr
  intro e he
  obtain ⟨t, ht, -⟩ := h.placed e he
  rw [ht, Lexicon.Entry.tagging?_mono ht hword hlabel]

theorem Records.grow (h : L.Records entries) {g : Grammar α} (hg : L.grammar.GrowsTo g) :
    (⟨g, L.lexicon⟩ : Language α).Records entries := by
  refine ⟨h.numbers, ?_, fun e he => ?_⟩
  · rw [h.calls_eq (fun _ _ => id) hg.label]
    exact h.tallies
  · obtain ⟨t, ht, hpre⟩ := h.placed e he
    exact ⟨t, Lexicon.Entry.tagging?_mono ht (fun _ _ => id) hg.label, hg.preterminal _ hpre⟩

theorem Records.enter [ComparableCost α] (h : L.Records entries) {g : Grammar α}
    (hg : L.grammar.GrowsTo g) (e : Lexicon.Entry α) {l : Label}
    (hl : g.dict.lookup? e.tag = some l) (hpre : g.isPreterminal l = true)
    (hcost : Cost.isAdmitted e.cost = true) :
    (⟨g, (L.lexicon.intern e.word).1.enter ⟨(L.lexicon.intern e.word).2, l⟩ e.cost⟩ :
      Language α).Records (entries ++ [e]) := by
  have hword : ∀ word w, L.lexicon.word? word = some w →
      ((L.lexicon.intern e.word).1.enter ⟨(L.lexicon.intern e.word).2, l⟩ e.cost).word? word =
        some w := by
    intro word w hw
    rw [Lexicon.word?_enter]
    exact Lexicon.word?_intern hw e.word
  have hself : e.tagging?
      ((L.lexicon.intern e.word).1.enter ⟨(L.lexicon.intern e.word).2, l⟩ e.cost) g.dict =
        some ⟨(L.lexicon.intern e.word).2, l⟩ := by
    rw [Lexicon.Entry.tagging?_eq_some_iff, Lexicon.word?_enter]
    exact ⟨Lexicon.word?_intern_self _ _, hl⟩
  refine ⟨?_, ?_, ?_⟩
  · rw [List.map_append, List.map_singleton]
    exact (h.numbers.intern e.word).enter _ _
  · have hcalls := h.calls_eq hword hg.label
    unfold Lexicon.callsOf at hcalls ⊢
    rw [List.filterMap_append, hcalls, List.filterMap_cons_some (by rw [hself]; rfl),
      List.filterMap_nil]
    exact (h.tallies.intern e.word).enter _ hcost
  · intro e' he'
    rcases List.mem_append.mp he' with he' | he'
    · obtain ⟨t, ht, htpre⟩ := h.placed e' he'
      exact ⟨t, Lexicon.Entry.tagging?_mono ht hword hg.label, hg.preterminal _ htpre⟩
    · obtain rfl := List.mem_singleton.mp he'
      exact ⟨_, hself, hpre⟩

theorem records_new (start : String) : (⟨.new start, .empty⟩ : Language α).Records [] := by
  refine ⟨Lexicon.numbers_empty, Lexicon.tallies_empty, ?_⟩
  intro e he
  cases he

variable [ComparableCost α]

theorem records_apply (h : L.Records entries) (e : Edit α) :
    (L.apply e).Records (entries ++ L.enters e) := by
  cases e with
  | preterminal name =>
      rw [enters, List.append_nil]
      exact h.grow (L.grammar.growsTo_addPreterminal name)
  | clause lhs left right y cost =>
      rw [enters, List.append_nil]
      exact h.grow (L.grammar.growsTo_addClause ⟨lhs, left, right, y, cost⟩)
  | entry word tag cost =>
      have hadds := L.lexicon.addsEntry L.grammar word tag cost
      have hgrows := L.grammar.growsTo_addPreterminal tag
      simp only [apply, enters]
      generalize L.lexicon.add L.grammar word tag cost = result at hadds ⊢
      cases hadds with
      | badCost _ =>
          rw [List.append_nil]
          exact h
      | badTag _ _ =>
          rw [List.append_nil]
          exact h.grow hgrows
      | entered hcost hl =>
          obtain ⟨hlabel, hpre⟩ := Grammar.addPreterminal_ok hl
          exact h.enter hgrows ⟨word, tag, cost⟩ hlabel hpre hcost

theorem records_foldl_apply (edits : List (Edit α)) (h : L.Records entries) :
    (edits.foldl apply L).Records (entries ++ L.entered edits) := by
  induction edits generalizing L entries with
  | nil =>
      rw [entered, List.append_nil]
      exact h
  | cons e edits ih =>
      rw [entered, ← List.append_assoc]
      exact ih (records_apply h e)

theorem records_ofEdits (start : String) (edits : List (Edit α)) :
    (ofEdits start edits).Records ((⟨.new start, .empty⟩ : Language α).entered edits) :=
  records_foldl_apply edits (records_new start)

omit [ComparableCost α] in
theorem Records.isPreterminal (h : L.Records entries) {w : Nat} {l : Label}
    (hl : l ∈ L.lexicon.tags w) : L.grammar.isPreterminal l = true := by
  rw [h.tallies.tags, Lexicon.mem_tagsAmong, Lexicon.map_fst_callsOf, List.mem_filterMap] at hl
  obtain ⟨e, he, ht⟩ := hl
  obtain ⟨t, ht', hpre⟩ := h.placed e he
  cases ht.symm.trans ht'
  exact hpre

omit [ComparableCost α] in
/-- What was recorded can be read off the lexicon. -/
theorem Records.represents (h : L.Records entries) (hdict : L.grammar.dict.Faithful) :
    L.lexicon.Represents L.grammar.dict entries where
  number word w := h.numbers.number (Text.composed word) w
  same word other w hw := by
    constructor
    · intro hother
      have hplace := (h.numbers.number (Text.composed word) w).mp hw
      exact Option.some.inj (((h.numbers.number (Text.composed other) w).mp hother).symm.trans
        hplace)
    · intro heq
      unfold Lexicon.word?
      rw [heq]
      exact hw
  label e he name := by
    obtain ⟨t, ht, -⟩ := h.placed e he
    obtain ⟨-, hl⟩ := Lexicon.Entry.tagging?_eq_some_iff.mp ht
    constructor
    · intro heq
      exact Option.some.inj ((hdict _ _ (heq.trans hl)).symm.trans (hdict _ _ hl))
    · intro heq
      unfold Dictionary.lookup?
      rw [heq]
  placed e he := by
    obtain ⟨t, ht, -⟩ := h.placed e he
    exact ⟨t, ht⟩
  defined w t := by
    have hmem := h.tallies.mem_iff ⟨w, t⟩
    rw [Lexicon.map_fst_callsOf, List.mem_filterMap] at hmem
    exact hmem.symm
  attained w t x hx := Lexicon.mem_callsOf.mp (h.tallies.attained ⟨w, t⟩ x hx)
  least w t x hx e he ht := by
    obtain ⟨-, y, hy, hle⟩ := h.tallies.served _ _ (Lexicon.mem_callsOf.mpr ⟨e, he, ht, rfl⟩)
    cases hx.symm.trans hy
    exact hle
  tags w := by
    rw [← Lexicon.map_fst_callsOf]
    exact h.tallies.tags w
  nodup w := by
    rw [h.tallies.tags w, Lexicon.tagsAmong]
    exact nodup_eraseDups _
  size := by
    rw [← Lexicon.map_fst_callsOf]
    exact h.tallies.size

end Language

end Discontinuous
