import Discontinuous.Parser.Tagging
import Discontinuous.Proofs.Lexicon
import Discontinuous.Text.Composed

/-!
How words are tagged. Without tags every word gets the first of its cheapest tags, as long as it has
one that is not infinitely dear; with tags the lexicon merely numbers the words. Either way a tag is
a pre-terminal, since the lexicon holds no other.
-/
namespace Discontinuous

section Results

variable {ε β γ : Type} {f : β → Except ε γ}

theorem mapM_cons_eq_ok_iff {x : β} {xs : List β} {zs : List γ} : (x :: xs).mapM f = .ok zs ↔
    ∃ y ys, f x = .ok y ∧ xs.mapM f = .ok ys ∧ zs = y :: ys := by
  rw [List.mapM_cons]
  rcases f x with e | y
  · simp [bind, Except.bind]
  · rcases xs.mapM f with e | ys
    · simp [bind, Except.bind]
    · simp [bind, Except.bind, pure, Except.pure, @eq_comm _ zs]

/-- Results are those of the elements, one by one. -/
theorem mapM_eq_ok_iff {xs : List β} {ys : List γ} :
    xs.mapM f = .ok ys ↔ List.Forall₂ (fun x y => f x = .ok y) xs ys := by
  induction xs generalizing ys with
  | nil =>
      rw [List.mapM_nil, List.forall₂_nil_left_iff]
      exact ⟨fun h => (Except.ok.inj h).symm, fun h => congrArg Except.ok h.symm⟩
  | cons x xs ih => simp only [mapM_cons_eq_ok_iff, ih, List.forall₂_cons_left_iff]

theorem exists_mapM_eq_ok_iff {xs : List β} :
    (∃ ys, xs.mapM f = .ok ys) ↔ ∀ x ∈ xs, ∃ y, f x = .ok y := by
  simp only [mapM_eq_ok_iff]
  induction xs with
  | nil => simp
  | cons x xs ih =>
      rw [List.forall_mem_cons, ← ih]
      constructor
      · rintro ⟨_, hx | ⟨hx, hxs⟩⟩
        exact ⟨⟨_, hx⟩, _, hxs⟩
      · rintro ⟨⟨y, hx⟩, ys, hxs⟩
        exact ⟨y :: ys, .cons hx hxs⟩

theorem map_eq_map_of_forall₂ {δ : Type} {r : β → γ → Prop} {g : β → δ} {h : γ → δ}
    (hr : ∀ x y, r x y → h y = g x) {xs : List β} {ys : List γ} (hxs : List.Forall₂ r xs ys) :
    ys.map h = xs.map g := by
  induction hxs with
  | nil => rfl
  | cons hx _ ih => rw [List.map_cons, List.map_cons, hr _ _ hx, ih]

end Results

namespace Token

variable {α : Type} [Cost α]

/-! The first of the cheapest. -/

/-- What has been found when `seen` has been gone through: nothing as long as all costs were
infinite, and otherwise a tag that is cheaper than all before it and no dearer than all behind. -/
inductive Leads (seen : List (Label × α)) : Option Label × α → Prop where
  | nothing : (∀ p ∈ seen, Cost.isInfinite p.2 = true) → Leads seen (none, Cost.infinity)
  | tag {before after : List (Label × α)} {l : Label} {x : α} :
      seen = before ++ (l, x) :: after → Cost.isInfinite x = false →
      (∀ p ∈ before, Cost.lt x p.2 = true) → (∀ p ∈ after, Cost.le x p.2 = true) →
      Leads seen (some l, x)

variable [ComparableCost α] {seen : List (Label × α)} {best : Option Label × α}

/-- One more tag. It is taken only if it is strictly cheaper, so that ties go to the first. -/
theorem Leads.step (hinf : Cost.isAdmitted (Cost.infinity : α) = true)
    (hseen : ∀ p ∈ seen, Cost.isAdmitted p.2 = true) (h : Leads seen best) {l : Label} {x : α}
    (hx : Cost.isAdmitted x = true) :
    Leads (seen ++ [(l, x)]) (if Cost.lt x best.2 then (some l, x) else best) := by
  cases h with
  | nothing hall =>
      dsimp only
      by_cases hlt : Cost.lt x Cost.infinity = true
      · rw [if_pos hlt]
        refine .tag rfl ?_ (fun p hp => ?_) (by simp)
        · exact Bool.eq_false_iff.mpr ((Cost.lt_iff_of_admitted hx hinf).mp hlt)
        · exact Cost.lt_of_lt_of_le hx hinf (hseen p hp) hlt (hall p hp)
      · rw [if_neg hlt]
        refine .nothing fun p hp => ?_
        rcases List.mem_append.mp hp with hp | hp
        · exact hall p hp
        · obtain rfl := List.mem_singleton.mp hp
          rw [Cost.lt_iff_of_admitted hx hinf, not_not] at hlt
          exact hlt
  | @tag before after k y hsplit hfinite hbefore hafter =>
      have hy : Cost.isAdmitted y = true := hseen (k, y) (by simp [hsplit])
      dsimp only
      by_cases hlt : Cost.lt x y = true
      · rw [if_pos hlt]
        refine .tag rfl ?_ (fun p hp => ?_) (by simp)
        · rw [Cost.isInfinite, Bool.eq_false_iff] at hfinite ⊢
          exact fun hle => hfinite (ComparableCost.le_trans hinf hx hy hle (Cost.le_of_lt hlt))
        · refine Cost.lt_of_lt_of_le hx hy (hseen p hp) hlt ?_
          rw [hsplit] at hp
          rcases List.mem_append.mp hp with hp | hp
          · exact Cost.le_of_lt (hbefore p hp)
          rcases List.mem_cons.mp hp with rfl | hp
          · exact Cost.le_refl_of_admitted hy
          · exact hafter p hp
      · rw [if_neg hlt]
        have hlonger : seen ++ [(l, x)] = before ++ (k, y) :: (after ++ [(l, x)]) := by
          simp [hsplit]
        refine .tag hlonger hfinite hbefore fun p hp => ?_
        rcases List.mem_append.mp hp with hp | hp
        · exact hafter p hp
        · obtain rfl := List.mem_singleton.mp hp
          rw [Cost.lt_iff_of_admitted hx hy, not_not] at hlt
          exact hlt

/-- The search over all tags of a word. -/
theorem leads_foldl (hinf : Cost.isAdmitted (Cost.infinity : α) = true) (tags : List (Label × α))
    (htags : ∀ p ∈ tags, Cost.isAdmitted p.2 = true) :
    Leads tags (tags.foldl (fun (best : Option Label × α) (tag, cost) =>
      if Cost.lt cost best.2 then (some tag, cost) else best) (none, Cost.infinity)) := by
  induction tags using List.reverseRecOn with
  | nil => exact .nothing (by simp)
  | append_singleton tags p ih =>
      have hold : ∀ q ∈ tags, Cost.isAdmitted q.2 = true := fun q hq =>
        htags q (List.mem_append_left _ hq)
      rw [List.foldl_append, List.foldl_cons, List.foldl_nil]
      exact (ih hold).step hinf hold (htags p (by simp))

/-- `l` is the first of the cheapest tags, and not infinitely dear. -/
theorem cheapest_eq_some {tags : List (Label × α)} {l : Label}
    (hinf : Cost.isAdmitted (Cost.infinity : α) = true)
    (htags : ∀ p ∈ tags, Cost.isAdmitted p.2 = true) (h : cheapest tags = some l) :
    ∃ before x after, tags = before ++ (l, x) :: after ∧ Cost.isInfinite x = false ∧
      (∀ p ∈ before, Cost.lt x p.2 = true) ∧ ∀ p ∈ after, Cost.le x p.2 = true := by
  have hleads := leads_foldl hinf tags htags
  unfold cheapest at h
  generalize tags.foldl _ _ = best at hleads h
  cases hleads with
  | nothing _ => cases h
  | tag hsplit hfinite hbefore hafter =>
      cases h
      exact ⟨_, _, _, hsplit, hfinite, hbefore, hafter⟩

theorem exists_cheapest_iff {tags : List (Label × α)}
    (hinf : Cost.isAdmitted (Cost.infinity : α) = true)
    (htags : ∀ p ∈ tags, Cost.isAdmitted p.2 = true) :
    (∃ l, cheapest tags = some l) ↔ ∃ p ∈ tags, Cost.isInfinite p.2 = false := by
  have hleads := leads_foldl hinf tags htags
  unfold cheapest
  generalize tags.foldl _ _ = best at hleads
  cases hleads with
  | nothing hall =>
      simp only [reduceCtorEq, exists_false, false_iff]
      rintro ⟨p, hp, hfinite⟩
      exact absurd (hall p hp) (by rw [hfinite]; exact Bool.false_ne_true)
  | @tag before after l x hsplit hfinite _ _ =>
      simp only [Option.some.injEq, exists_eq', true_iff]
      exact ⟨(l, x), by simp [hsplit], hfinite⟩

end Token

namespace Lexicon

variable {α : Type} [Cost α]

/-- A tag that is the first of the cheapest tags of a word, and not infinitely dear. -/
def Prefers (lex : Lexicon α) (w : Nat) (l : Label) : Prop :=
  ∃ before x after, lex.tags w = before ++ l :: after ∧ lex.cost? w l = some x ∧
    Cost.isInfinite x = false ∧
    (∀ k ∈ before, ∀ y, lex.cost? w k = some y → Cost.lt x y = true) ∧
    ∀ k ∈ after, ∀ y, lex.cost? w k = some y → Cost.le x y = true

end Lexicon

namespace Token

variable {α : Type} [Cost α] {lex : Lexicon α}

theorem ofWord_eq_ok_iff [Composer] {word : Text} {token : Token} : ofWord (some lex) word = .ok token ↔
    ∃ w l, lex.word? word = some w ∧ cheapest (lex.priced w) = some l ∧ token = ⟨some w, l⟩ := by
  unfold ofWord
  rw [Option.bind_some]
  cases lex.word? word with
  | none => simp
  | some w =>
      rw [Option.map_some]
      cases hpreferred : cheapest (lex.priced w) with
      | none => simp [hpreferred]
      | some l => simp [hpreferred, eq_comm]

omit [Cost α] in
theorem ofTagged_eq_ok_iff [Composer] {g : Grammar α} {word : Text} {tag : String} {token : Token} :
    ofTagged g (some lex) word tag = .ok token ↔
      ∃ l, g.dict.lookup? tag = some l ∧ g.isPreterminal l = true ∧
        token = ⟨lex.word? word, l⟩ := by
  unfold ofTagged
  cases g.dict.lookup? tag with
  | none => simp
  | some l =>
      rw [Option.bind_some]
      cases hl : g.isPreterminal l with
      | false => simp [hl]
      | true => simp [hl, @eq_comm _ _ token]

section Word

variable [ComparableCost α] {w : Nat} (hinf : Cost.isAdmitted (Cost.infinity : α) = true)
  (hlex : lex.WellFormed) (htags : ∀ l, l ∈ lex.tags w ↔ ∃ x, lex.cost? w l = some x)

include hlex htags

omit [ComparableCost α] in
theorem admitted_of_mem_priced : ∀ p ∈ lex.priced w, Cost.isAdmitted p.2 = true := by
  intro p hp
  obtain ⟨l, hl, rfl⟩ := List.mem_map.mp hp
  obtain ⟨x, hx⟩ := (htags l).mp hl
  rw [hx]
  exact hlex _ _ hx

include hinf

theorem prefers_of_cheapest {l : Label} (h : cheapest (lex.priced w) = some l) :
    lex.Prefers w l := by
  obtain ⟨before, x, after, hsplit, hfinite, hbefore, hafter⟩ :=
    cheapest_eq_some hinf (admitted_of_mem_priced hlex htags) h
  -- the tags split where their costs do
  obtain ⟨front, rest, hfront, rfl, hrest⟩ := List.map_eq_append_iff.mp hsplit
  obtain ⟨k, back, rfl, hk, rfl⟩ := List.map_eq_cons_iff.mp hrest
  obtain ⟨rfl, rfl⟩ := Prod.mk.inj hk
  obtain ⟨x, hx⟩ := (htags k).mp (by simp [hfront])
  rw [hx, Option.getD_some] at hfinite hbefore hafter
  refine ⟨front, x, back, hfront, hx, hfinite, fun u hu y hy => ?_, fun u hu y hy => ?_⟩
  · have hlt := hbefore _ (List.mem_map_of_mem hu)
    rwa [hy] at hlt
  · have hle := hafter _ (List.mem_map_of_mem hu)
    rwa [hy] at hle

theorem exists_cheapest_priced_iff : (∃ l, cheapest (lex.priced w) = some l) ↔
    ∃ l ∈ lex.tags w, ∃ x, lex.cost? w l = some x ∧ Cost.isInfinite x = false := by
  rw [exists_cheapest_iff hinf (admitted_of_mem_priced hlex htags)]
  constructor
  · rintro ⟨p, hp, hfinite⟩
    obtain ⟨l, hl, rfl⟩ := List.mem_map.mp hp
    obtain ⟨x, hx⟩ := (htags l).mp hl
    rw [hx] at hfinite
    exact ⟨l, hl, x, hx, hfinite⟩
  · rintro ⟨l, hl, x, hx, hfinite⟩
    refine ⟨_, List.mem_map_of_mem hl, ?_⟩
    rwa [hx]

end Word

section Words

variable [Composer] {g : Grammar α} {words : List Text} {tags : List String}

theorem exists_ofWords_tags_iff :
    (∃ s, ofWords g (some lex) words (some tags) = .ok s) ↔
      tags.length = words.length ∧
        ∀ tag ∈ tags, ∃ l, g.dict.lookup? tag = some l ∧ g.isPreterminal l = true := by
  unfold ofWords
  dsimp only
  by_cases hlength : tags.length = words.length
  · rw [if_neg (not_not.mpr hlength), exists_mapM_eq_ok_iff]
    constructor
    · intro h
      refine ⟨hlength, fun tag htag => ?_⟩
      rw [← List.map_snd_zip hlength.le] at htag
      obtain ⟨⟨word, tag⟩, hmem, rfl⟩ := List.mem_map.mp htag
      obtain ⟨token, htoken⟩ := h _ hmem
      obtain ⟨l, hl, hpre, -⟩ := ofTagged_eq_ok_iff.mp htoken
      exact ⟨l, hl, hpre⟩
    · rintro ⟨-, h⟩ ⟨word, tag⟩ hmem
      obtain ⟨l, hl, hpre⟩ := h tag (List.of_mem_zip hmem).2
      exact ⟨_, ofTagged_eq_ok_iff.mpr ⟨l, hl, hpre, rfl⟩⟩
  · rw [if_pos hlength]
    simp [hlength]

/-- Given tags are taken as they are, and words are numbered if they can be. -/
theorem map_of_ofWords_tags {s : List Token}
    (h : ofWords g (some lex) words (some tags) = .ok s) :
    s.map Token.word = words.map lex.word? ∧
      s.map (fun token => some token.tag) = tags.map g.dict.lookup? := by
  obtain ⟨hlength, -⟩ := exists_ofWords_tags_iff.mp ⟨s, h⟩
  unfold ofWords at h
  dsimp only at h
  rw [if_neg (not_not.mpr hlength), mapM_eq_ok_iff] at h
  constructor
  · have hwords : words.map lex.word? = (words.zip tags).map fun p => lex.word? p.1 := by
      conv_lhs => rw [← List.map_fst_zip hlength.ge, List.map_map]
      rfl
    rw [hwords]
    refine map_eq_map_of_forall₂ (fun p token htoken => ?_) h
    obtain ⟨l, -, -, rfl⟩ := ofTagged_eq_ok_iff.mp htoken
    rfl
  · have htags : tags.map g.dict.lookup? = (words.zip tags).map fun p => g.dict.lookup? p.2 := by
      conv_lhs => rw [← List.map_snd_zip hlength.le, List.map_map]
      rfl
    rw [htags]
    refine map_eq_map_of_forall₂ (fun p token htoken => ?_) h
    obtain ⟨l, hl, -, rfl⟩ := ofTagged_eq_ok_iff.mp htoken
    exact hl.symm

end Words

end Token

namespace Language

section Sentences

variable {α : Type} [Composer] [Cost α] {L : Language α}

/-- Which words become sentences, and which ones they become. -/
structure TagsSentences (L : Language α) : Prop where
  untagged_iff : ∀ words : List Text,
    (∃ s, Token.ofWords L.grammar (some L.lexicon) words none = .ok s) ↔
      ∀ word ∈ words, ∃ w, L.lexicon.word? word = some w ∧ ∃ l ∈ L.lexicon.tags w,
        ∃ x, L.lexicon.cost? w l = some x ∧ Cost.isInfinite x = false
  untagged : ∀ (words : List Text) (s : List Token),
    Token.ofWords L.grammar (some L.lexicon) words none = .ok s →
      List.Forall₂ (fun word (token : Token) => ∃ w, L.lexicon.word? word = some w ∧
        token.word = some w ∧ L.lexicon.Prefers w token.tag ∧
        L.grammar.isPreterminal token.tag = true) words s
  tagged_iff : ∀ (words : List Text) (tags : List String),
    (∃ s, Token.ofWords L.grammar (some L.lexicon) words (some tags) = .ok s) ↔
      tags.length = words.length ∧ ∀ tag ∈ tags, ∃ l, L.grammar.dict.lookup? tag = some l ∧
        L.grammar.isPreterminal l = true
  tagged : ∀ (words : List Text) (tags : List String) (s : List Token),
    Token.ofWords L.grammar (some L.lexicon) words (some tags) = .ok s →
      s.map Token.word = words.map L.lexicon.word? ∧
        s.map (fun token => some token.tag) = tags.map L.grammar.dict.lookup?

variable [ComparableCost α]

theorem Records.tagsSentences {entries : List (Lexicon.Entry α)} (h : L.Records entries)
    (hlex : L.lexicon.WellFormed) (hinf : Cost.isAdmitted (Cost.infinity : α) = true) :
    L.TagsSentences where
  untagged_iff words := by
    change (∃ s, words.mapM (Token.ofWord (some L.lexicon)) = .ok s) ↔ _
    rw [exists_mapM_eq_ok_iff]
    refine forall₂_congr fun word _ => ?_
    simp only [Token.ofWord_eq_ok_iff]
    have hfinite := fun w => Token.exists_cheapest_priced_iff hinf hlex
      fun l => h.tallies.mem_tags_iff (w := w) (l := l)
    constructor
    · rintro ⟨_, w, l, hw, hl, -⟩
      exact ⟨w, hw, (hfinite w).mp ⟨l, hl⟩⟩
    · rintro ⟨w, hw, htag⟩
      obtain ⟨l, hl⟩ := (hfinite w).mpr htag
      exact ⟨_, w, l, hw, hl, rfl⟩
  untagged words s hs := by
    change words.mapM (Token.ofWord (some L.lexicon)) = .ok s at hs
    refine (mapM_eq_ok_iff.mp hs).imp fun word token htoken => ?_
    obtain ⟨w, l, hw, hl, rfl⟩ := Token.ofWord_eq_ok_iff.mp htoken
    have hprefers :=
      Token.prefers_of_cheapest hinf hlex (fun _ => h.tallies.mem_tags_iff) hl
    obtain ⟨before, x, after, htags, -⟩ := id hprefers
    exact ⟨w, hw, rfl, hprefers, h.isPreterminal (w := w) (by simp [htags])⟩
  tagged_iff _ _ := Token.exists_ofWords_tags_iff
  tagged _ _ _ := Token.map_of_ofWords_tags

/-- Whatever is added, with success or in vain, the lexicon is what its entries make of it, and
sentences are tagged by it. -/
theorem lexicon_agrees_with_tagger (hinf : Cost.isAdmitted (Cost.infinity : α) = true)
    (start : String) (edits : List (Edit α)) :
    (ofEdits start edits).lexicon.Represents (ofEdits start edits).grammar.dict
        ((⟨.new start, .empty⟩ : Language α).entered edits) ∧
      (ofEdits start edits).TagsSentences := by
  have hrecords := records_ofEdits start edits
  exact ⟨hrecords.represents (enrolled_ofEdits start edits).faithful,
    hrecords.tagsSentences (wellFormed_ofEdits start edits).lexicon hinf⟩

end Sentences

/-- Tags that tie, that become cheaper or are infinitely dear, and entries that are refused. -/
def ambiguousEdits : List (Edit Price) :=
  [.clause "P" "N" (some "N") [[.left], [.right]] 0, .entry (Text.ofString "fish") "N" 1,
    .entry (Text.ofString "fish") "V" 1, .entry (Text.ofString "fish") "V" (-1),
    .entry (Text.ofString "swim") "N" 1, .entry (Text.ofString "swim") "V" ⊤,
    .entry (Text.ofString "swim") "V" 0, .entry (Text.ofString "swam") "P" 0,
    .entry (Text.ofString "um") "X" ⊤]

theorem lexicon_agrees_with_tagger_ambiguous :
    Cost.isAdmitted (Cost.infinity : Price) = true ∧
    ((⟨.new "S", .empty⟩ : Language Price).entered ambiguousEdits).length = 6 ∧
    ([["fish", "swim"], ["um"], ["swam"]].map fun words =>
      (Token.ofSentence (ofEdits "S" ambiguousEdits).grammar
        (some (ofEdits "S" ambiguousEdits).lexicon) words none).toOption.map
          (List.map fun token => (token.word, token.tag.id))) =
      [some [(some 0, 2), (some 1, 3)], none, none] ∧
    ((Token.ofSentence (ofEdits "S" ambiguousEdits).grammar
      (some (ofEdits "S" ambiguousEdits).lexicon) ["um", "swam"] (some ["X", "N"])).toOption.map
        (List.map fun token => (token.word, token.tag.id))) = some [(some 2, 4), (none, 2)] ∧
    (ofEdits "S" ambiguousEdits).lexicon.Represents (ofEdits "S" ambiguousEdits).grammar.dict
      ((⟨.new "S", .empty⟩ : Language Price).entered ambiguousEdits) ∧
    (ofEdits "S" ambiguousEdits).TagsSentences := by
  have hinf : Cost.isAdmitted (Cost.infinity : Price) = true := Cost.isAdmitted_infinity
  exact ⟨hinf, by decide +kernel, by decide +kernel, by decide +kernel,
    lexicon_agrees_with_tagger hinf "S" ambiguousEdits⟩

end Language

end Discontinuous
