import Discontinuous.Proofs.Outline
import Discontinuous.Proofs.Outside
import Discontinuous.Proofs.Recognition

/-!
Exact inside tables. The entry of a label and a signature is the least cost of all outlines with
this label and signature within the horizon, and there is none if there is no such outline. Lengths
are told by both kinds of signatures, so that tables of both kinds agree on them, and with them all
that is estimated from tables by length.
-/
namespace Discontinuous

variable {α : Type} [Cost α]

/-- A grammar as callers build it. -/
def Grammar.Built (g : Grammar α) : Prop :=
  ∃ (_ : Composer) (start : String) (edits : List (Edit α)),
    g = (Language.ofEdits start edits).grammar

theorem Grammar.Built.wellFormed {g : Grammar α} (h : g.Built) : g.WellFormed := by
  obtain ⟨_, start, edits, rfl⟩ := h
  exact (Language.wellFormed_ofEdits start edits).grammar

namespace Outline

/-- The least cost of the outlines that are asked for, infinite if there are none. -/
def Least (p : Outline α → Prop) (x : α) : Prop :=
  ((∃ t, p t ∧ t.cost = x) ∧ ∀ t, p t → Cost.le x t.cost = true) ∨
    ((∀ t, ¬ p t) ∧ x = Cost.infinity)

theorem Least.unique [OrderedCost α] {p : Outline α → Prop} {x y : α} (hx : Least p x)
    (hy : Least p y) : x = y := by
  rcases hx with ⟨⟨t, ht, htx⟩, hleast⟩ | ⟨hnone, hinf⟩
  · rcases hy with ⟨⟨t', ht', hty⟩, hleast'⟩ | ⟨hnone, -⟩
    · exact OrderedCost.le_antisymm (hty ▸ hleast t' ht') (htx ▸ hleast' t ht)
    · exact absurd ht (hnone t)
  · rcases hy with ⟨⟨t', ht', -⟩, -⟩ | ⟨-, hinf'⟩
    · exact absurd ht' (hnone t')
    · rw [hinf, hinf']

theorem Least.congr {p p' : Outline α → Prop} {x : α} (h : Least p x) (hp : ∀ t, p t ↔ p' t) :
    Least p' x := by
  have heq : p = p' := by
    funext t
    exact propext (hp t)
  exact heq ▸ h

/-- What is kept of the outlines that are asked for: the cost of one of them that is no more than
the cost of any, and nothing if there are none. -/
structure Kept (p : Outline α → Prop) (entry : Option α) : Prop where
  attained : ∀ x, entry = some x → ∃ t, p t ∧ t.cost = x
  le : ∀ t, p t → ∃ x, entry = some x ∧ Cost.le x t.cost = true

/-- What is kept, and infinity otherwise, is the least cost. -/
theorem Kept.least {p : Outline α → Prop} {entry : Option α} (h : Kept p entry) :
    Least p (entry.getD Cost.infinity) := by
  cases entry with
  | none =>
      refine .inr ⟨?_, rfl⟩
      intro t ht
      obtain ⟨x, hx, -⟩ := h.le t ht
      cases hx
  | some x =>
      refine .inl ⟨h.attained x rfl, ?_⟩
      intro t ht
      obtain ⟨y, hy, hyle⟩ := h.le t ht
      cases hy
      exact hyle

end Outline

namespace Scheme

variable {g : Grammar α} {scheme : Scheme} {signature : Outline α → UInt64}

/-- A scheme tells of every outline within its horizon what the function says: clauses with two
children are joined exactly if they stay within the horizon. -/
structure Tells (scheme : Scheme) (g : Grammar α) (signature : Outline α → UInt64) : Prop where
  leaf : ∀ l, signature (.leaf l) = scheme.seed
  unary : ∀ {c t}, (Outline.unary c t).Proper g → signature (.unary c t) = signature t
  binary : ∀ {c t t'}, (Outline.binary c t t').Proper g → t.leaves ≤ scheme.maxlen →
    t'.leaves ≤ scheme.maxlen → scheme.join c.yield c.join (signature t) (signature t') =
      if t.leaves + t'.leaves ≤ scheme.maxlen then some (signature (.binary c t t')) else none
  length : ∀ {t}, t.Proper g → t.leaves ≤ scheme.maxlen → scheme.length (signature t) = t.leaves

omit [Cost α] in
theorem tells_lengths (g : Grammar α) {maxlen : Nat} (hmax : maxlen < Word.bound) :
    (lengths maxlen).Tells g fun t => UInt64.ofNat t.leaves := by
  have htoNat : ∀ t : Outline α, t.leaves ≤ maxlen →
      (UInt64.ofNat t.leaves).toNat = t.leaves := by
    intro t ht
    exact Word.toNat_ofNat (by omega)
  refine ⟨fun l => rfl, fun _ => rfl, ?_, fun _ => htoNat _⟩
  intro c t t' _ ht ht'
  simp only [lengths] at ht ht' ⊢
  rw [htoNat t ht, htoNat t' ht', ← UInt64.ofNat_add]
  rfl

theorem tells_patterns (hg : g.WellFormed) {maxlen : Nat} (hmax : maxlen ≤ 60) :
    (patterns maxlen).Tells g fun t => t.pattern.bits := by
  refine ⟨fun l => rfl, ?_, ?_, ?_⟩
  · intro c t h
    cases h with
    | unary hc hr ht hl =>
        obtain ⟨ls, hls⟩ := ht.exists_deals hg
        rw [(hls.unary hg hc hr hl).pattern_eq, hls.pattern_eq]
  · intro c t t' h ht ht'
    cases h with
    | binary hc hr hp hl hp' hl' =>
        obtain ⟨ls, hls⟩ := hp.exists_deals hg
        obtain ⟨rs, hrs⟩ := hp'.exists_deals hg
        obtain ⟨cs, hsplice, hcs⟩ := hls.binary hg hrs hc hr hl hl'
        have hsum : cs.sum = t.leaves + t'.leaves := hcs.sum
        change joinPatterns maxlen c.yield c.join _ _ =
          if t.leaves + t'.leaves ≤ maxlen then _ else _
        rw [hg.yield_eq hc, hls.pattern_eq, hrs.pattern_eq, hcs.pattern_eq, ← hsum]
        exact joinPatterns_eq hmax (hls.fits (hp.arity hg) ht) (hrs.fits (hp'.arity hg) ht')
          (hls.length_left hg hc hl) (hrs.length_right hg hc hr hl') hsplice
  · intro t h hle
    obtain ⟨ls, hls⟩ := h.exists_deals hg
    have hfits := hls.fits (h.arity hg) hle
    have hwidth := hfits.width_le hmax
    have harity := hfits.arity
    rw [hls.pattern_eq]
    change (Pattern.ofLengths (ls.map Int.ofNat)).len = _
    rw [← hls.sum]
    cases ls with
    | nil => simp at harity
    | cons n rest => exact Pattern.len_ofLengths n rest hwidth

end Scheme

namespace Table

variable {g : Grammar α} {scheme : Scheme} {signature : Outline α → UInt64}
  {signatures : List UInt64}

/-- The outlines that an entry of a table stands for. -/
structure Stands (g : Grammar α) (scheme : Scheme) (signature : Outline α → UInt64) (k : TableKey)
    (t : Outline α) : Prop where
  proper : t.Proper g
  horizon : t.leaves ≤ scheme.maxlen
  label : t.label = k.label
  signature : signature t = k.signature

/-- What follows from outlines is an outline. -/
theorem stands_of_follows (ht : scheme.Tells g signature) (hpos : 1 ≤ scheme.maxlen)
    {v : TableKey → Option α}
    (hv : ∀ k x, v k = some x → ∃ t, Stands g scheme signature k t ∧ t.cost = x) {k : TableKey}
    {x : α} (h : Filling.Follows g scheme v k x) :
    ∃ t, Stands g scheme signature k t ∧ t.cost = x := by
  cases h with
  | @seed l hl =>
      exact ⟨.leaf l, ⟨.leaf (Grammar.mem_preterminalList.mp hl), hpos, rfl, ht.leaf l⟩, rfl⟩
  | @unary c a y hc hr hy =>
      obtain ⟨t, hstands, rfl⟩ := hv _ _ hy
      have hproper := Outline.Proper.unary hc hr hstands.proper hstands.label
      refine ⟨.unary c t, ⟨hproper, hstands.horizon, rfl, ?_⟩, rfl⟩
      rw [ht.unary hproper]
      exact hstands.signature
  | @binary c r a b d y z hc hr hy hz hd =>
      obtain ⟨t, hstands, rfl⟩ := hv _ _ hy
      obtain ⟨t', hstands', rfl⟩ := hv _ _ hz
      have hproper := Outline.Proper.binary hc hr hstands.proper hstands.label hstands'.proper
        hstands'.label
      -- signatures join only within the horizon, so that the parent is not beyond it
      have hjoin := ht.binary hproper hstands.horizon hstands'.horizon
      rw [hstands.signature, hstands'.signature, hd] at hjoin
      split at hjoin
      next hle => exact ⟨.binary c t t', ⟨hproper, hle, rfl, (Option.some.inj hjoin).symm⟩, rfl⟩
      next => cases hjoin

/-- Every outline within the horizon has an entry that costs no more. -/
theorem exists_entry_of_outline [OrderedCost α] (ht : scheme.Tells g signature)
    {v : TableKey → Option α}
    (hv : ∀ k x, Filling.Follows g scheme v k x → ∃ y, v k = some y ∧ Cost.le y x = true)
    {t : Outline α} (h : t.Proper g) (hle : t.leaves ≤ scheme.maxlen) :
    ∃ y, v ⟨t.label, signature t⟩ = some y ∧ Cost.le y t.cost = true := by
  induction h with
  | @leaf l hl =>
      rw [ht.leaf]
      exact hv _ _ (.seed (Grammar.mem_preterminalList.mpr hl))
  | @unary c t hc hr hp hl ih =>
      obtain ⟨x, hx, hxle⟩ := ih hle
      rw [hl] at hx
      rw [ht.unary (.unary hc hr hp hl)]
      obtain ⟨y, hy, hyle⟩ := hv _ _ (.unary hc hr hx)
      exact ⟨y, hy, OrderedCost.le_trans hyle (OrderedCost.add_le_add_right _ hxle)⟩
  | @binary c r t t' hc hr hp hl hp' hl' ih ih' =>
      have hle : t.leaves + t'.leaves ≤ scheme.maxlen := hle
      obtain ⟨x, hx, hxle⟩ := ih (by omega)
      obtain ⟨x', hx', hxle'⟩ := ih' (by omega)
      have hjoin := ht.binary (.binary hc hr hp hl hp' hl') (by omega) (by omega)
      rw [if_pos hle] at hjoin
      rw [hl] at hx
      rw [hl'] at hx'
      obtain ⟨y, hy, hyle⟩ := hv _ _ (.binary hc hr hx hx' hjoin)
      exact ⟨y, hy, OrderedCost.le_trans hyle
        (OrderedCost.add_le_add_right _ (Cost.add_le_add hxle hxle'))⟩

section Least

variable [OrderedCost α] (hg : g.WellFormed) (hb : scheme.Bounded signatures)
  (ht : scheme.Tells g signature) (hpos : 1 ≤ scheme.maxlen)

include hg hb ht hpos

theorem filled_stands : Filled g scheme
    (fun k x => ∃ t, Stands g scheme signature k t ∧ t.cost = x) (filling g scheme) :=
  filled hg hb fun _ _ _ hv h => stands_of_follows ht hpos hv h

theorem kept (k : TableKey) :
    Outline.Kept (Stands g scheme signature k) (fill g scheme).1.costs[k]? := by
  have hfilled := filled_stands hg hb ht hpos
  rw [fill_eq]
  refine ⟨fun x hx => hfilled.known k x hx, ?_⟩
  rintro t ⟨hproper, hle, hl, ha⟩
  obtain ⟨y, hy, hyle⟩ := exists_entry_of_outline ht hfilled.least hproper hle
  rw [hl, ha] at hy
  exact ⟨y, hy, hyle⟩

theorem lookup_least (l : Label) (a : UInt64) :
    Outline.Least (Stands g scheme signature ⟨l, a⟩) ((fill g scheme).1.lookup l a) := by
  rw [lookup_eq_getD]
  exact (kept hg hb ht hpos ⟨l, a⟩).least

/-- Whatever signatures are, the least cost by length is that of all outlines of this length. -/
theorem lookupLength_least (l : Label) (n : Int) :
    Outline.Least (fun t => t.Proper g ∧ t.leaves ≤ scheme.maxlen ∧ t.label = l ∧
      (t.leaves : Int) = n) ((fill g scheme).1.lookupLength l n) := by
  have hfilled := filled_stands hg hb ht hpos
  rw [fill_eq, lookupLength_eq_getD]
  apply Outline.Kept.least
  constructor
  · intro x hx
    obtain ⟨a, hlength, hview⟩ := hfilled.good.attained _ x hx
    have hlength : (scheme.length a : Int) = n := hlength
    obtain ⟨t, hstands, hcost⟩ := hfilled.known _ x hview
    refine ⟨t, ⟨hstands.proper, hstands.horizon, hstands.label, ?_⟩, hcost⟩
    rw [← hlength, ← ht.length hstands.proper hstands.horizon, hstands.signature]
  · rintro t ⟨hproper, hle, rfl, rfl⟩
    obtain ⟨x, hx, hxle⟩ := exists_entry_of_outline ht hfilled.least hproper hle
    obtain ⟨y, hy, hyle⟩ := hfilled.good.byLength_le _ x hx
    rw [ht.length hproper hle] at hy
    exact ⟨y, hy, OrderedCost.le_trans hyle hxle⟩

end Least

/-- A table in which every entry is exact, and that was filled until nothing was left in the
queue. -/
structure Exact (g : Grammar α) (scheme : Scheme) (signature : Outline α → UInt64)
    (result : Except EstimateError (Table α × Effort)) : Prop where
  filled : result = .ok ((filling g scheme).settled.table, (filling g scheme).agenda.effort)
  drained : (filling g scheme).agenda.size = 0
  least : ∀ l a, Outline.Least (Stands g scheme signature ⟨l, a⟩)
    ((filling g scheme).settled.table.lookup l a)

/-- Filling a table ends, and every entry is the least cost of the outlines with its label and its
signature, be it their number of leaves or the pattern of their arguments. -/
theorem inside_tables_exact [OrderedCost α] (g : Grammar α) (maxlen : Int) (hg : g.Built)
    (hpos : 1 ≤ maxlen) (hbound : maxlen < Word.bound) :
    Exact g (.lengths maxlen.toNat) (fun t => UInt64.ofNat t.leaves) (byLengths g maxlen) ∧
      (maxlen ≤ 60 →
        Exact g (.patterns maxlen.toNat) (fun t => t.pattern.bits) (byPatterns g maxlen)) := by
  have hg := hg.wellFormed
  have hmaxlen : 1 ≤ maxlen.toNat := by omega
  constructor
  · have hb := Scheme.bounded_lengths hmaxlen
    have ht : (Scheme.lengths maxlen.toNat).Tells g _ := Scheme.tells_lengths g (by omega)
    exact ⟨byLengths_eq hpos, (filled_stands hg hb ht hmaxlen).drained,
      lookup_least hg hb ht hmaxlen⟩
  · intro hmax
    have hb := Scheme.bounded_patterns hmaxlen (by omega)
    have ht : (Scheme.patterns maxlen.toNat).Tells g _ := Scheme.tells_patterns hg (by omega)
    exact ⟨byPatterns_eq hpos hmax, (filled_stands hg hb ht hmaxlen).drained,
      lookup_least hg hb ht hmaxlen⟩

theorem gapped_built : Parser.gapped.grammar.Built :=
  ⟨inferInstance, "S", Parser.gappedEdits, rfl⟩

/-- Around a `B` there are an `A` and a `C`, and an `S` is made of all three. -/
theorem inside_tables_exact_gapped :
    Parser.gapped.grammar.Built ∧
      Outline.Least (Stands Parser.gapped.grammar (.lengths 4) (fun t => UInt64.ofNat t.leaves)
        ⟨⟨0⟩, 3⟩) 3 ∧
      Outline.Least (Stands Parser.gapped.grammar (.patterns 4) (fun t => t.pattern.bits)
        ⟨⟨4⟩, (Pattern.ofLengths [1, 1]).bits⟩) 1 ∧
      Outline.Least (Stands Parser.gapped.grammar (.patterns 4) (fun t => t.pattern.bits)
        ⟨⟨4⟩, (Pattern.ofLengths [2]).bits⟩) Cost.infinity := by
  obtain ⟨hlengths, hpatterns⟩ := inside_tables_exact Parser.gapped.grammar 4 gapped_built
    (by decide) (by decide)
  have hpatterns := hpatterns (by decide)
  have hwhole : (filling Parser.gapped.grammar (.lengths 4)).settled.table.lookup ⟨0⟩ 3 = 3 := by
    decide +kernel
  have hgap : (filling Parser.gapped.grammar (.patterns 4)).settled.table.lookup ⟨4⟩
      (Pattern.ofLengths [1, 1]).bits = 1 := by
    decide +kernel
  have hnone : (filling Parser.gapped.grammar (.patterns 4)).settled.table.lookup ⟨4⟩
      (Pattern.ofLengths [2]).bits = Cost.infinity := by
    decide +kernel
  refine ⟨gapped_built, ?_, ?_, ?_⟩
  · rw [← hwhole]
    exact hlengths.least ⟨0⟩ 3
  · rw [← hgap]
    exact hpatterns.least ⟨4⟩ _
  · rw [← hnone]
    exact hpatterns.least ⟨4⟩ _

theorem maxlen_fill [OrderedCost α] (hg : g.WellFormed) (hb : scheme.Bounded signatures) :
    (fill g scheme).1.maxlen = scheme.maxlen :=
  (filled (P := fun _ _ => True) hg hb fun _ _ _ _ _ => trivial).good.maxlen

/-- Either kind of signatures gives the same least costs by length. -/
theorem lookupLength_fill_eq [OrderedCost α] (hg : g.WellFormed) {maxlen : Nat}
    (hpos : 1 ≤ maxlen) (hmax : maxlen ≤ 60) (l : Label) (n : Int) :
    (fill g (.patterns maxlen)).1.lookupLength l n =
      (fill g (.lengths maxlen)).1.lookupLength l n := by
  have hbits := lookupLength_least hg (Scheme.bounded_patterns hpos hmax)
    (Scheme.tells_patterns hg hmax) hpos l n
  have hlen := lookupLength_least hg (Scheme.bounded_lengths hpos)
    (Scheme.tells_lengths g (by simp only [Word.bound]; omega)) hpos l n
  exact hbits.unique hlen

theorem lookup_eq_lookupLength [OrderedCost α] (hg : g.WellFormed) {maxlen : Nat}
    (hpos : 1 ≤ maxlen) (hmax : maxlen < Word.bound) (l : Label) {n : Nat} (hn : n < Word.bound) :
    (fill g (.lengths maxlen)).1.lookup l (UInt64.ofNat n) =
      (fill g (.lengths maxlen)).1.lookupLength l n := by
  have hb := Scheme.bounded_lengths hpos
  have ht := Scheme.tells_lengths g hmax
  refine ((lookup_least hg hb ht hpos l (UInt64.ofNat n)).congr ?_).unique
    (lookupLength_least hg hb ht hpos l n)
  intro t
  constructor
  · rintro ⟨hproper, hle, hl, hsig⟩
    have hleaves : UInt64.toNat _ = t.leaves := ht.length hproper hle
    rw [hsig, Word.toNat_ofNat hn] at hleaves
    exact ⟨hproper, hle, hl, congrArg Int.ofNat hleaves.symm⟩
  · rintro ⟨hproper, hle, hl, hn⟩
    exact ⟨hproper, hle, hl, congrArg UInt64.ofNat (Int.ofNat_inj.mp hn)⟩

end Table

namespace Outside

variable {g : Grammar α} {inside inside' : Table α}

/-- Outside estimates take no more from a table than its horizon and its least costs by length. -/
theorem estimate_congr (hmaxlen : inside.maxlen = inside'.maxlen)
    (hlength : ∀ l n, inside.lookupLength l n = inside'.lookupLength l n) :
    estimate g inside = estimate g inside' := by
  have hdescend : descend g inside = descend g inside' := by
    funext cell cost c
    simp only [descend, hlength]
  have hconsequences : consequences g inside = consequences g inside' := by
    funext i cost
    simp only [consequences, hmaxlen, hdescend]
  have hrules : rules g inside = rules g inside' := by
    simp only [rules, hconsequences]
  simp only [estimate, descent, seeds, blank, hmaxlen, hrules]

theorem build_congr (hmaxlen : inside.maxlen = inside'.maxlen)
    (hlength : ∀ l n, inside.lookupLength l n = inside'.lookupLength l n) :
    build g inside = build g inside' := by
  simp only [build, estimate_congr hmaxlen hlength, hmaxlen]

end Outside

namespace Estimates

/-- Estimates by patterns and by lengths are the same, and guide parsers in the same way. Both are
built, unless there are so many labels that the size of their flat table is no word. -/
theorem bitset_agrees_with_length [OrderedCost α] (g : Grammar α) (maxlen : Int) (hg : g.Built)
    (hpos : 1 ≤ maxlen) (hmax : maxlen ≤ 60) :
    ∃ bits len effort effort',
      Table.byPatterns g maxlen = .ok (bits, effort) ∧
      Table.byLengths g maxlen = .ok (len, effort') ∧
      (∀ l n, bits.lookupLength l n = len.lookupLength l n) ∧
      (∀ l n, n < Word.bound → len.lookup l (UInt64.ofNat n) = len.lookupLength l n) ∧
      (∀ l m n, (Outside.estimate g bits).1.lookup l m n =
        (Outside.estimate g len).1.lookup l m n) ∧
      (Estimates.build g .bitset maxlen).map Prod.fst =
        (Estimates.build g .length maxlen).map Prod.fst ∧
      (Cell.Fits g.dict.size maxlen.toNat →
        ∃ est events, Estimates.build g .bitset maxlen = .ok (est, events)) ∧
      ∀ est est' events events', Estimates.build g .bitset maxlen = .ok (est, events) →
        Estimates.build g .length maxlen = .ok (est', events') →
        ∀ (q : Parser α) (lexicon : Option (Lexicon α)) (tracing : Bool) (sentence : List Token),
          q.parse ⟨g, lexicon, est.heuristic⟩ tracing sentence =
            q.parse ⟨g, lexicon, est'.heuristic⟩ tracing sentence := by
  have hg := hg.wellFormed
  have hpos' : 1 ≤ maxlen.toNat := by omega
  have hmax' : maxlen.toNat ≤ 60 := by omega
  have hbound : maxlen.toNat < Word.bound := by
    simp only [Word.bound]
    omega
  -- the tables differ in their entries, but in nothing that outside estimates read of them
  have hmaxlen := Table.maxlen_fill hg (Scheme.bounded_patterns hpos' hmax')
  have hhorizon := hmaxlen.trans (Table.maxlen_fill hg (Scheme.bounded_lengths hpos')).symm
  have hlength := Table.lookupLength_fill_eq hg hpos' hmax'
  obtain ⟨before, hestimate⟩ := Table.estimate_bitset (g := g) hpos hmax
  obtain ⟨before', hestimate'⟩ := Table.estimate_length (g := g) hpos
  have hbuilt : (Estimates.build g .bitset maxlen).map Prod.fst =
      (Estimates.build g .length maxlen).map Prod.fst := by
    rw [build_of_table hestimate (by decide), build_of_table hestimate' (by decide)]
    rw [Outside.build_congr hhorizon hlength]
    cases Outside.build g _ <;> rfl
  refine ⟨(Table.fill g (.patterns maxlen.toNat)).1, (Table.fill g (.lengths maxlen.toNat)).1, _,
    _, Table.byPatterns_eq hpos hmax, Table.byLengths_eq hpos, hlength, ?_, ?_, hbuilt, ?_, ?_⟩
  · intro l n hn
    exact Table.lookup_eq_lookupLength hg hpos' hbound l hn
  · intro l m n
    rw [Outside.estimate_congr hhorizon hlength]
  · intro hfits
    obtain ⟨events, hbuild⟩ := build_of_fits hestimate (by decide) (hmaxlen ▸ hfits)
    exact ⟨_, events, hbuild⟩
  · intro est est' events events' hbuild hbuild' q lexicon tracing sentence
    rw [hbuild, hbuild'] at hbuilt
    cases hbuilt
    rfl

theorem bitset_agrees_with_length_gapped :
    Parser.gapped.grammar.Built ∧
      ∃ est est' events events',
        build Parser.gapped.grammar .bitset 4 = .ok (est, events) ∧
        build Parser.gapped.grammar .length 4 = .ok (est', events') ∧
        Parser.unbounded.parse { Parser.gapped with heuristic := est.heuristic } false
            Parser.gappedSentence =
          Parser.unbounded.parse { Parser.gapped with heuristic := est'.heuristic } false
            Parser.gappedSentence := by
  obtain ⟨bits, len, effort, effort', -, -, -, -, -, hsame, hbuilds, hparse⟩ :=
    bitset_agrees_with_length Parser.gapped.grammar 4 Table.gapped_built (by decide) (by decide)
  obtain ⟨est, events, hbuild⟩ := hbuilds (by decide +kernel)
  rw [hbuild] at hsame
  cases hbuild' : build Parser.gapped.grammar .length 4 with
  | error e =>
      rw [hbuild'] at hsame
      cases hsame
  | ok built =>
      exact ⟨Table.gapped_built, est, built.1, events, built.2, hbuild, rfl,
        hparse est built.1 events built.2 hbuild hbuild' Parser.unbounded Parser.gapped.lexicon
          false Parser.gappedSentence⟩

end Estimates

end Discontinuous
