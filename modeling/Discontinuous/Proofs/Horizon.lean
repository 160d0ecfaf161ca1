import Discontinuous.Proofs.Cutoff
import Discontinuous.Proofs.Exactness

/-!
Horizons of estimates. The inside table up to a horizon is the one up to any later horizon, cut off,
since outlines beyond a horizon are no part of those within it. What is estimated outside for
sentences within the earlier horizon takes siblings that are within it as well, so that it is the
same for both, and so are the parses that it guides.
-/
namespace Discontinuous

variable {α : Type} [Cost α]

namespace EstimateKind

/-- The horizons up to which a kind of estimates is made. They are machine words. -/
def Admits : EstimateKind → Int → Prop
  | off, _ => False
  | length, n => 1 ≤ n ∧ n < Word.bound
  | bitset, n => 1 ≤ n ∧ n ≤ Table.maxPatternHorizon

instance : (kind : EstimateKind) → (n : Int) → Decidable (kind.Admits n)
  | off, _ => inferInstanceAs (Decidable False)
  | length, n => inferInstanceAs (Decidable (1 ≤ n ∧ n < Word.bound))
  | bitset, n => inferInstanceAs (Decidable (1 ≤ n ∧ n ≤ Table.maxPatternHorizon))

def scheme : EstimateKind → Nat → Scheme
  | bitset => .patterns
  | _ => .lengths

/-- The number of positions that a signature stands for. -/
def covered : EstimateKind → UInt64 → Nat
  | bitset => fun p => Pattern.len ⟨p⟩
  | _ => UInt64.toNat

/-- The signature of an outline. -/
def outlined : EstimateKind → Outline α → UInt64
  | bitset => fun t => t.pattern.bits
  | _ => fun t => UInt64.ofNat t.leaves

variable {kind : EstimateKind} {n : Int}

theorem maxlen_scheme (kind : EstimateKind) (n : Nat) : (kind.scheme n).maxlen = n := by
  cases kind <;> rfl

theorem length_scheme (kind : EstimateKind) (n : Nat) : (kind.scheme n).length = kind.covered := by
  cases kind <;> rfl

theorem Admits.pos (h : kind.Admits n) : 1 ≤ n := by
  cases kind with
  | off => exact h.elim
  | length => exact h.1
  | bitset => exact h.1

theorem Admits.bounded (h : kind.Admits n) :
    ∃ signatures, (kind.scheme n.toNat).Bounded signatures := by
  have hpos := h.pos
  cases kind with
  | off => exact h.elim
  | length => exact ⟨_, Scheme.bounded_lengths (by omega)⟩
  | bitset =>
      have hmax : n ≤ 60 := h.2
      exact ⟨_, Scheme.bounded_patterns (by omega) (by omega)⟩

theorem Admits.tells {g : Grammar α} (h : kind.Admits n) (hg : g.WellFormed) :
    (kind.scheme n.toNat).Tells g kind.outlined := by
  have hpos := h.pos
  cases kind with
  | off => exact h.elim
  | length =>
      have hmax := h.2
      exact Scheme.tells_lengths g (by omega)
  | bitset =>
      have hmax : n ≤ 60 := h.2
      exact Scheme.tells_patterns hg (by omega)

theorem Admits.ne_off (h : kind.Admits n) : kind ≠ .off := by
  rintro rfl
  exact h

theorem Admits.estimate_eq (h : kind.Admits n) (g : Grammar α) :
    ∃ events, Table.estimate g kind n = .ok ((Table.fill g (kind.scheme n.toNat)).1, events) := by
  cases kind with
  | off => exact h.elim
  | length => exact Table.estimate_length h.1
  | bitset => exact Table.estimate_bitset h.1 h.2

end EstimateKind

namespace Outline

variable {p : Outline α → Prop} {entry entry' : Option α}

theorem Kept.eq_none (h : Kept p entry) (hp : ∀ t, ¬ p t) : entry = none := by
  cases entry with
  | none => rfl
  | some x =>
      obtain ⟨t, ht, -⟩ := h.attained x rfl
      exact absurd ht (hp t)

theorem Kept.congr {p' : Outline α → Prop} (h : Kept p entry) (hp : ∀ t, p t ↔ p' t) :
    Kept p' entry := by
  have heq : p = p' := by
    funext t
    exact propext (hp t)
  exact heq ▸ h

theorem Kept.unique [OrderedCost α] (h : Kept p entry) (h' : Kept p entry') : entry = entry' := by
  cases entry with
  | none =>
      refine (h'.eq_none fun t ht => ?_).symm
      obtain ⟨x, hx, -⟩ := h.le t ht
      cases hx
  | some x =>
      obtain ⟨t, ht, rfl⟩ := h.attained x rfl
      obtain ⟨y, rfl, hle⟩ := h'.le t ht
      obtain ⟨t', ht', rfl⟩ := h'.attained y rfl
      obtain ⟨z, hz, hle'⟩ := h.le t' ht'
      cases hz
      exact congrArg some (OrderedCost.le_antisymm hle' hle)

end Outline

namespace Table

/-- The table `t` is `u` without what covers more than `maxlen` positions. -/
structure CutOff (covered : UInt64 → Nat) (maxlen : Int) (t u : Table α) : Prop where
  entry : ∀ k : TableKey, t.costs[k]? =
    if (covered k.signature : Int) ≤ maxlen then u.costs[k]? else none
  lookup_eq : ∀ l a, (covered a : Int) ≤ maxlen → t.lookup l a = u.lookup l a
  lookup_beyond : ∀ l a, maxlen < covered a → t.lookup l a = Cost.infinity

theorem cutOff_of_entry {covered : UInt64 → Nat} {maxlen : Int} {t u : Table α}
    (h : ∀ k : TableKey, t.costs[k]? =
      if (covered k.signature : Int) ≤ maxlen then u.costs[k]? else none) :
    CutOff covered maxlen t u := by
  refine ⟨h, ?_, ?_⟩
  · intro l a hle
    rw [lookup_eq_getD, lookup_eq_getD, h, if_pos hle]
  · intro l a hlt
    rw [lookup_eq_getD, h, if_neg (by dsimp only; omega), Option.getD_none]

section Fill

variable [OrderedCost α] {g : Grammar α} {scheme scheme' : Scheme} {signature : Outline α → UInt64}
  {signatures signatures' : List UInt64} (hg : g.WellFormed) (hb : scheme.Bounded signatures)
  (hb' : scheme'.Bounded signatures') (ht : scheme.Tells g signature)
  (ht' : scheme'.Tells g signature) (hpos : 1 ≤ scheme.maxlen)
  (hle : scheme.maxlen ≤ scheme'.maxlen)

include hg hb hb' ht ht' hpos hle

/-- Outlines are told by the same signatures, so that the same are kept up to the lesser horizon. -/
theorem cutOff_fill (hlength : scheme'.length = scheme.length) :
    CutOff scheme.length scheme.maxlen (fill g scheme).1 (fill g scheme').1 := by
  apply cutOff_of_entry
  intro k
  have hkept := kept hg hb ht hpos k
  have hkept' := kept hg hb' ht' (hpos.trans hle) k
  split
  next hcovered =>
    refine hkept.unique (hkept'.congr fun t => ⟨?_, ?_⟩)
    · rintro ⟨hproper, hhorizon, hlabel, hsig⟩
      have hleaves := ht'.length hproper hhorizon
      rw [hsig, hlength] at hleaves
      exact ⟨hproper, by omega, hlabel, hsig⟩
    · rintro ⟨hproper, hhorizon, hlabel, hsig⟩
      exact ⟨hproper, hhorizon.trans hle, hlabel, hsig⟩
  next hcovered =>
    apply hkept.eq_none
    rintro t ⟨hproper, hhorizon, -, hsig⟩
    have hleaves := ht.length hproper hhorizon
    rw [hsig] at hleaves
    omega

theorem lookupLength_fill_of_le (l : Label) {n : Int} (hn : n ≤ scheme.maxlen) :
    (fill g scheme).1.lookupLength l n = (fill g scheme').1.lookupLength l n := by
  refine (lookupLength_least hg hb ht hpos l n).unique
    ((lookupLength_least hg hb' ht' (hpos.trans hle) l n).congr fun t => ⟨?_, ?_⟩)
  · rintro ⟨hproper, -, hlabel, hleaves⟩
    exact ⟨hproper, by omega, hlabel, hleaves⟩
  · rintro ⟨hproper, hhorizon, hlabel, hleaves⟩
    exact ⟨hproper, hhorizon.trans hle, hlabel, hleaves⟩

end Fill

end Table

namespace Outside

variable {g : Grammar α} {inside inside' : Table α} {h : Nat} {cell k : Cell} {x x' y : α}
  {c : Clause α}

/-- Down from a cell the sentence stays, and no more of it is covered. -/
theorem bounds_of_mem_descend (hmem : (k, y) ∈ descend g inside cell x c) :
    k.length = cell.length ∧ k.covered ≤ cell.covered := by
  rcases mem_descend.mp hmem with ⟨-, rfl, -⟩ |
    ⟨r, nl, nr, -, -, -, hsum, ⟨rfl, -⟩ | ⟨rfl, -⟩⟩
  · exact ⟨rfl, Nat.le_refl _⟩
  · exact ⟨rfl, Nat.le.intro hsum⟩
  · exact ⟨rfl, Nat.le.intro ((Nat.add_comm nr nl).trans hsum)⟩

/-- What leads down from a cell leads down from a cheaper one for no more, also with siblings from
another table, as long as it agrees about the positions that the cell covers. -/
theorem exists_mem_descend [OrderedCost α]
    (hagree : ∀ l (n : Nat), n ≤ h → inside.lookupLength l n = inside'.lookupLength l n)
    (hcovered : cell.covered ≤ h) (hle : Cost.le x' x = true)
    (hmem : (k, y) ∈ descend g inside cell x c) :
    ∃ y', (k, y') ∈ descend g inside' cell x' c ∧ Cost.le y' y = true := by
  have hadd : ∀ z z' : α,
      Cost.le (Cost.add (Cost.add x' z) z') (Cost.add (Cost.add x z) z') = true :=
    fun z z' => OrderedCost.add_le_add_right z' (OrderedCost.add_le_add_right z hle)
  rcases mem_descend.mp hmem with ⟨hr, rfl, rfl⟩ |
    ⟨r, nl, nr, hr, hnl, hnr, hsum, ⟨rfl, rfl⟩ | ⟨rfl, rfl⟩⟩
  · exact ⟨_, mem_descend.mpr (.inl ⟨hr, rfl, rfl⟩), OrderedCost.add_le_add_right _ hle⟩
  · refine ⟨_, mem_descend.mpr (.inr ⟨r, nl, nr, hr, hnl, hnr, hsum, .inl ⟨rfl, rfl⟩⟩), ?_⟩
    rw [hagree r nr (by omega)]
    exact hadd _ _
  · refine ⟨_, mem_descend.mpr (.inr ⟨r, nl, nr, hr, hnl, hnr, hsum, .inr ⟨rfl, rfl⟩⟩), ?_⟩
    rw [hagree c.left nl (by omega)]
    exact hadd _ _

section Agree

variable [OrderedCost α] (hg : g.WellFormed)
  (hfits : Cell.Fits g.dict.size inside.maxlen.toNat)
  (hfits' : Cell.Fits g.dict.size inside'.maxlen.toNat)
  (hadmitted : ∀ l n, Cost.isAdmitted (inside.lookupLength l n) = true)
  (hadmitted' : ∀ l n, Cost.isAdmitted (inside'.lookupLength l n) = true)
  (hagree : ∀ l (n : Nat), n ≤ h → inside.lookupLength l n = inside'.lookupLength l n)

include hg hfits hfits' hadmitted hadmitted' hagree

/-- As far as two tables agree, a cell that is estimated from one of them is estimated from the
other for no more. -/
theorem exists_costAt_le (hh : h ≤ inside'.maxlen.toNat) (hk : k ∈ cells g inside)
    (hlength : k.length ≤ h) (hx : costAt inside (estimate g inside).1.costs k = some x) :
    ∃ y, costAt inside' (estimate g inside').1.costs k = some y ∧ Cost.le y x = true := by
  have hclosed := closed_estimate hg hfits' hadmitted'
  have hended := ended hg hfits hadmitted (P := fun k x => k.covered ≤ k.length ∧ (k.length ≤ h →
    ∃ y, costAt inside' (estimate g inside').1.costs k = some y ∧ Cost.le y x = true)) ?_
  · exact (hended.known k x hk hx).2 hlength
  intro v k y hv hfollows
  cases hfollows with
  | @start m hpos _ =>
      refine ⟨Nat.le_refl m, fun hm => ?_⟩
      exact hclosed.least _ _ (.start hpos (Nat.le_trans hm hh))
  | @descend cell _ z _ c hc hl hcell hz hmem hfin =>
      obtain ⟨hcovered, hknown⟩ := hv cell z hcell hz
      obtain ⟨hsame, hless⟩ := bounds_of_mem_descend hmem
      refine ⟨by omega, fun hm => ?_⟩
      obtain ⟨z', hz', hzle⟩ := hknown (by omega)
      obtain ⟨y', hmem', hyle⟩ := exists_mem_descend hagree (by omega) hzle hmem
      obtain ⟨hlabel, hlong, hpos, -⟩ := mem_cells.mp hcell
      have hcell' : cell ∈ cells g inside' := mem_cells.mpr ⟨hlabel, by omega, hpos, by omega⟩
      have hfin' : Cost.isInfinite y' = false := by
        cases hinf : Cost.isInfinite y' with
        | false => rfl
        | true =>
            rw [Cost.isInfinite_of_le hyle hinf] at hfin
            cases hfin
      obtain ⟨w, hw, hwle⟩ := hclosed.least _ _ (.descend hc hl hcell' hz' hmem' hfin')
      exact ⟨w, hw, OrderedCost.le_trans hwle hyle⟩

/-- As far as two tables agree, the same is estimated from both. -/
theorem costAt_eq (hh : h ≤ inside.maxlen.toNat) (hh' : h ≤ inside'.maxlen.toNat)
    (hlabel : g.dict.Has k.label) (hpos : 1 ≤ k.covered) (hcovered : k.covered ≤ k.length)
    (hlength : k.length ≤ h) :
    costAt inside (estimate g inside).1.costs k =
      costAt inside' (estimate g inside').1.costs k := by
  have hk : k ∈ cells g inside := mem_cells.mpr ⟨hlabel, by omega, hpos, by omega⟩
  have hk' : k ∈ cells g inside' := mem_cells.mpr ⟨hlabel, by omega, hpos, by omega⟩
  have hforth : ∀ x, costAt inside (estimate g inside).1.costs k = some x → _ := fun x hx =>
    exists_costAt_le hg hfits hfits' hadmitted hadmitted' hagree hh' hk hlength hx
  have hback : ∀ y, costAt inside' (estimate g inside').1.costs k = some y → _ := fun y hy =>
    exists_costAt_le hg hfits' hfits hadmitted' hadmitted
      (fun l n hn => (hagree l n hn).symm) hh hk' hlength hy
  cases hx : costAt inside (estimate g inside).1.costs k with
  | none =>
      cases hy : costAt inside' (estimate g inside').1.costs k with
      | none => rfl
      | some y =>
          obtain ⟨z, hz, -⟩ := hback y hy
          cases hx.symm.trans hz
  | some x =>
      obtain ⟨y, hy, hle⟩ := hforth x hx
      obtain ⟨z, hz, hle'⟩ := hback y hy
      cases hx.symm.trans hz
      rw [hy]
      exact congrArg some (OrderedCost.le_antisymm hle' hle)

/-- As far as two tables agree, nothing tells which of them an estimate is from. -/
theorem lookup_estimate_eq (hh : (h : Int) ≤ inside.maxlen) (hh' : (h : Int) ≤ inside'.maxlen)
    (l : Label) {m : Int} (n : Int) (hpos : 1 ≤ m) (hm : m ≤ h) :
    (estimate g inside).1.lookup l m n = (estimate g inside').1.lookup l m n := by
  have hclosed := closed_estimate hg hfits hadmitted
  have hclosed' := closed_estimate hg hfits' hadmitted'
  have hmaxlen := hclosed.maxlen
  have hmaxlen' := hclosed'.maxlen
  have hlabels := hclosed.labels
  have hlabels' := hclosed'.labels
  by_cases hlabel : g.dict.Has l
  · have ⟨hlow, hhigh⟩ := hlabel
    by_cases hcovered : 1 ≤ n ∧ n ≤ m
    · obtain ⟨hn, hnm⟩ := hcovered
      lift m to ℕ using by omega
      lift n to ℕ using by omega
      have hrange : InRange g inside ⟨l, m, n⟩ := ⟨hlabel, by dsimp only; omega,
        Int.ofNat_le.mp hn, Int.ofNat_le.mp hnm⟩
      have hrange' : InRange g inside' ⟨l, m, n⟩ := ⟨hlabel, by dsimp only; omega,
        Int.ofNat_le.mp hn, Int.ofNat_le.mp hnm⟩
      have hsame := costAt_eq hg hfits hfits' hadmitted hadmitted' hagree (by omega) (by omega)
        hlabel hrange.covered_pos hrange.covered_le (Int.ofNat_le.mp hm)
      exact (lookup_eq hclosed hrange).trans
        ((congrArg (Option.getD · _) hsame).trans (lookup_eq hclosed' hrange').symm)
    · simp only [lookup]
      rw [if_neg (by omega), if_pos (by omega), if_neg (by omega), if_pos (by omega)]
  · simp only [Dictionary.Has, not_and_or] at hlabel
    simp only [lookup]
    rw [if_pos (by omega), if_pos (by omega)]

end Agree

end Outside

/-- The problem, with another heuristic. -/
def Problem.guide (p : Problem α) (h : Heuristic α) : Problem α := { p with heuristic := h }

namespace Search

variable {p : Problem α} {h : Heuristic α}
  (hsame : ∀ l s, h l s p.length = p.heuristic l s p.length)

include hsame

/-- Proposals are estimated for the length of the sentence, and for no other. -/
theorem propose_guide : Frontier.propose (p.guide h) = Frontier.propose p := by
  funext chart f x
  simp only [Frontier.propose, Problem.guide]
  rw [hsame]
  rfl

theorem combine_guide : Frontier.combine (p.guide h) = Frontier.combine p := by
  have hone : Frontier.proposeIf (p.guide h) = Frontier.proposeIf p := by
    funext chart f x
    cases x with
    | none => rfl
    | some x => exact congrFun (congrFun (congrFun (propose_guide hsame) chart) f) x
  have hwith : Frontier.proposeWith (p.guide h) = Frontier.proposeWith p := by
    funext chart make f id
    simp only [Frontier.proposeWith, hone]
  have hleft : Frontier.proposeLeft (p.guide h) = Frontier.proposeLeft p := by
    funext chart child f c
    simp only [Frontier.proposeLeft, hone, hwith]
  have hright : Frontier.proposeRight (p.guide h) = Frontier.proposeRight p := by
    funext chart child f c
    simp only [Frontier.proposeRight, hwith]
  funext chart child f
  simp only [Frontier.combine, hleft, hright]
  rfl

theorem advance_guide (s : Search α) (id : Nat) (it : Item α) :
    s.advance (p.guide h) id it = s.advance p id it := by
  simp only [advance, combine]
  rw [combine_guide hsame]
  rfl

theorem step_guide (s : Search α) : s.step (p.guide h) = s.step p := by
  simp only [step, advance_guide hsame]
  rfl

theorem run_guide (s : Search α) : run (p.guide h) s = run p s := by
  fun_induction run p s with
  | case1 s t stop hstep => exact run_of_stop ((step_guide hsame s).trans hstep)
  | case2 s t hstep ih => exact (run_of_step ((step_guide hsame s).trans hstep)).trans ih

end Search

namespace Parser

variable {h h' : Heuristic α}

theorem seeds_guide {p : Problem α} (ctx : Context α) (sentence : List Token)
    (hsame : ∀ l s, h l s p.length = h' l s p.length) (f : Frontier α) :
    seeds { ctx with heuristic := h } (p.guide h) f sentence =
      seeds { ctx with heuristic := h' } p f sentence := by
  have hseed : ∀ pos t, seed { ctx with heuristic := h } p.length pos t =
      seed { ctx with heuristic := h' } p.length pos t := by
    intro pos t
    simp only [seed]
    rw [hsame]
    rfl
  simp only [seeds, Problem.guide, hseed]
  rfl

/-- Heuristics that agree about sentences of some length guide parsers of such a sentence in the
same way. A parser refuses the empty sentence before it asks for estimates. -/
theorem parse_guide (q : Parser α) (ctx : Context α) (tracing : Bool) {sentence : List Token}
    (hsame : 1 ≤ sentence.length → ∀ l s, h l s sentence.length = h' l s sentence.length) :
    q.parse { ctx with heuristic := h } tracing sentence =
      q.parse { ctx with heuristic := h' } tracing sentence := by
  let p : Problem α := q.posed { ctx with heuristic := h' } tracing sentence
  have hposed : q.posed { ctx with heuristic := h } tracing sentence = p.guide h := rfl
  unfold parse
  split
  · rfl
  split
  · rfl
  next hlength =>
    have hsame := hsame (by omega)
    have hseeds : ∀ f, _ = seeds { ctx with heuristic := h' } p f sentence :=
      seeds_guide ctx sentence hsame
    have hrun : ∀ s, Search.run (p.guide h) s = Search.run p s := Search.run_guide hsame
    simp only [p, posed] at hseeds hrun hposed
    simp only [problem]
    rw [hposed, hseeds, hrun]

end Parser

namespace Estimates

/-- Inside and outside estimates do not depend on how far they are made, as far as they are made,
and neither do the parses that they guide. Outside estimates are made if the later horizon is one
for which the size of the flat table is a word. -/
theorem horizons_agree [BoundedCost α] (g : Grammar α) (kind : EstimateKind) (j k : Int)
    (hg : g.Built) (hj : kind.Admits j) (hk : kind.Admits k) (hle : j ≤ k) :
    ∃ t t' events events', Table.estimate g kind j = .ok (t, events) ∧
      Table.estimate g kind k = .ok (t', events') ∧ Table.CutOff kind.covered j t t' ∧
      (Cell.Fits g.dict.size k.toNat →
        (∀ l m n, 1 ≤ m → m ≤ j →
          (Outside.estimate g t).1.lookup l m n = (Outside.estimate g t').1.lookup l m n) ∧
        ∃ est est' built built', Estimates.build g kind j = .ok (est, built) ∧
          Estimates.build g kind k = .ok (est', built') ∧
          ∀ (q : Parser α) (ctx : Context α) (tracing : Bool) (sentence : List Token),
            (sentence.length : Int) ≤ j →
            q.parse { ctx with heuristic := est.heuristic } tracing sentence =
              q.parse { ctx with heuristic := est'.heuristic } tracing sentence) := by
  have hg := hg.wellFormed
  have hpos := hj.pos
  obtain ⟨signatures, hb⟩ := hj.bounded
  obtain ⟨signatures', hb'⟩ := hk.bounded
  have ht := hj.tells hg
  have ht' := hk.tells hg
  have hmaxlen := kind.maxlen_scheme j.toNat
  have hmaxlen' := kind.maxlen_scheme k.toNat
  obtain ⟨events, hestimate⟩ := hj.estimate_eq g
  obtain ⟨events', hestimate'⟩ := hk.estimate_eq g
  refine ⟨_, _, events, events', hestimate, hestimate', ?_, fun hfits => ?_⟩
  · have hcut := Table.cutOff_fill hg hb hb' ht ht' (by omega) (by omega)
      ((kind.length_scheme k.toNat).trans (kind.length_scheme j.toNat).symm)
    rw [hmaxlen, kind.length_scheme, Int.toNat_of_nonneg (by omega)] at hcut
    exact hcut
  have hhorizon := Table.maxlen_fill hg hb
  have hhorizon' := Table.maxlen_fill hg hb'
  have hfits' : Cell.Fits g.dict.size (Table.fill g (kind.scheme k.toNat)).1.maxlen.toNat := by
    rw [hhorizon', hmaxlen']
    exact hfits
  have hfits : Cell.Fits g.dict.size (Table.fill g (kind.scheme j.toNat)).1.maxlen.toNat := by
    rw [hhorizon, hmaxlen]
    exact hfits.mono (by omega)
  obtain ⟨built, hbuild⟩ := build_of_fits hestimate hj.ne_off hfits
  obtain ⟨built', hbuild'⟩ := build_of_fits hestimate' hk.ne_off hfits'
  have houtside : ∀ l m n, 1 ≤ m → m ≤ j →
      (Outside.estimate g (Table.fill g (kind.scheme j.toNat)).1).1.lookup l m n =
        (Outside.estimate g (Table.fill g (kind.scheme k.toNat)).1).1.lookup l m n := by
    intro l m n hm hmj
    have hagree : ∀ l (n : Nat), n ≤ j.toNat → _ := fun l n hn =>
      Table.lookupLength_fill_of_le (n := n) hg hb hb' ht ht' (by omega) (by omega) l (by omega)
    exact Outside.lookup_estimate_eq (h := j.toNat) hg hfits hfits'
      (Table.closed_fill hg hb).admitted (Table.closed_fill hg hb').admitted hagree
      (by rw [hhorizon]; omega) (by rw [hhorizon']; omega) l n hm (by omega)
  refine ⟨houtside, _, _, built, built', hbuild, hbuild', ?_⟩
  intro q ctx tracing sentence hlength
  refine Parser.parse_guide q ctx tracing fun hsome l s => ?_
  exact houtside l sentence.length s.len (by omega) hlength

/-- Sentences of three tokens are estimated in the same way up to a horizon of four. -/
theorem horizons_agree_gapped :
    Parser.gapped.grammar.Built ∧ EstimateKind.bitset.Admits 3 ∧ EstimateKind.bitset.Admits 4 ∧
      (3 : Int) ≤ 4 ∧ Cell.Fits Parser.gapped.grammar.dict.size 4 ∧ ∃ est est' events events',
        build Parser.gapped.grammar .bitset 3 = .ok (est, events) ∧
        build Parser.gapped.grammar .bitset 4 = .ok (est', events') ∧
        Parser.unbounded.parse { Parser.gapped with heuristic := est.heuristic } false
            Parser.gappedSentence =
          Parser.unbounded.parse { Parser.gapped with heuristic := est'.heuristic } false
            Parser.gappedSentence := by
  have hthree : EstimateKind.bitset.Admits 3 := by decide
  have hfour : EstimateKind.bitset.Admits 4 := by decide
  have hfits : Cell.Fits Parser.gapped.grammar.dict.size 4 := by decide +kernel
  obtain ⟨t, t', events, events', -, -, -, houtside⟩ :=
    horizons_agree Parser.gapped.grammar .bitset 3 4 Table.gapped_built hthree hfour (by decide)
  obtain ⟨-, est, est', built, built', hbuild, hbuild', hparse⟩ := houtside hfits
  refine ⟨Table.gapped_built, hthree, hfour, by decide, hfits, est, est', built, built', hbuild,
    hbuild', ?_⟩
  exact hparse Parser.unbounded Parser.gapped false Parser.gappedSentence (by decide)

end Estimates

end Discontinuous
