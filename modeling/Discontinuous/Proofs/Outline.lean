import Discontinuous.Proofs.Grammar
import Discontinuous.Proofs.Scheme

/-!
Derivations apart from any sentence: pre-terminals that cost nothing, and clauses over them. They
say how many positions a label covers and how these are spread over ranges, but not which positions
they are. This is all that estimates can tell apart.
-/
namespace Discontinuous

inductive Outline (α : Type) where
  | leaf (l : Label)
  | unary (c : Clause α) (child : Outline α)
  | binary (c : Clause α) (left right : Outline α)

namespace Outline

variable {α : Type}

def label : Outline α → Label
  | leaf l => l
  | unary c _ => c.lhs
  | binary c _ _ => c.lhs

def leaves : Outline α → Nat
  | leaf _ => 1
  | unary _ t => t.leaves
  | binary _ t t' => t.leaves + t'.leaves

/-- The lengths of the arguments, dealt out by the yield functions of the clauses. -/
def args? : Outline α → Option (List Nat)
  | leaf _ => some [1]
  | unary c t => t.args?.bind fun ls => Scheme.splice c.yield ls []
  | binary c t t' => t.args?.bind fun ls => t'.args?.bind fun rs => Scheme.splice c.yield ls rs

/-- The pattern of the arguments, absent if they cannot be dealt out. -/
def pattern (t : Outline α) : Pattern :=
  match t.args? with
  | none => .absent
  | some ls => .ofLengths (ls.map Int.ofNat)

def cost [Cost α] : Outline α → α
  | leaf _ => Cost.zero
  | unary c t => Cost.add t.cost c.cost
  | binary c t t' => Cost.add (Cost.add t.cost t'.cost) c.cost

/-- Leaves are pre-terminals, and inner nodes are instances of clauses. -/
inductive Proper (g : Grammar α) : Outline α → Prop where
  | leaf {l : Label} : g.isPreterminal l = true → Proper g (leaf l)
  | unary {c : Clause α} {t : Outline α} : c ∈ g.clauses → c.right = none → Proper g t →
      t.label = c.left → Proper g (unary c t)
  | binary {c : Clause α} {r : Label} {t t' : Outline α} : c ∈ g.clauses → c.right = some r →
      Proper g t → t.label = c.left → Proper g t' → t'.label = r → Proper g (binary c t t')

/-- The lengths of arguments that a label can have with so many leaves. -/
structure Deals (g : Grammar α) (t : Outline α) (ls : List Nat) : Prop where
  args : t.args? = some ls
  length : ls.length = g.arity t.label
  pos : ∀ n ∈ ls, 1 ≤ n
  sum : ls.sum = t.leaves

variable {g : Grammar α} {t t' : Outline α} {c : Clause α}

theorem Deals.pattern_eq {ls : List Nat} (h : t.Deals g ls) :
    t.pattern = .ofLengths (ls.map Int.ofNat) := by
  simp only [pattern]
  rw [h.args]

/-- Arguments of one or two ranges fit into a pattern. -/
theorem Deals.fits {maxlen : Nat} {ls : List Nat} (h : t.Deals g ls)
    (harity : g.arity t.label = 1 ∨ g.arity t.label = 2) (hle : t.leaves ≤ maxlen) :
    Scheme.Fits maxlen ls := by
  refine ⟨?_, h.pos, ?_⟩
  · rw [h.length]
    exact harity
  · rw [h.sum]
    exact hle

variable [Cost α]

theorem Proper.arity (hg : g.WellFormed) (h : t.Proper g) :
    g.arity t.label = 1 ∨ g.arity t.label = 2 := by
  have hclause : ∀ c ∈ g.clauses, g.arity c.lhs = 1 ∨ g.arity c.lhs = 2 := by
    intro c hc
    rw [hg.arity_lhs hc]
    exact c.join.arity_bounds
  cases h with
  | leaf hl => exact .inl (hg.arity_preterminal hl)
  | unary hc _ _ _ => exact hclause _ hc
  | binary hc _ _ _ _ _ => exact hclause _ hc

theorem Deals.length_left (hg : g.WellFormed) {ls : List Nat} (h : t.Deals g ls)
    (hc : c ∈ g.clauses) (hl : t.label = c.left) : ls.length = c.join.childArity .left := by
  rw [h.length, hl]
  exact (hg.arity_left hc).2

theorem Deals.length_right (hg : g.WellFormed) {ls : List Nat} (h : t.Deals g ls)
    (hc : c ∈ g.clauses) {r : Label} (hr : c.right = some r) (hl : t.label = r) :
    ls.length = c.join.childArity .right := by
  rw [h.length, hl]
  exact (hg.arity_right hc hr).2

theorem Deals.unary (hg : g.WellFormed) {ls : List Nat} (h : t.Deals g ls) (hc : c ∈ g.clauses)
    (hr : c.right = none) (hl : t.label = c.left) : (Outline.unary c t).Deals g ls := by
  have hu := hg.isUnary_eq_true hc hr
  have hleft := h.length_left hg hc hl
  refine ⟨?_, ?_, h.pos, h.sum⟩
  · simp only [args?]
    rw [h.args, hg.yield_eq hc]
    exact Scheme.splice_unary hu hleft
  · exact hleft.trans ((Scheme.childArity_of_isUnary hu).trans (hg.arity_lhs hc).symm)

theorem Deals.binary (hg : g.WellFormed) {ls rs : List Nat} (h : t.Deals g ls)
    (h' : t'.Deals g rs) (hc : c ∈ g.clauses) {r : Label} (hr : c.right = some r)
    (hl : t.label = c.left) (hl' : t'.label = r) :
    ∃ cs, Scheme.splice c.join.yield ls rs = some cs ∧ (Outline.binary c t t').Deals g cs := by
  obtain ⟨cs, hcs, hsum⟩ := Scheme.splice_total (h.length_left hg hc hl).symm
    (h'.length_right hg hc hr hl').symm
  obtain ⟨hlen, hpos⟩ := Scheme.splice_pos (Scheme.yield_ne_nil c.join) h.pos h'.pos hcs
  refine ⟨cs, hcs, ?_, ?_, hpos, ?_⟩
  · simp only [args?]
    rw [h.args, h'.args, hg.yield_eq hc]
    exact hcs
  · exact hlen.trans (hg.arity_lhs hc).symm
  · rw [hsum, h.sum, h'.sum]
    rfl

/-- Every label gets as many arguments as it has ranges, and every leaf is in one of them. -/
theorem Proper.exists_deals (hg : g.WellFormed) (h : t.Proper g) : ∃ ls, t.Deals g ls := by
  induction h with
  | leaf hl => exact ⟨[1], rfl, (hg.arity_preterminal hl).symm, by simp, rfl⟩
  | unary hc hr _ hl ih =>
      obtain ⟨ls, hls⟩ := ih
      exact ⟨ls, hls.unary hg hc hr hl⟩
  | binary hc hr _ hl _ hl' ih ih' =>
      obtain ⟨ls, hls⟩ := ih
      obtain ⟨rs, hrs⟩ := ih'
      obtain ⟨cs, -, hcs⟩ := hls.binary hg hrs hc hr hl hl'
      exact ⟨cs, hcs⟩

end Outline

end Discontinuous
