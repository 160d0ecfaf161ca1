import Discontinuous.Closure
import Discontinuous.Grammar.Basic
import Discontinuous.Pattern

/-!
Inside estimates: what it costs at least to derive a label, whatever the words. Spans are abstracted
to signatures, either their lengths or the patterns of their range lengths, and the cheapest
derivation of every label and signature is found up to a maximum length.
-/
namespace Discontinuous

/-- What estimates tell apart: nothing, lengths of spans, or lengths of ranges. -/
inductive EstimateKind where
  | off
  | length
  | bitset
deriving DecidableEq

namespace EstimateKind

def all : List EstimateKind := [off, length, bitset]

def name : EstimateKind → String
  | off => "off"
  | length => "length"
  | bitset => "bitset"

def ofName? (name : String) : Option EstimateKind := all.find? fun k => k.name == name

end EstimateKind

structure TableKey where
  label : Label
  signature : UInt64
deriving DecidableEq

instance : Keyed TableKey where
  code k := [k.label.id, (k.signature.toNat : Int)]
  code_injective a b h := by
    obtain ⟨⟨l⟩, s⟩ := a
    obtain ⟨⟨l'⟩, s'⟩ := b
    simp only [List.cons.injEq, and_true] at h
    obtain ⟨rfl, hs⟩ := h
    have : s = s' := UInt64.toNat_inj.mp (Int.ofNat_inj.mp hs)
    subst this
    rfl

structure LengthKey where
  label : Label
  length : Int
deriving DecidableEq

instance : Keyed LengthKey where
  code k := [k.label.id, k.length]
  code_injective a b h := by
    obtain ⟨⟨l⟩, n⟩ := a
    obtain ⟨⟨l'⟩, n'⟩ := b
    simp only [List.cons.injEq, and_true] at h
    obtain ⟨rfl, rfl⟩ := h
    rfl

/-- The least costs by signature, and by length over all signatures. -/
structure Table (α : Type) where
  kind : EstimateKind
  maxlen : Int
  costs : Map TableKey α
  byLength : Map LengthKey α

namespace Table

variable {α : Type} [Cost α]

def empty (kind : EstimateKind) (maxlen : Int) : Table α := ⟨kind, maxlen, ∅, ∅⟩

def size (t : Table α) : Nat := t.costs.size

/-- The least cost of a label with a signature, infinite if it has none. -/
def lookup (t : Table α) (label : Label) (signature : UInt64) : α :=
  t.costs.getD ⟨label, signature⟩ Cost.infinity

/-- The least cost of a label that covers `n` positions, infinite if it cannot. -/
def lookupLength (t : Table α) (label : Label) (n : Int) : α :=
  t.byLength.getD ⟨label, n⟩ Cost.infinity

def signature (t : Table α) (s : Span) : UInt64 :=
  match t.kind with
  | .bitset => s.pattern.bits
  | _ => UInt64.ofInt s.len

def lookupSpan (t : Table α) (label : Label) (s : Span) : α := t.lookup label (t.signature s)

def set (t : Table α) (key : TableKey) (n : Int) (cost : α) : Table α :=
  let byLength := match t.byLength.get? ⟨key.label, n⟩ with
    | some old =>
      if Cost.lt cost old then t.byLength.insert ⟨key.label, n⟩ cost else t.byLength
    | none => t.byLength.insert ⟨key.label, n⟩ cost
  { t with costs := t.costs.insert key cost, byLength }

end Table

/-- How spans are abstracted to signatures of at most `maxlen` positions. -/
structure Scheme where
  kind : EstimateKind
  maxlen : Nat
  seed : UInt64
  /-- The signature of a clause with this yield function and of this type, given those of its
  children. -/
  join : Yield → JoinType → UInt64 → UInt64 → Option UInt64
  length : UInt64 → Nat
  /-- No more signatures than these occur. -/
  count : Nat

namespace Scheme

def lengths (maxlen : Nat) : Scheme where
  kind := .length
  maxlen
  seed := 1
  join _ _ left right := if left.toNat + right.toNat ≤ maxlen then some (left + right) else none
  length := UInt64.toNat
  count := maxlen

/-- Deals the lengths of the children's ranges out to the arguments of a yield function, in order,
and adds them up. -/
def splice : Yield → List Nat → List Nat → Option (List Nat)
  | [], _, _ => some []
  | arg :: rest, left, right =>
    match take arg left right with
    | none => none
    | some (n, left, right) => (splice rest left right).map (n :: ·)
where
  /-- The length of one argument, and the ranges that are left. -/
  take : List Side → List Nat → List Nat → Option (Nat × List Nat × List Nat)
    | [], left, right => some (0, left, right)
    | .left :: arg, n :: left, right => (take arg left right).map fun (m, r) => (n + m, r)
    | .right :: arg, left, n :: right => (take arg left right).map fun (m, r) => (n + m, r)
    | _, _, _ => none

def joinPatterns (maxlen : Nat) (y : Yield) (jt : JoinType) (left right : UInt64) :
    Option UInt64 :=
  let left := Pattern.args ⟨left⟩
  let right := Pattern.args ⟨right⟩
  if left.length ≠ jt.childArity .left ∨ right.length ≠ jt.childArity .right then none
  else match splice y left right with
  | none => none
  | some args =>
    if maxlen < args.foldl (· + ·) 0 then none
    else
      let p := Pattern.ofLengths (args.map Int.ofNat)
      if p = .absent then none else some p.bits

def patterns (maxlen : Nat) : Scheme where
  kind := .bitset
  maxlen
  seed := (Pattern.ofLengths [1]).bits
  join := joinPatterns maxlen
  length p := Pattern.len ⟨p⟩
  count := maxlen + maxlen * maxlen

end Scheme

/-- A table that is being filled, with the signatures of every label in the order in which they
were settled. -/
structure Filling (α : Type) where
  table : Table α
  signatures : Map Label (Array UInt64)

namespace Filling

variable {α : Type} [Cost α]

def signaturesOf (f : Filling α) (l : Label) : List UInt64 := (f.signatures.getD l #[]).toList

def settle (scheme : Scheme) (f : Filling α) (key : TableKey) (cost : α) : Filling α where
  table := f.table.set key (scheme.length key.signature) cost
  signatures :=
    f.signatures.insert key.label ((f.signatures.getD key.label #[]).push key.signature)

/-- What follows by a clause whose left or only child has just been settled. -/
def followLeft (scheme : Scheme) (f : Filling α) (key : TableKey) (cost : α) (c : Clause α) :
    List (TableKey × α) :=
  match c.right with
  | none => [(⟨c.lhs, key.signature⟩, Cost.add cost c.cost)]
  | some right =>
    (f.signaturesOf right).filterMap fun sibling =>
      (scheme.join c.yield c.join key.signature sibling).map fun signature =>
        (⟨c.lhs, signature⟩, Cost.add (Cost.add cost (f.table.lookup right sibling)) c.cost)

/-- What follows by a clause whose right child has just been settled. -/
def followRight (scheme : Scheme) (f : Filling α) (key : TableKey) (cost : α) (c : Clause α) :
    List (TableKey × α) :=
  (f.signaturesOf c.left).filterMap fun sibling =>
    (scheme.join c.yield c.join sibling key.signature).map fun signature =>
      (⟨c.lhs, signature⟩, Cost.add (Cost.add (f.table.lookup c.left sibling) cost) c.cost)

def rules (g : Grammar α) (scheme : Scheme) : Rules (Filling α) TableKey α where
  settle := settle scheme
  isSettled f key := f.table.costs.contains key
  consequences f key cost :=
    (g.byLeft key.label).flatMap (followLeft scheme f key cost) ++
      (g.byRight key.label).flatMap (followRight scheme f key cost)

end Filling

inductive EstimateError where
  | badHorizon (kind : EstimateKind) (maxlen : Int)
  | unknownKind (name : Text)
  /-- There are more cells than places in a flat table. -/
  | oversized (labels : Nat) (maxlen : Int)

def EstimateError.message : EstimateError → String
  | badHorizon kind maxlen =>
    kind.name ++ " estimates for maxlen=" ++ toString maxlen ++
      ": invalid maximum length for estimates"
  | unknownKind name => Text.quoted name ++ ": unknown kind of estimates"
  | oversized labels maxlen =>
    "no table for " ++ toString labels ++ " labels and maxlen=" ++ toString maxlen

namespace Table

variable {α : Type} [Cost α]

/-- The table of a grammar, filled from pre-terminals that cost nothing, and what it took. -/
def fill (g : Grammar α) (scheme : Scheme) : Table α × Effort :=
  let closure := Closure.run (Filling.rules g scheme) (g.dict.size * scheme.count)
    ⟨.empty scheme.kind scheme.maxlen, ∅⟩
    (g.preterminalList.map fun l => (⟨l, scheme.seed⟩, Cost.zero))
  (closure.settled.table, closure.agenda.effort)

def byLengths (g : Grammar α) (maxlen : Int) : Except EstimateError (Table α × Effort) :=
  if maxlen < 1 then .error (.badHorizon .length maxlen)
  else .ok (fill g (.lengths maxlen.toNat))

/-- The largest horizon of estimates by patterns. -/
def maxPatternHorizon : Int := Pattern.maxWidth - 3

/-- Estimates by the patterns of spans, which have to fit into a word. -/
def byPatterns (g : Grammar α) (maxlen : Int) : Except EstimateError (Table α × Effort) :=
  if maxlen < 1 ∨ maxlen > maxPatternHorizon then .error (.badHorizon .bitset maxlen)
  else .ok (fill g (.patterns maxlen.toNat))

end Table

end Discontinuous
