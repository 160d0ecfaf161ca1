import Discontinuous.Grammar.Basic

/-!
Lexicons: what it costs to tag a word. Words are numbered in order of first occurrence and compared
in composed form.
-/
namespace Discontinuous

structure Tagging where
  word : Nat
  tag : Label
deriving DecidableEq

instance : Keyed Tagging where
  code t := [(t.word : Int), t.tag.id]
  code_injective a b h := by
    obtain ⟨w, ⟨t⟩⟩ := a
    obtain ⟨w', ⟨t'⟩⟩ := b
    simp only [List.cons.injEq, and_true] at h
    obtain ⟨hw, rfl⟩ := h
    have : w = w' := Int.ofNat_inj.mp hw
    subst this
    rfl

structure Lexicon (α : Type) where
  words : Map Text Nat
  costs : Map Tagging α
  tagLists : Map Nat (Array Label)

namespace Lexicon

variable {α : Type} [Composer]

def empty : Lexicon α := ⟨∅, ∅, ∅⟩

def size (lex : Lexicon α) : Nat := lex.costs.size

def word? (lex : Lexicon α) (word : Text) : Option Nat := lex.words.get? (Text.composed word)

def cost? (lex : Lexicon α) (word : Nat) (tag : Label) : Option α := lex.costs.get? ⟨word, tag⟩

def tags (lex : Lexicon α) (word : Nat) : List Label := (lex.tagLists.getD word #[]).toList

def intern (lex : Lexicon α) (word : Text) : Lexicon α × Nat :=
  let word := Text.composed word
  match lex.words.get? word with
  | some w => (lex, w)
  | none =>
    let w := lex.words.size
    ({ lex with words := lex.words.insert word w }, w)

/-- Enters a tag of a word. A pair that is already there keeps the cheaper cost. -/
def enter [Cost α] (lex : Lexicon α) (t : Tagging) (cost : α) : Lexicon α :=
  match lex.costs.get? t with
  | some old =>
    if Cost.lt cost old then { lex with costs := lex.costs.insert t cost } else lex
  | none =>
    { lex with
      costs := lex.costs.insert t cost
      tagLists := lex.tagLists.insert t.word ((lex.tagLists.getD t.word #[]).push t.tag) }

/-- Enters a word with a tag, which becomes a pre-terminal of the grammar. -/
def add [Cost α] (lex : Lexicon α) (g : Grammar α) (word : Text) (tag : String) (cost : α) :
    Lexicon α × Grammar α × Except GrammarError Unit :=
  if !Cost.isAdmitted cost then
    (lex, g, .error (.badCost ("lexical entry " ++ word.toString ++ "/" ++ tag)))
  else
    match g.addPreterminal tag with
    | (g, .error e) => (lex, g, .error e)
    | (g, .ok tag) =>
      let (lex, w) := lex.intern word
      (lex.enter ⟨w, tag⟩ cost, g, .ok ())

end Lexicon

end Discontinuous
