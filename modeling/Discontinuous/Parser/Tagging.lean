import Discontinuous.Parser.Basic
import Discontinuous.Text.Quoted

/-!
Tagging: from words to tokens.
-/
namespace Discontinuous

/-- Why words cannot be tagged. -/
inductive TagError where
  | lengths (words tags : Nat)
  | unknownTag (tag : String)
  | unknownWord (word : Text)
  | noTag (word : Text)

def TagError.message : TagError → String
  | lengths words tags => toString words ++ " words but " ++ toString tags ++ " tags"
  | unknownTag tag => "tag " ++ Text.quotedString tag ++ ": unknown word or tag"
  | unknownWord word => "word " ++ Text.quoted word ++ ": unknown word or tag"
  | noTag word => "word " ++ Text.quoted word ++ " without tags: unknown word or tag"

variable {α : Type} [Composer] [Cost α]

/-- The tags of a word with their costs. -/
def Lexicon.priced (lex : Lexicon α) (w : Nat) : List (Label × α) :=
  (lex.tags w).map fun tag => (tag, (lex.cost? w tag).getD Cost.zero)

namespace Token

/-- The first of the cheapest among tags with their costs. An infinite cost does not count. -/
def cheapest (tags : List (Label × α)) : Option Label :=
  (tags.foldl (fun (best : Option Label × α) (tag, cost) =>
    if Cost.lt cost best.2 then (some tag, cost) else best) (none, Cost.infinity)).1

def ofWord (lex : Option (Lexicon α)) (word : Text) : Except TagError Token :=
  match lex.bind fun lex => (lex.word? word).map (lex, ·) with
  | none => .error (.unknownWord word)
  | some (lex, w) =>
    match cheapest (lex.priced w) with
    | none => .error (.noTag word)
    | some tag => .ok ⟨some w, tag⟩

/-- A word with a given tag, which has to be a pre-terminal. The word need not be known. -/
def ofTagged (g : Grammar α) (lex : Option (Lexicon α)) (word : Text) (tag : String) :
    Except TagError Token :=
  match g.dict.lookup? tag with
  | none => .error (.unknownTag tag)
  | some t =>
    if g.isPreterminal t then
      .ok ⟨lex.bind fun lex => lex.word? word, t⟩
    else .error (.unknownTag tag)

/-- The tokens of a sentence. Without tags, every word gets its cheapest one. -/
def ofWords (g : Grammar α) (lex : Option (Lexicon α)) (words : List Text)
    (tags : Option (List String)) : Except TagError (List Token) :=
  match tags with
  | none => words.mapM (ofWord lex)
  | some tags =>
    if tags.length ≠ words.length then .error (.lengths words.length tags.length)
    else (words.zip tags).mapM fun (word, tag) => ofTagged g lex word tag

/-- The tokens of a sentence whose words are all characters. -/
def ofSentence (g : Grammar α) (lex : Option (Lexicon α)) (words : List String)
    (tags : Option (List String)) : Except TagError (List Token) :=
  ofWords g lex (words.map Text.ofString) tags

end Token

end Discontinuous
