/-!
Tokens: marks of structure, and the words between them.
-/
namespace Discontinuous.Yaml

inductive Collection where
  | sequence
  | mapping
deriving DecidableEq

/-- How the text of a scalar is written. Only unquoted text can stand for a number or the like. -/
inductive Style where
  | plain
  | quoted
deriving DecidableEq

structure TagName where
  handle : List Char
  suffix : List Char
deriving DecidableEq

inductive Token where
  | streamStart
  | streamEnd
  | version (major minor : Nat)
  | handle (name stem : List Char)
  | documentStart
  | documentEnd
  | blockStart (kind : Collection)
  | blockEnd
  | flowStart (kind : Collection)
  | flowEnd (kind : Collection)
  | item
  | comma
  | key
  | value
  | anchor (name : List Char)
  | reference (name : List Char)
  | tag (name : TagName)
  | scalar (text : List Char) (style : Style)
deriving DecidableEq

end Discontinuous.Yaml
