import Discontinuous.Yaml.Token

/-!
Nodes: what a document is made of. Nodes with an anchor are kept in a table, and references point
into it, so that a node may even contain a reference to itself.
-/
namespace Discontinuous.Yaml

inductive Tag where
  | implicit
  | text
  | bool
  | int
  | float
  | null
  | moment
  | binary
  | merge
  | foreign
deriving DecidableEq

namespace Tag

/-- The names of tags of the language itself start with this. -/
def stem : List Char := "tag:yaml.org,2002:".toList

def shorten (name : List Char) : List Char :=
  if stem.isPrefixOf name then '!' :: '!' :: name.drop stem.length else name

def ofName (name : List Char) : Tag :=
  match String.ofList (shorten name) with
  | "!!str" => text
  | "!!bool" => bool
  | "!!int" => int
  | "!!float" => float
  | "!!null" => null
  | "!!timestamp" => moment
  | "!!binary" => binary
  | "!!merge" => merge
  | _ => foreign

end Tag

structure Scalar where
  text : List Char
  tag : Tag
deriving DecidableEq

namespace Scalar

/-- The name of the entry whose mappings are merged into the one around it. -/
def mergeName : List Char := ['<', '<']

/-- A scalar as it is written. A tag that is a mark alone says nothing. -/
def ofToken (text : List Char) (style : Style) (name : Option (List Char)) : Scalar :=
  let tag := match name.filter (· != ['!']) with
    | some name => .ofName name
    | none =>
      match style with
      | .quoted => .text
      | .plain => if text == mergeName then .merge else .implicit
  ⟨text, tag⟩

def empty : Scalar := ⟨[], .implicit⟩

def isMerge (s : Scalar) : Bool := s.tag == .merge && s.text == mergeName

end Scalar

inductive Node where
  | scalar (s : Scalar)
  | sequence (items : List Node)
  | mapping (entries : List (Node × Node))
  /-- A reference by name. Every reference has a number of its own. -/
  | reference (name : List Char) (number target : Nat)

namespace Node

def empty : Node := .scalar .empty

def isMapping : Node → Bool
  | mapping _ => true
  | _ => false

def isMerge : Node → Bool
  | scalar s => s.isMerge
  | _ => false

/-- Whether two nodes are the same as names of entries. All sequences are, and all mappings. -/
def sameName : Node → Node → Bool
  | scalar s, scalar t => s.text == t.text
  | sequence _, sequence _ => true
  | mapping _, mapping _ => true
  | reference a _ _, reference b _ _ => a == b
  | _, _ => false

def hasRepeated : List (Node × Node) → Bool
  | [] => false
  | (k, _) :: rest => rest.any (fun (other, _) => k.sameName other) || hasRepeated rest

end Node

/-- A document, and its nodes with anchors. -/
structure Document where
  root : Node
  anchored : Array Node

def Document.target? (d : Document) (place : Nat) : Option Node := d.anchored[place]?

end Discontinuous.Yaml
