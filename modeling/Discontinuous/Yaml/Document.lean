import Discontinuous.Yaml.Node
import Discontinuous.Yaml.Stream

/-!
Documents from tokens. Only the first document of a stream is read, with the tokens that have to
wait behind it.
-/
namespace Discontinuous.Yaml

/-- Tokens in the course of reading, and what the nodes before have declared. -/
structure Builder where
  stream : Stream
  handles : List (List Char × List Char)
  /-- Names of anchors with the place of their node, the latest first. -/
  anchors : List (List Char × Nat)
  anchored : Array Node
  references : Nat

/-- Steps in the construction of a document, which may be refused. -/
abbrev Build := StateT Builder Option

namespace Build

def refuse {α : Type} : Build α := fun _ => none

def read {α : Type} (act : Reading α) : Build α := fun b =>
  match act b.stream with
  | none => none
  | some (a, stream) => some (a, { b with stream })

def peek : Build Token := read .peek

def skip : Build Unit := read .skip

/-! What stands before a node. -/

/-- The name of an anchor, if there is one. -/
def anchor? : Build (Option (List Char)) := do
  match ← peek with
  | .anchor name =>
    skip
    return some name
  | _ => return none

/-- The name of a tag, if there is one. -/
def tag? : Build (Option TagName) := do
  match ← peek with
  | .tag name =>
    skip
    return some name
  | _ => return none

/-- An anchor and a tag in any order. -/
def properties : Build (Option (List Char) × Option TagName) := do
  match ← anchor? with
  | some name => return (some name, ← tag?)
  | none =>
    match ← tag? with
    | none => return (none, none)
    | some tag => return (← anchor?, some tag)

def expand (tag : TagName) : Build (List Char) := do
  if tag.handle.isEmpty then return tag.suffix
  else match (← get).handles.lookup tag.handle with
  | none => refuse
  | some stem => return stem ++ tag.suffix

def reserve (name : Option (List Char)) : Build (Option Nat) := fun b =>
  match name with
  | none => some (none, b)
  | some name =>
    let place := b.anchored.size
    some (some place,
      { b with anchors := (name, place) :: b.anchors, anchored := b.anchored.push .empty })

def keep (place : Option Nat) (n : Node) : Build Node := fun b =>
  match place with
  | none => some (n, b)
  | some place => some (n, { b with anchored := b.anchored.setIfInBounds place n })

def reference (name : List Char) : Build Node := fun b =>
  match b.anchors.lookup name with
  | none => none
  | some target =>
    some (.reference name b.references target, { b with references := b.references + 1 })

/-! Nodes. Every token that is taken lowers the fuel, whose start exceeds their number. -/

mutual

/-- A node. Blocks are read where `block` says so, and a sequence on the column of the mapping
around it where `flush` says so. -/
def node (block flush : Bool) : Nat → Build Node
  | 0 => refuse
  | fuel + 1 => do
    match ← peek with
    | .reference name =>
      skip
      reference name
    | _ =>
      let (name, tag) ← properties
      let tag ← tag.mapM expand
      let bare := name.isNone && tag.isNone
      let place ← reserve name
      match ← peek with
      | .scalar text style =>
        skip
        keep place (.scalar (.ofToken text style tag))
      | .item =>
        if flush then
          let items ← flushSequence fuel
          keep place (.sequence items)
        else if bare then refuse
        else keep place (.scalar (.ofToken [] .plain tag))
      | .flowStart .sequence =>
        skip
        let items ← flowSequence true fuel
        keep place (.sequence items)
      | .flowStart .mapping =>
        skip
        let entries ← flowMapping true fuel
        keep place (.mapping entries)
      | .blockStart kind =>
        if block then
          skip
          match kind with
          | .sequence =>
            let items ← blockSequence fuel
            keep place (.sequence items)
          | .mapping =>
            let entries ← blockMapping fuel
            keep place (.mapping entries)
        else if bare then refuse
        else keep place (.scalar (.ofToken [] .plain tag))
      | _ => if bare then refuse else keep place (.scalar (.ofToken [] .plain tag))

/-- A node, or an empty one if a token follows that ends it. -/
def nodeUnless (ends : List Token) (block flush : Bool) : Nat → Build Node
  | 0 => refuse
  | fuel + 1 => do
    if ends.contains (← peek) then return .empty else node block flush fuel

def flushSequence : Nat → Build (List Node)
  | 0 => refuse
  | fuel + 1 => do
    match ← peek with
    | .item =>
      skip
      let n ← nodeUnless [.item, .key, .value, .blockEnd] true false fuel
      return n :: (← flushSequence fuel)
    | _ => return []

def blockSequence : Nat → Build (List Node)
  | 0 => refuse
  | fuel + 1 => do
    match ← peek with
    | .item =>
      skip
      let n ← nodeUnless [.item, .blockEnd] true false fuel
      return n :: (← blockSequence fuel)
    | .blockEnd =>
      skip
      return []
    | _ => refuse

def blockMapping : Nat → Build (List (Node × Node))
  | 0 => refuse
  | fuel + 1 => do
    match ← peek with
    | .key =>
      skip
      let k ← nodeUnless [.key, .value, .blockEnd] true true fuel
      let v ← entryValue [.key, .value, .blockEnd] true fuel
      return (k, v) :: (← blockMapping fuel)
    | .blockEnd =>
      skip
      return []
    | _ => refuse

/-- The value of an entry, empty if there is no colon. -/
def entryValue (ends : List Token) (block : Bool) : Nat → Build Node
  | 0 => refuse
  | fuel + 1 => do
    match ← peek with
    | .value =>
      skip
      nodeUnless ends block block fuel
    | _ => return .empty

/-- The items up to the closing bracket. A comma may stand before it. -/
def flowSequence (first : Bool) : Nat → Build (List Node)
  | 0 => refuse
  | fuel + 1 => do
    if (← peek) == .flowEnd .sequence then
      skip
      return []
    else
      if !first then comma
      match ← peek with
      | .flowEnd .sequence =>
        skip
        return []
      | .key =>
        skip
        let entry ← singleEntry fuel
        return .mapping [entry] :: (← flowSequence false fuel)
      | _ =>
        let n ← node false false fuel
        return n :: (← flowSequence false fuel)

/-- A mapping of one entry inside a sequence. A token in place of the name is passed. -/
def singleEntry : Nat → Build (Node × Node)
  | 0 => refuse
  | fuel + 1 => do
    let ends := [.comma, .flowEnd .sequence]
    let missing := (.value :: ends).contains (← peek)
    if missing then skip
    let k ← if missing then pure .empty else node false false fuel
    return (k, ← entryValue ends false fuel)

/-- The entries up to the closing brace. A comma may stand before it. -/
def flowMapping (first : Bool) : Nat → Build (List (Node × Node))
  | 0 => refuse
  | fuel + 1 => do
    if (← peek) == .flowEnd .mapping then
      skip
      return []
    else
      if !first then comma
      match ← peek with
      | .flowEnd .mapping =>
        skip
        return []
      | .key =>
        skip
        let ends := [.comma, .flowEnd .mapping]
        let k ← nodeUnless (.value :: ends) false false fuel
        let v ← entryValue ends false fuel
        return (k, v) :: (← flowMapping false fuel)
      | _ =>
        let k ← node false false fuel
        return (k, .empty) :: (← flowMapping false fuel)

/-- A comma, which has to be there. -/
def comma : Build Unit := do
  if (← peek) == .comma then skip else refuse

end

/-! Documents. -/

def defaultHandles : List (List Char × List Char) := [(['!'], ['!']), (['!', '!'], Tag.stem)]

/-- Takes directives. A version is given at most once and a handle too. -/
def directives (version : Bool) : Nat → Build Unit
  | 0 => refuse
  | fuel + 1 => do
    match ← peek with
    | .version major minor =>
      if version || major != 1 || minor != 1 then refuse
      skip
      directives true fuel
    | .handle name stem =>
      if ((← get).handles.lookup name).isSome then refuse
      modify fun b => { b with handles := b.handles ++ [(name, stem)] }
      skip
      directives version fuel
    | _ => modify fun b => { b with handles := b.handles ++ defaultHandles }

def isDirective : Token → Bool
  | .version _ _ => true
  | .handle _ _ => true
  | _ => false

/-- The first document, or none if the stream is empty. -/
def document (fuel : Nat) : Build (Option Node) := do
  let _ ← peek
  skip
  let first ← peek
  if first == .streamEnd then return none
  else
    directives false fuel
    let n ← if isDirective first || first == .documentStart then do
        if (← peek) != .documentStart then refuse
        skip
        let t ← peek
        if isDirective t || [.documentStart, .documentEnd, .streamEnd].contains t then
          pure Node.empty
        else node true false fuel
      else node true false fuel
    let _ ← peek
    return some n

end Build

namespace Document

/-- Reads the first document of a stream. The outer result is missing if it cannot be read, and the
inner one if there is none. -/
def ofString? (s : String) : Option (Option Document) :=
  let stream := Stream.ofString s
  match Build.document (8 * stream.cursor.source.size + 64) ⟨stream, [], [], #[], 0⟩ with
  | none => none
  | some (root, b) => some (root.map fun root => ⟨root, b.anchored⟩)

end Document

end Discontinuous.Yaml
