import Discontinuous.Decimal.Magnitude
import Discontinuous.Text.Glyph
import Discontinuous.Word
import Discontinuous.Yaml.Document
import Discontinuous.Yaml.Value

/-!
Settings as a document gives them: a mapping with one entry for each of them. Other mappings may be
merged into it, and give what it leaves out.
-/
namespace Discontinuous

/-- Settings as they are given. Empty and zero values stand for defaults. -/
structure RawSettings where
  estimates : Text
  maxlen : Int
  maxpops : Int
  debinarize : Bool

def RawSettings.empty : RawSettings := ⟨[], 0, 0, false⟩

namespace RawSettings

open Yaml

/-! Values of fields. -/

/-- The least word. -/
def leastWord : Int := -(Word.bound : Int)

/-- The integer nearest to a float towards zero. What a word cannot hold becomes the least word, and
what is beyond the largest is refused. -/
def truncate? (x : Float) : Option Int :=
  match Decimal.classify x with
  | .nan => none
  | .infinite negative => if negative then some leastWord else none
  | .finite negative v =>
    let size : Nat :=
      if 0 ≤ v.exponent then v.mantissa <<< v.exponent.toNat
      else v.mantissa >>> (-v.exponent).toNat
    if negative then some (if size ≤ Word.bound then -(size : Int) else leastWord)
    else if size < Word.bound then some size
    else if size = Word.bound then some leastWord
    else none

def limit? : Value → Option Int
  | .int n => if n < (Word.bound : Int) then some n else none
  | .float x => truncate? x
  | _ => none

def yeses : List String := ["y", "Y", "yes", "Yes", "YES", "on", "On", "ON"]

def noes : List String := ["n", "N", "no", "No", "NO", "off", "Off", "OFF"]

/-- A truth value, also as a word in any kind of quotes. -/
def switch? : Value → Option Bool
  | .bool b => some b
  | .text t =>
    if (yeses.map Text.ofString).contains t then some true
    else if (noes.map Text.ofString).contains t then some false
    else none
  | _ => none

/-- The text of a scalar, given its value. -/
def textOf (s : Scalar) : Value → Text
  | .text t => t
  | _ => s.text.map .char

def enter? (raw : RawSettings) (name : Text) (s : Scalar) (v : Value) : Option RawSettings :=
  match name.toString with
  | "estimates" => some { raw with estimates := textOf s v }
  | "maxlen" => (limit? v).map fun maxlen => { raw with maxlen }
  | "maxpops" => (limit? v).map fun maxpops => { raw with maxpops }
  | "debinarize" => (switch? v).map fun debinarize => { raw with debinarize }
  | _ => none

def names : List Text := ["estimates", "maxlen", "maxpops", "debinarize"].map Text.ofString

/-! Entries of mappings. -/

/-- Why entering stops at once. -/
inductive Refusal where
  | unreadable
  /-- Something is merged into a mapping with a sequence or a mapping for a name. -/
  | compoundName

/-- Settings in the course of entering. A fault does not stop it, but spoils the result. -/
structure Entry where
  raw : RawSettings
  faulty : Bool
  /-- The number of nodes visited, and of those among them that were visited by reference. -/
  visits : Nat
  copies : Nat
  following : List Nat

abbrev Entering := StateT Entry (Except Refusal)

def fault : Entering Unit := modify fun e => { e with faulty := true }

def freeVisits : Nat := 400000

def scarceVisits : Nat := 3600000

/-- The share of copies among a number of visits that is allowed: 99 of 100 first, then less and
less, down to 10. It is given in fractions of `100 * scarceVisits`. -/
def allowedShare (visits : Nat) : Nat :=
  if visits ≤ freeVisits then 99 * scarceVisits
  else if freeVisits + scarceVisits ≤ visits then 10 * scarceVisits
  else 99 * scarceVisits - 89 * (visits - freeVisits)

def Entry.isExcessive (e : Entry) : Bool :=
  100 < e.copies && 1000 < e.visits &&
    allowedShare e.visits * e.visits < e.copies * (100 * scarceVisits)

def visit : Entering Unit := do
  modify fun e =>
    { e with
      visits := e.visits + 1
      copies := if e.following.isEmpty then e.copies else e.copies + 1 }
  if (← get).isExcessive then throw .unreadable

/-- Visits a node, and the one that it points to if it is a reference. No reference is followed
inside of itself. -/
def follow {α : Type} (d : Document) (n : Node) (act : Node → Entering α) : Entering α := do
  visit
  match n with
  | .reference _ number target =>
    if (← get).following.contains number then throw .unreadable
    modify fun e => { e with following := number :: e.following }
    visit
    match d.target? target with
    | none => throw .unreadable
    | some n =>
      let result ← act n
      modify fun e => { e with following := e.following.drop 1 }
      return result
  | n => act n

def valueOf (s : Scalar) : Entering Value :=
  match s.value? with
  | none => throw .unreadable
  | some v => pure v

/-- The name of an entry, unless it is null. -/
def name? (d : Document) (n : Node) : Entering (Option Text) :=
  follow d n fun
    | .scalar s => do
      match ← valueOf s with
      | .null => return none
      | v => return some (textOf s v)
    | _ => do
      fault
      return none

/-- Enters the value of an entry. Null leaves a field as it is. -/
def enterValue (d : Document) (name : Text) (n : Node) : Entering Unit :=
  follow d n fun
    | .scalar s => do
      match ← valueOf s with
      | .null => pure ()
      | v =>
        match (← get).raw.enter? name s v with
        | none => fault
        | some raw => modify fun e => { e with raw }
    | _ => fault

/-- The names that have been entered: those of the mapping itself, and those of all mappings of a
merge, if there is one. -/
structure Seen where
  own : List Text
  merged : Option (List Text)

/-- Enters an entry, unless its name has been entered by a mapping that goes before. -/
def enterEntry (d : Document) (seen : Seen) (k v : Node) : Entering Seen := do
  if k.isMerge then return seen
  else match ← name? d k with
  | none => return seen
  | some name =>
    if seen.merged.any fun merged => merged.contains name then return seen
    else
      let seen := { seen with merged := seen.merged.map (name :: ·) }
      if !names.contains name || seen.own.contains name then
        fault
        return seen
      else
        enterValue d name v
        return { seen with own := name :: seen.own }

/-! Merging. -/

/-- Visits all parts of a node, and tells whether it has a value. -/
def isSound (d : Document) : Nat → Node → Entering Bool
  | 0, _ => throw .unreadable
  | fuel + 1, n => follow d n fun
    | .scalar s => do
      let _ ← valueOf s
      return true
    | .sequence items => do
      for item in items do
        let _ ← isSound d fuel item
      return true
    | .mapping entries => do
      if Node.hasRepeated entries then
        fault
        return false
      else
        for (k, v) in entries do
          if !k.isMerge then
            match k with
            | .sequence _ | .mapping _ => throw .unreadable
            | _ =>
              if ← isSound d fuel k then
                let _ ← isSound d fuel v
          else
            let _ ← isSound d fuel v
        return true
    | .reference _ _ _ => throw .unreadable

/-- The name of an entry as text. Only a scalar can be looked up among other names. -/
def ownName? (d : Document) (fuel : Nat) (n : Node) : Entering (Option Text) :=
  follow d n fun
    | .scalar s => do
      match ← valueOf s with
      | .text t => return some t
      | _ => return none
    | n => do
      if ← isSound d fuel n then throw .compoundName
      return none

/-- What a node stands for, if it is a reference. -/
def resolve? (d : Document) : Node → Option Node
  | .reference _ _ target => d.target? target
  | n => some n

/-- The mappings that an entry merges: one, or those of a sequence. -/
def sources : Node → List Node
  | .sequence items => items
  | n => [n]

mutual

/-- Enters the entries of a mapping, and then those of mappings merged into it. -/
def enterMapping (d : Document) (entries : List (Node × Node)) (merged : Option (List Text)) :
    Nat → Entering (Option (List Text))
  | 0 => throw .unreadable
  | fuel + 1 => do
    if Node.hasRepeated entries then
      fault
      return merged
    else
      let seen ← entries.foldlM (fun seen (k, v) => enterEntry d seen k v) ⟨[], merged⟩
      match entries.find? fun (k, _) => k.isMerge with
      | none => return seen.merged
      | some (_, v) =>
        let taken ← match seen.merged with
          | some taken => pure taken
          | none => entries.foldlM (fun taken (k, _) => do
              let name ← ownName? d fuel k
              return name.toList ++ taken) []
        let taken ← merge d (sources v) taken fuel
        return seen.merged.map fun _ => taken

/-- Enters mappings that are merged, given the names that are taken. -/
def merge (d : Document) (nodes : List Node) (taken : List Text) : Nat → Entering (List Text)
  | 0 => throw .unreadable
  | fuel + 1 => do
    match nodes with
    | [] => return taken
    | n :: rest =>
      if !(resolve? d n).any Node.isMapping then throw .unreadable
      let merged ← follow d n fun
        | .mapping entries => enterMapping d entries (some taken) fuel
        | _ => throw .unreadable
      merge d rest (merged.getD taken) fuel

end

/-- Enters a document, which is a mapping or null. -/
def enterDocument (d : Document) (fuel : Nat) : Entering Unit := do
  visit
  follow d d.root fun
    | .scalar s => do
      match ← valueOf s with
      | .null => pure ()
      | _ => fault
    | .mapping entries => do
      let _ ← enterMapping d entries none fuel
    | _ => fault

/-- The settings that a document gives. The fuel exceeds the number of mappings inside one another,
references followed. -/
def ofDocument (d : Document) (fuel : Nat) : Except Refusal RawSettings :=
  match enterDocument d fuel ⟨empty, false, 0, 0, []⟩ with
  | .error e => .error e
  | .ok (_, e) => if e.faulty then .error .unreadable else .ok e.raw

/-- The settings that a text gives. An empty one gives none. -/
def ofString (text : String) : Except Refusal RawSettings :=
  let bound := text.length + 2
  match Document.ofString? text with
  | none => .error .unreadable
  | some none => .ok empty
  | some (some d) => ofDocument d (bound * bound)

end RawSettings

end Discontinuous
