import Discontinuous.Label
import Discontinuous.Text.Composer

/-!
Dictionaries: the names of labels. Names are compared in composed form, and a label is the place
of its name.
-/
namespace Discontinuous

structure Dictionary where
  names : Array String
  labels : Map String Label

namespace Dictionary

variable [Composer]

def empty : Dictionary := ⟨#[], ∅⟩

def size (d : Dictionary) : Nat := d.names.size

def lookup? (d : Dictionary) (name : String) : Option Label :=
  d.labels.get? (Text.composedString name)

/-- The label of a name, which is new if the name is. -/
def intern (d : Dictionary) (name : String) : Dictionary × Label :=
  let name := Text.composedString name
  match d.labels.get? name with
  | some l => (d, l)
  | none =>
    let l : Label := ⟨d.size⟩
    ({ names := d.names.push name, labels := d.labels.insert name l }, l)

def name? (d : Dictionary) (l : Label) : Option String :=
  if 0 ≤ l.id then d.names[l.id.toNat]? else none

/-- The name of a label; its number in angle brackets if it has none. -/
def name (d : Dictionary) (l : Label) : String :=
  (d.name? l).getD ("<" ++ toString l.id ++ ">")

/-- Labels that binarization has introduced. Their names start with an at sign. -/
def isArtificial (d : Dictionary) (l : Label) : Bool := (d.name l).toList.head? == some '@'

end Dictionary

end Discontinuous
