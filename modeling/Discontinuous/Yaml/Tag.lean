import Discontinuous.Text.Quoted
import Discontinuous.Yaml.Source
import Discontinuous.Yaml.Token

/-!
Names of nodes and of their kinds: anchors, tags, and the directives that declare handles of tags.
-/
namespace Discontinuous.Yaml.Scan

def endsName (c : Char) : Bool :=
  isSpace c || ['?', ':', ',', ']', '%', '@', Char.ofNat 0x7D, Char.ofNat 0x60].contains c

def anchorName : Scan (List Char) := do
  skip
  let name ← takeWhile isWordChar
  if name.isEmpty || !endsName (← look 0) then refuse else return name

/-! Tags. -/

/-- Characters of a resource name, besides letters and digits. -/
def isUriMark (c : Char) : Bool :=
  [';', '/', '?', ':', '@', '&', '=', '+', '$', ',', '.', '%', '!', '~', '*', '(', ')', '[',
    ']'].contains c || c == Char.ofNat 0x27

def octet : Scan Nat := do
  need 3
  if (← look 0) == '%' then
    match Text.hexValue? (← look 1), Text.hexValue? (← look 2) with
    | some hi, some lo =>
      skip
      skip
      skip
      return 16 * hi + lo
    | _, _ => refuse
  else refuse

/-- The number of octets of a character, told by the first one. -/
def octetWidth? (n : Nat) : Option Nat :=
  if n < 0x80 then some 1
  else if n < 0xC0 then none
  else if n < 0xE0 then some 2
  else if n < 0xF0 then some 3
  else if n < 0xF8 then some 4
  else none

def furtherOctets (taken : Array Char) : Nat → Scan (Array Char)
  | 0 => pure taken
  | count + 1 => do
    let n ← octet
    if n / 0x40 == 2 then furtherOctets (taken.push (Char.ofNat n)) count else refuse

def escapedOctets (taken : Array Char) : Scan (Array Char) := do
  let n ← octet
  match octetWidth? n with
  | none => refuse
  | some width => furtherOctets (taken.push (Char.ofNat n)) (width - 1)

def uriLoop (taken : Array Char) : Nat → Scan (Array Char)
  | 0 => pure taken
  | fuel + 1 => do
    need 1
    let c ← look 0
    if c == '%' then
      let taken ← escapedOctets taken
      uriLoop taken fuel
    else if isWordChar c || isUriMark c then
      skip
      uriLoop (taken.push c) fuel
    else pure taken

/-- Takes a resource name, whose octets stand for themselves. -/
def uri : Scan (List Char) := do
  let taken ← uriLoop #[] (← rest)
  return taken.toList

def nonemptyUri : Scan (List Char) := do
  let name ← uri
  if name.isEmpty then refuse else return name

/-- Takes a handle, and tells whether it is closed by a second mark. -/
def handle : Scan (List Char × Bool) := do
  need 1
  if (← look 0) == '!' then
    skip
    let name ← takeWhile isWordChar
    if (← look 0) == '!' then
      skip
      return ('!' :: name ++ ['!'], true)
    else return ('!' :: name, false)
  else refuse

/-- A tag without a handle of its own. The mark alone is a tag too. -/
def plainTag (suffix : List Char) : TagName :=
  if suffix.isEmpty then ⟨[], ['!']⟩ else ⟨['!'], suffix⟩

def tag : Scan TagName := do
  need 2
  let name ← if (← look 1) == '<' then do
      skip
      skip
      let name ← nonemptyUri
      if (← look 0) == '>' then
        skip
        pure (⟨[], name⟩ : TagName)
      else refuse
    else do
      let (name, closed) ← handle
      if closed then pure ⟨name, ← nonemptyUri⟩
      else pure (plainTag (name.drop 1 ++ (← uri)))
  need 1
  if isSpace (← look 0) then return name else refuse

/-! Directives. -/

def versionNumber : Scan Nat := do
  let digits ← takeWhile Char.isDigit
  if digits.isEmpty || 2 < digits.length then refuse
  else return digits.foldl (fun n c => 10 * n + (c.toNat - 0x30)) 0

def version : Scan Token := do
  passWhile isGap
  let major ← versionNumber
  if (← look 0) == '.' then
    skip
    return .version major (← versionNumber)
  else refuse

def handleDeclaration : Scan Token := do
  passWhile isGap
  let (name, closed) ← handle
  if !closed && 1 < name.length then refuse
  else
    need 1
    if !isGap (← look 0) then refuse
    else
      passWhile isGap
      let stem ← nonemptyUri
      if isSpace (← look 0) then return .handle name stem else refuse

/-- Takes a directive from its mark on, with the rest of its line. -/
def directive : Scan Token := do
  skip
  let name ← takeWhile isWordChar
  if name.isEmpty || !isSpace (← look 0) then refuse
  else
    let token ← match String.ofList name with
      | "YAML" => version
      | "TAG" => handleDeclaration
      | _ => refuse
    passLineEnd
    return token

end Discontinuous.Yaml.Scan
