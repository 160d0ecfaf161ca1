import Discontinuous.Yaml.Source

/-!
Comments. They reach to the end of their line, and a comment takes along those below it.
-/
namespace Discontinuous.Yaml.Scan

def commentReach : Nat := 512

/-- Where the next comment starts, from `k` places ahead on, if nothing but blanks and, where
`across` says so, line ends of one byte are before it. -/
def findComment (across : Bool) (k : Nat) : Nat → Scan (Option Nat)
  | 0 => pure none
  | fuel + 1 => do
    need (k + 1)
    let c ← look k
    if c == '#' then return some k
    if isGap c || (across && isShortBreak c) then findComment across (k + 1) fuel
    else
      if across && isBreak c && fuel != 0 then need (k + 2)
      return none

def passTo (place : Nat) : Nat → Scan Unit
  | 0 => pure ()
  | fuel + 1 => do
    if (← get).pos < place then
      need 1
      if isBreak (← look 0) then
        need 2
        skipBreak
      else skip
      passTo place fuel

def passComment (k : Nat) : Scan Unit := do
  passTo ((← get).pos + k) (k + 1)
  passLine

/-- Passes the comments below a comment, from the end of its line on. -/
def passFollowing : Nat → Scan Unit
  | 0 => pure ()
  | fuel + 1 => do
    if isBreak (← look 0) && !isShortBreak (← look 0) then need 2
    else match ← findComment true 1 (commentReach - 1) with
    | none => pure ()
    | some k =>
      passComment k
      passFollowing fuel

def passComments : Scan Unit := do
  passLine
  passFollowing (← rest)

def passTrailing : Scan Unit := do
  if !(← get).fresh then
    match ← findComment false 0 commentReach with
    | none => pure ()
    | some k => passComment k

end Discontinuous.Yaml.Scan
