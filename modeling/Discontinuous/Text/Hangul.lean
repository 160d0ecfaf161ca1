/-!
Hangul: syllables are numbered by leading consonant, vowel and trailing consonant, and are taken
apart and put together by arithmetic.
-/
namespace Discontinuous.Text.Hangul

def base : Nat := 0xAC00
def leadBase : Nat := 0x1100
def vowelBase : Nat := 0x1161
def trailBase : Nat := 0x11A7
def leadCount : Nat := 19
def vowelCount : Nat := 21
def trailCount : Nat := 28
def syllableCount : Nat := leadCount * vowelCount * trailCount

def isSyllable (n : Nat) : Bool := base ≤ n && n < base + syllableCount

def isOpen (n : Nat) : Bool := (n - base) % trailCount == 0

def isLead (n : Nat) : Bool := leadBase ≤ n && n < leadBase + leadCount

def isVowel (n : Nat) : Bool := vowelBase ≤ n && n < vowelBase + vowelCount

/-- Trailing consonants, and the place before the first one, which stands for none. -/
def isTrail (n : Nat) : Bool := trailBase ≤ n && n < trailBase + trailCount

/-- The letters of syllables, and letters that are no longer in use. -/
def isLetter (n : Nat) : Bool := n / 0x100 == 0x11

def parts (n : Nat) : List Nat :=
  let k := n - base
  let front := [leadBase + k / (vowelCount * trailCount), vowelBase + k / trailCount % vowelCount]
  if isOpen n then front else front ++ [trailBase + k % trailCount]

/-- The syllable of a leading consonant and a vowel, or of an open syllable and a trailing
consonant. -/
def syllable? (a b : Nat) : Option Nat :=
  if isLead a && isVowel b then
    some (base + ((a - leadBase) * vowelCount + (b - vowelBase)) * trailCount)
  else if isSyllable a && isOpen a && isTrail b && b != trailBase then some (a + (b - trailBase))
  else none

end Discontinuous.Text.Hangul
