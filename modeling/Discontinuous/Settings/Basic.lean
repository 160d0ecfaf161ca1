import Discontinuous.Estimate.Build
import Discontinuous.Parser.Basic
import Discontinuous.Settings.Fields
import Discontinuous.Text.Blank

/-!
Settings for parsing with a grammar: which estimates guide the search, and its limits.
-/
namespace Discontinuous

/-- Reads the name of a kind of estimates in any case, with blanks around it. -/
def EstimateKind.read? (name : Text) : Option EstimateKind :=
  ofName? (Text.trim (name.map fun
    | .char c => .char (Text.lower c)
    | g => g)).toString

structure Settings where
  estimates : EstimateKind
  maxlen : Int
  maxpops : Int
  debinarize : Bool

inductive SettingsError where
  | unreadable
  /-- Something is merged into a mapping with a sequence or a mapping for a name. -/
  | compoundName
  | unknownKind (name : Text)
  | negativeLimits (maxlen maxpops : Int)

def SettingsError.message : SettingsError → String
  | unreadable => "cannot read parser configuration"
  | compoundName => "cannot merge into a mapping with a compound name"
  | unknownKind name => (EstimateError.unknownKind name).message
  | negativeLimits maxlen maxpops =>
    "negative limits in configuration: maxlen=" ++ toString maxlen ++ ", maxpops=" ++
      toString maxpops

namespace RawSettings

def defaultMaxlen : Int := 25

def normalize (raw : RawSettings) : Except SettingsError Settings :=
  let estimates :=
    if raw.estimates.isEmpty then Text.ofString EstimateKind.length.name else raw.estimates
  match EstimateKind.read? estimates with
  | none => .error (.unknownKind estimates)
  | some kind =>
    let maxlen := if raw.maxlen = 0 then defaultMaxlen else raw.maxlen
    if maxlen < 0 ∨ raw.maxpops < 0 then .error (.negativeLimits maxlen raw.maxpops)
    else .ok ⟨kind, maxlen, raw.maxpops, raw.debinarize⟩

end RawSettings

namespace Settings

def default : Settings := ⟨.length, RawSettings.defaultMaxlen, 0, false⟩

/-- The same settings, as they would be given. -/
def raw (s : Settings) : RawSettings :=
  ⟨Text.ofString s.estimates.name, s.maxlen, s.maxpops, s.debinarize⟩

def options (s : Settings) : Options := ⟨s.maxpops, s.debinarize⟩

def read (text : String) : Except SettingsError Settings :=
  match RawSettings.ofString text with
  | .error .unreadable => .error .unreadable
  | .error .compoundName => .error .compoundName
  | .ok raw => raw.normalize

end Settings

inductive SetupError where
  | settings (e : SettingsError)
  | estimate (e : EstimateError)

def SetupError.message : SetupError → String
  | settings e => e.message
  | estimate e => e.message

def RawSettings.setup {α : Type} [Cost α] (raw : RawSettings) (g : Grammar α) :
    List (Event α) × Except SetupError (Estimates α) :=
  match raw.normalize with
  | .error e => ([], .error (.settings e))
  | .ok settings =>
    let first := .setUp g.clauses.size g.summary
    match Estimates.build g settings.estimates settings.maxlen with
    | .error e => ([first], .error (.estimate e))
    | .ok (estimates, events) => (first :: events, .ok estimates)

end Discontinuous
