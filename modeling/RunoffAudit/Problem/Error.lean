import RunoffAudit.Document.Value
import RunoffAudit.Search.Policy
import RunoffAudit.Trim.Algorithm

/-! # Errors in problem files -/
namespace RunoffAudit

inductive FormatError where
  | notDocument (path : String)
  | notMapping (path : String)
  | noTargets (targets : List String)
  | schemaVersion (given : Text)
  | candidatesNotList
  | countMissing
  | countMismatch (names : Nat) (count : Int)
  | notInteger (field : String) (given : Value)
  | notBoolean (field : String)
  | assertionsNotList
  | assertionNotMapping (index : Int)
  | continuingNotList (index : Int)
  | assertionKind (index : Int) (given : Value)
  | trimAlgorithm
  | continuation
  | budgetNotMapping
  | workLimit
  | secondsLimit
  | tooManyDigits

namespace FormatError

def assertionField (i : Int) (field : String) : String := "assertions[" ++ toString i ++ "]" ++ field

def message : FormatError → String
  | notDocument path => "Problem file is not valid YAML/JSON: " ++ path
  | notMapping path => "Problem file must be a mapping: " ++ path
  | noTargets targets => "No problem files matched targets: " ++ ", ".intercalate targets
  | schemaVersion given => "Unsupported problem schema_version '" ++ given.escaped ++ "'. Expected '1'."
  | candidatesNotList => "candidates must be a list of names"
  | countMissing => "num_candidates is required when candidates is not given"
  | countMismatch names count =>
    "candidates lists " ++ toString names ++ " names but num_candidates is " ++ toString count
  | notInteger field given => field ++ " must be an integer, got " ++ given.shown
  | notBoolean field => field ++ " must be a boolean"
  | assertionsNotList => "assertions must be a list"
  | assertionNotMapping i => assertionField i " must be a mapping"
  | continuingNotList i => assertionField i ".continuing must be a list"
  | assertionKind i given => assertionField i ".type must be NEB or NEN, got " ++ given.shown
  | trimAlgorithm => "trim_algorithm must be one of " ++ ", ".intercalate (TrimAlgorithm.known.map (·.word))
  | continuation => "continuation must be one of " ++ ", ".intercalate (Policy.all.map (·.word))
  | budgetNotMapping => "budget must be a mapping"
  | workLimit => "budget.work_limit must be > 0"
  | secondsLimit => "budget.seconds_limit must be a positive number"
  | tooManyDigits => Text.DigitError.tooMany.message

/-- The error whose message shows `v`, if `v` can be written. -/
def showing (v : Value) (e : FormatError) : FormatError := if v.isWritable then e else tooManyDigits

def isReported : FormatError → Bool
  | tooManyDigits => false
  | _ => true

end FormatError

inductive ProblemError where
  | format (cause : FormatError)
  /-- A limit in seconds is an integer beyond the largest double. -/
  | secondsOverflow

def ProblemError.message : ProblemError → String
  | format cause => cause.message
  | secondsOverflow => "int too large to convert to float"

end RunoffAudit
