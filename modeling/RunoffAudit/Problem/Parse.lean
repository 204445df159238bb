import RunoffAudit.Decimal.Read
import RunoffAudit.Path
import RunoffAudit.Problem.Basic
import RunoffAudit.Problem.Error

/-! # Problems from documents

Only the structure of a document is checked here, field by field in a fixed order; the first error
counts. Whether the numbers fit together is left to `contestFaults`.
-/
namespace RunoffAudit

abbrev Entries := List (Value × Value)

namespace Entries

/-- The value under a key; a missing one counts as null. -/
def get (e : Entries) (key : String) : Value := (Value.find key e).getD .null

end Entries

namespace Problem

def written (v : Value) : Except FormatError Text :=
  if v.isWritable then .ok v.plain else .error .tooManyDigits

def parseInt (field : String) (v : Value) : Except FormatError Int :=
  match v with
  | .int n => .ok n
  | other => .error (.showing other (.notInteger field other))

/-- A truth value, or `default` where the field holds null. -/
def parseBool (field : String) (default : Bool) (v : Value) : Except FormatError Bool :=
  match v with
  | .null => .ok default
  | .bool b => .ok b
  | _ => .error (.notBoolean field)

def parseContinuing (i : Int) : (k : Nat) → List Value → Except FormatError (List Candidate)
  | _, [] => .ok []
  | k, v :: rest => do
    let c ← parseInt (FormatError.assertionField i (".continuing[" ++ toString k ++ "]")) v
    return c :: (← parseContinuing i (k + 1) rest)

/-- The fields of an assertion, which may be wrapped in an entry called `assertion`. -/
def unwrap (e : Entries) : Entries :=
  match e.get "assertion" with
  | .mapping inner => inner
  | _ => e

def parseAssertion (i : Int) (v : Value) : Except FormatError Assertion :=
  match v with
  | .mapping outer => do
    let e := unwrap outer
    let winner ← parseInt (FormatError.assertionField i ".winner") (e.get "winner")
    let loser ← parseInt (FormatError.assertionField i ".loser") (e.get "loser")
    let kind := e.get "type"
    if kind.isText "NEB" then return .neb winner loser
    else if kind.isText "NEN" then
      match e.get "continuing" with
      | .list members => return .nen winner loser (.ofList (← parseContinuing i 0 members))
      | _ => throw (.continuingNotList i)
    else throw (.showing kind (.assertionKind i kind))
  | _ => .error (.assertionNotMapping i)

def parseAssertions : (i : Nat) → List Value → Except FormatError (List Assertion)
  | _, [] => .ok []
  | i, v :: rest => do
    let a ← parseAssertion i v
    return a :: (← parseAssertions (i + 1) rest)

def parseAllAssertions (e : Entries) : Except FormatError (List Assertion) :=
  match (Value.find "assertions" e).getD (.list []) with
  | .list items => parseAssertions 0 items
  | _ => .error .assertionsNotList

def parseSchema (e : Entries) : Except FormatError Unit := do
  let version ← written ((Value.find "schema_version" e).getD (.text schemaVersion))
  if version = schemaVersion then .ok () else .error (.schemaVersion version)

def parseNames (e : Entries) : Except FormatError (List Text) :=
  match e.get "candidates" with
  | .null => .ok []
  | .list names => names.mapM written
  | _ => .error .candidatesNotList

/-- The number of candidates. If none is given, it is that of the names. -/
def givenCount (e : Entries) (names : List Text) : Except FormatError Int :=
  match e.get "num_candidates" with
  | .null => if names = [] then .error .countMissing else .ok names.length
  | v => parseInt "num_candidates" v

/-- The number of candidates, which must agree with their names. -/
def parseCount (e : Entries) (names : List Text) : Except FormatError Int := do
  let n ← givenCount e names
  if names ≠ [] ∧ (names.length : Int) ≠ n then throw (.showing (.int n) (.countMismatch names.length n))
  return n

def parseAlgorithm (e : Entries) : Except FormatError TrimAlgorithm :=
  match Value.find "trim_algorithm" e with
  | none => .ok .minimizeTree
  | some (.text w) => match TrimAlgorithm.named? w with
    | some a => .ok a
    | none => .error .trimAlgorithm
  | some _ => .error .trimAlgorithm

def parseContinuation (e : Entries) : Except FormatError (Option Policy) :=
  match e.get "continuation" with
  | .null => .ok none
  | .text w => match Policy.named? w with
    | some p => .ok (some p)
    | none => .error .continuation
  | _ => .error .continuation

/-- The name, or `defaultName` where the given one says nothing. -/
def parseName (e : Entries) (defaultName : String) : Except FormatError Text :=
  let given := e.get "name"
  if given.isEmpty then .ok defaultName else written given

def parseWorkLimit (v : Value) : Except FormatError (Option Int) :=
  match v with
  | .null => .ok none
  | v => do
    let w ← parseInt "budget.work_limit" v
    if w ≤ 0 then throw .workLimit
    return some w

def parseSecondsLimit (v : Value) : Except ProblemError (Option Float) :=
  match v with
  | .null => .ok none
  | .int n =>
    if n ≤ 0 then .error (.format .secondsLimit)
    else match Decimal.ofInt? n with
      | some s => .ok (some s)
      | none => .error .secondsOverflow
  | .float s => if s ≤ 0 then .error (.format .secondsLimit) else .ok (some s)
  | _ => .error (.format .secondsLimit)

def parseLimits (v : Value) : Except ProblemError Limits :=
  match v with
  | .null => .ok ⟨none, none⟩
  | .mapping e => do
    let work ← (parseWorkLimit (Entries.get e "work_limit")).mapError .format
    return ⟨work, ← parseSecondsLimit (Entries.get e "seconds_limit")⟩
  | _ => .error (.format .budgetNotMapping)

/-- Everything but the limits, which come last. -/
def parseContest (e : Entries) (defaultName : String) : Except FormatError (Limits → Problem) := do
  parseSchema e
  let names ← parseNames e
  let n ← parseCount e names
  let winner ← parseInt "winner" (e.get "winner")
  let assertions ← parseAllAssertions e
  let algorithm ← parseAlgorithm e
  let continuation ← parseContinuation e
  let name ← parseName e defaultName
  let sortAssertions ← parseBool "sort_assertions" true (e.get "sort_assertions")
  let checkWinner ← parseBool "check_winner" false (e.get "check_winner")
  return fun limits =>
    ⟨name, n, winner, assertions, names, algorithm, continuation, sortAssertions, checkWinner, limits⟩

def parse (e : Entries) (defaultName : String) : Except ProblemError Problem := do
  let contest ← (parseContest e defaultName).mapError .format
  return contest (← parseLimits (e.get "budget"))

/-- The name of a problem that gives none and comes from no file. -/
def unnamed : String := "contest"

end Problem
end RunoffAudit
