import RunoffAudit.Assertion
import RunoffAudit.Budget

/-! # Faults

What can be wrong with a contest, with the outcome of its verification, or with a search cut short.
A fault keeps its cause; code, wording and details are computed from it.
-/
namespace RunoffAudit

inductive Fault where
  | candidateCount (given : Value)
  | winnerOutside (winner : Value) (n : Int)
  | candidateOutside (candidate : Value) (n : Int)
  | mentionOutside (index : Nat) (candidate : Value) (n : Int)
  | sameEndpoints (index : Nat) (assertion : Assertion)
  | emptyContinuing (index : Nat)
  /-- Winner or loser of an NEN are not among its continuing candidates. -/
  | missingEndpoints (index : Nat) (missing : List Candidate) (continuing : CandidateSet)
  | budgetExceeded (exhaustion : Exhaustion)
  /-- Some order won by a losing candidate survives all assertions. -/
  | loserNotRuledOut (candidate : Candidate) (counterexample : Suffix)
  | winnerRuledOut (winner : Candidate)

namespace Fault

def code : Fault → String
  | candidateCount _ => "INVALID_CANDIDATE_COUNT"
  | winnerOutside _ _ => "INVALID_CANDIDATE_INDEX"
  | candidateOutside _ _ => "INVALID_CANDIDATE_INDEX"
  | mentionOutside _ _ _ => "INVALID_CANDIDATE_INDEX"
  | sameEndpoints _ _ => "DUPLICATE_ASSERTION_ENDPOINTS"
  | emptyContinuing _ => "EMPTY_CONTINUING_SET"
  | missingEndpoints _ _ _ => "CONTINUING_SET_MISSING_ENDPOINT"
  | budgetExceeded _ => "BUDGET_EXCEEDED"
  | loserNotRuledOut _ _ => "DID_NOT_RULE_OUT_LOSER"
  | winnerRuledOut _ => "RULED_OUT_WINNER"

def range (n : Int) : String := "0.." ++ toString (n - 1)

def message : Fault → String
  | candidateCount given => "num_candidates must be a positive integer, got " ++ given.shown
  | winnerOutside w n => "Declared winner " ++ w.shown ++ " is outside " ++ range n
  | candidateOutside c n => "Candidate " ++ c.shown ++ " is outside " ++ range n
  | mentionOutside i c n =>
    "Assertion " ++ toString i ++ " refers to candidate " ++ c.shown ++ ", outside " ++ range n
  | sameEndpoints i a =>
    "Assertion " ++ toString i ++ " has the same winner and loser: " ++ (a.describe []).escaped
  | emptyContinuing i => "Assertion " ++ toString i ++ " has an empty continuing set"
  | missingEndpoints i missing _ =>
    "Assertion " ++ toString i ++ " continuing set does not contain " ++ (Value.ints missing).shown
  | budgetExceeded e => e.message
  | loserNotRuledOut c _ => "Assertions do not rule out candidate " ++ toString c
  | winnerRuledOut w =>
    "Assertions rule out every elimination order won by the declared winner " ++ toString w

/-- What the message shows of the input. -/
def shown : Fault → List Value
  | candidateCount given => [given]
  | winnerOutside w n => [w, .int (n - 1)]
  | candidateOutside c n => [c, .int (n - 1)]
  | mentionOutside _ c n => [c, .int (n - 1)]
  | sameEndpoints _ a => [.ints a.mentioned]
  | emptyContinuing _ => []
  | missingEndpoints _ missing _ => [.ints missing]
  | budgetExceeded _ => []
  | loserNotRuledOut c _ => [.int c]
  | winnerRuledOut w => [.int w]

def isWritable (f : Fault) : Bool := Value.itemsWritable f.shown

def details : Fault → List (String × Value)
  | mentionOutside _ c _ => [("candidate", c)]
  | missingEndpoints _ missing continuing =>
    [("missing", .ints missing), ("continuing", .ints continuing.members)]
  | budgetExceeded e =>
    [("work_done", .int e.workDone), ("seconds", .float (Decimal.roundTo 6 e.seconds))]
  | loserNotRuledOut _ counterexample => [("counterexample", .ints counterexample)]
  | _ => []

def assertionIndex : Fault → Option Nat
  | mentionOutside i _ _ => some i
  | sameEndpoints i _ => some i
  | emptyContinuing i => some i
  | missingEndpoints i _ _ => some i
  | _ => none

/-- A candidate number as a fault reports it. Truth values are reported too, other values are not. -/
def reportable : Value → Option Value
  | .int n => some (.int n)
  | .bool b => some (.bool b)
  | _ => none

def candidate : Fault → Option Value
  | winnerOutside w _ => reportable w
  | candidateOutside c _ => reportable c
  | loserNotRuledOut c _ => some (.int c)
  | winnerRuledOut w => some (.int w)
  | _ => none

/-- Is the input at fault, rather than what the search found? -/
def isMalformed : Fault → Bool
  | budgetExceeded _ => false
  | loserNotRuledOut _ _ => false
  | winnerRuledOut _ => false
  | _ => true

def toValue (f : Fault) : Value :=
  .record <|
    [("code", .text f.code), ("message", .text f.message), ("details", .record f.details)] ++
    (f.assertionIndex.map fun i => ("assertion_index", Value.int i)).toList ++
    (f.candidate.map fun c => ("candidate", c)).toList

end Fault

def faultSummary (faults : List Fault) : String := "; ".intercalate (faults.map Fault.message)

end RunoffAudit
