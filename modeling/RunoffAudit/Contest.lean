import RunoffAudit.Verdict
import RunoffAudit.LogLine

/-! # The verification of a contest

The assertions confirm the declared winner when they rule out every other candidate. All other
candidates are searched in ascending order, and the winner too if that is asked for: assertions that
rule the winner out contradict the declared result.
-/
namespace RunoffAudit

inductive ContestStatus where
  | proven
  | insufficient
  | inconsistent
  | invalidInput
  | budgetExceeded
deriving DecidableEq

def ContestStatus.word : ContestStatus → String
  | proven => "PROVEN"
  | insufficient => "INSUFFICIENT"
  | inconsistent => "INCONSISTENT"
  | invalidInput => "INVALID_INPUT"
  | budgetExceeded => "BUDGET_EXCEEDED"

structure ContestReport where
  n : Int
  winner : Option Candidate
  malformed : List Fault
  /-- The verdicts on the candidates searched, in ascending order. -/
  verdicts : List Verdict
  stopped : Option (Candidate × Exhaustion)
  /-- The work done on the budget by the end. -/
  nodesExplored : Nat

namespace ContestReport

def winnerRuledOut (r : ContestReport) : Bool :=
  r.verdicts.any fun v => some v.candidate = r.winner && !v.valid

/-- The candidates other than the winner that can still win. -/
def unexcluded (r : ContestReport) : List Candidate :=
  (r.verdicts.filter fun v => v.valid && some v.candidate ≠ r.winner).map Verdict.candidate

/-- Malformed input comes first, then a search cut short, then a contradicted winner. -/
def status (r : ContestReport) : ContestStatus :=
  if !r.malformed.isEmpty then .invalidInput
  else if r.stopped.isSome then .budgetExceeded
  else if r.winnerRuledOut then .inconsistent
  else if !r.unexcluded.isEmpty then .insufficient
  else .proven

def proven (r : ContestReport) : Bool := r.status = .proven

def faults (r : ContestReport) : List Fault :=
  r.malformed ++
  (if r.winnerRuledOut then (r.winner.map Fault.winnerRuledOut).toList else []) ++
  (r.stopped.map fun s => Fault.budgetExceeded s.2).toList

def verdictFor (r : ContestReport) (c : Candidate) : Option Verdict :=
  r.verdicts.find? (·.candidate = c)

def toValue (withTrees : Bool) (r : ContestReport) : Value :=
  .record [("report_schema_version", .text "1"), ("status", .text r.status.word),
    ("num_candidates", .int r.n), ("winner", (r.winner.map Value.int).getD .null),
    ("nodes_explored", .int r.nodesExplored), ("unexcluded_candidates", .ints r.unexcluded),
    ("verdicts", .list (r.verdicts.map (Verdict.toValue withTrees))),
    ("errors", .list (r.faults.map Fault.toValue))]

def parenthesized : Suffix → String
  | [c] => "(" ++ toString c ++ ",)"
  | s => "(" ++ ", ".intercalate (s.map toString) ++ ")"

def logSource : String := "irvcert.core.verify"

def verdictLog (winner : Option Candidate) (v : Verdict) : List LogLine :=
  let line level message : LogLine := ⟨level, logSource, message⟩
  let who := toString v.candidate
  line .debug ("candidate " ++ who ++ ": " ++ toString v.nodesExplored ++ " nodes, max depth " ++
    toString v.maxDepth) ::
  if some v.candidate = winner then
    if v.valid then [] else [line .warning ("assertions rule out the declared winner " ++ who)]
  else if v.valid then
    let example? := (v.counterexample.map parenthesized).getD "None"
    [line .warning ("candidate " ++ who ++ " is not ruled out; counterexample suffix " ++ example?)]
  else [line .info ("candidate " ++ who ++ " ruled out")]

def log (r : ContestReport) : List LogLine :=
  (r.malformed.map fun f => ⟨.warning, logSource, "invalid input: " ++ f.message⟩) ++
  r.verdicts.flatMap (verdictLog r.winner) ++
  (r.stopped.map fun (c, e) =>
    ⟨.warning, logSource, "verification of candidate " ++ toString c ++ " stopped: " ++ e.message⟩).toList

end ContestReport

/-- Verifies `left` candidates from `c` on, those passed over left out, until the budget ends. -/
def verdictsFrom (n : Int) (assertions : List Assertion) (passOver : Option Candidate) :
    (left : Nat) → (c : Candidate) → StateM Budget (List Verdict × Option (Candidate × Exhaustion))
  | 0, _ => pure ([], none)
  | left + 1, c =>
    if some c = passOver then verdictsFrom n assertions passOver left (c + 1)
    else do
      match ← (verify n assertions c).attempt with
      | .error e => return ([], some (c, e))
      | .ok v =>
        let (others, stopped) ← verdictsFrom n assertions passOver left (c + 1)
        return (v :: others, stopped)

/-- Verifies that the assertions rule out all candidates but the winner. A search that the budget cuts
short is a report too. -/
def verifyContest (n : Int) (winner : Option Candidate) (assertions : List Assertion) (checkWinner : Bool) :
    StateM Budget ContestReport := do
  let malformed := contestFaults n winner assertions
  if malformed.isEmpty then
    let passOver := if checkWinner then none else winner
    let (verdicts, stopped) ← verdictsFrom n assertions passOver n.toNat 0
    return ⟨n, winner, [], verdicts, stopped, ← workDone⟩
  else return ⟨n, winner, malformed, [], none, 0⟩

end RunoffAudit
