import RunoffAudit.Elimination.Frontier
import RunoffAudit.WellFormed

/-! # Explanations

How a list of assertions whittles the elimination orders down. For each assertion an explanation shows
the frontier expanded just far enough for the assertion to decide every suffix, and what is left of
it. What is left at the end is what the assertions fail to rule out.
-/
namespace RunoffAudit

structure ExplanationStyle where
  /-- Start from all elimination orders instead of one suffix per candidate. -/
  expandFully : Bool := false
  /-- Leave out the orders won by the declared winner. -/
  hideWinner : Bool := false
  /-- Apply each assertion to what the earlier ones left, instead of to the start. -/
  cumulative : Bool := true

structure ExplanationStep where
  index : Nat
  assertion : Assertion
  /-- The frontier with the assertion's effect on each suffix. -/
  before : List (Suffix × Effect)
  after : List Suffix

def ExplanationStep.removed (s : ExplanationStep) : List Suffix :=
  (s.before.map (·.1)).filter (· ∉ s.after)

structure Explanation where
  n : Int
  winner : Option Candidate
  cumulative : Bool
  start : List Suffix
  steps : List ExplanationStep
  remaining : List Suffix

namespace Explanation

/-- The candidates that win some remaining order. -/
def possibleWinners (e : Explanation) : CandidateSet :=
  .ofList (e.remaining.filterMap List.getLast?)

end Explanation

inductive ExplanationError where
  | noWinnerToHide
  | malformed (faults : List Fault)

def ExplanationError.message : ExplanationError → String
  | noWinnerToHide => "hide_winner requires a winner"
  | malformed faults => faultSummary faults

/-- Applies the assertions from position `i` on. In every step the frontier is `remaining`, or always
`start` if the explanation is not cumulative. -/
def explainFrom (n : Int) (cumulative : Bool) (start : List Suffix) :
    List Numbered → (remaining : List Suffix) → Metered (List ExplanationStep × List Suffix)
  | [], remaining => pure ([], remaining)
  | (a, i) :: rest, remaining => do
    let before ← expandAll a n true (if cumulative then remaining else start)
    let after ← expandAll a n false before
    let remaining ← if cumulative then pure after else expandAll a n false remaining
    let (steps, remaining) ← explainFrom n cumulative start rest remaining
    return (⟨i, a, before.map fun s => (s, a.effect s), after⟩ :: steps, remaining)

def explain (n : Int) (winner : Option Candidate) (assertions : List Assertion) (style : ExplanationStyle) :
    Metered (Except ExplanationError Explanation) := do
  if style.hideWinner && winner.isNone then return .error .noWinnerToHide
  let faults := contestFaults n winner assertions
  if faults.isEmpty then
    let all := if style.expandFully then allOrders n else singleSuffixes n
    let start := if style.hideWinner then all.filter (·.getLast? ≠ winner) else all
    let (steps, remaining) ← explainFrom n style.cumulative start (numbered assertions) start
    return .ok ⟨n, winner, style.cumulative, start, steps, remaining⟩
  else return .error (.malformed faults)

namespace Explanation

def suffixes (l : List Suffix) : Value := .list (l.map .ints)

def stepToValue (names : List Text) (s : ExplanationStep) : Value :=
  .record [("assertion_index", .int s.index), ("assertion", s.assertion.toValue),
    ("description", .ofText (s.assertion.describe names)),
    ("before", .list (s.before.map fun (t, e) => .record [("suffix", .ints t), ("effect", .text e.word)])),
    ("after", suffixes s.after)]

def toValue (names : List Text) (e : Explanation) : Value :=
  .record [("num_candidates", .int e.n), ("winner", (e.winner.map Value.int).getD .null),
    ("cumulative", .bool e.cumulative), ("start", suffixes e.start),
    ("steps", .list (e.steps.map (stepToValue names))), ("remaining", suffixes e.remaining),
    ("possible_winners", .ints e.possibleWinners.members)]

end Explanation
end RunoffAudit
