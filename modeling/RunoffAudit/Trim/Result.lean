import RunoffAudit.Trim.Algorithm
import RunoffAudit.Trim.Requirement
import RunoffAudit.Ordering.Canonical
import RunoffAudit.WellFormed
import RunoffAudit.LogLine

/-! # Trimming

Trimming drops assertions that are not needed to rule out the losing candidates. Every losing candidate's
search tree, with all assertions that prune a node recorded, becomes a requirement, and the chosen
assertions meet all of them. If a losing candidate is not ruled out in the first place, or the budget
runs out, every assertion is kept.
-/
namespace RunoffAudit

inductive TrimOutcome where
  | malformed (faults : List Fault)
  /-- The first losing candidate that can still win, and how. -/
  | insufficient (candidate : Candidate) (counterexample : Suffix)
  | unoptimized (exhaustion : Exhaustion)
  | trimmed

namespace TrimOutcome

def status : TrimOutcome → String
  | malformed _ => "INVALID_INPUT"
  | insufficient _ _ => "INSUFFICIENT"
  | unoptimized _ => "UNOPTIMIZED"
  | trimmed => "TRIMMED"

def faults : TrimOutcome → List Fault
  | malformed fs => fs
  | insufficient c s => [.loserNotRuledOut c s]
  | unoptimized e => [.budgetExceeded e]
  | trimmed => []

end TrimOutcome

structure TrimResult where
  algorithm : TrimAlgorithm
  outcome : TrimOutcome
  original : List Assertion
  /-- The positions of the kept assertions. -/
  kept : List Nat
  /-- The search trees of losing candidates that were finished, in ascending order. -/
  trees : List Node

namespace TrimResult

def assertions (r : TrimResult) : List Assertion := r.kept.filterMap (r.original[·]?)

def optimized (r : TrimResult) : Bool :=
  match r.outcome with
  | .trimmed => true
  | _ => false

def removedCount (r : TrimResult) : Int := (r.original.length : Int) - r.kept.length

def nodesExplored (r : TrimResult) : Nat := (r.trees.map Node.size).foldl (· + ·) 0

def maxDepth (r : TrimResult) : Nat := (r.trees.map Node.maxDepth).foldl max 0

/-- The seconds that a search takes on a clock that stands still. -/
def seconds (_ : TrimResult) : Float := 0

def toValue (r : TrimResult) : Value :=
  .record [("status", .text r.outcome.status), ("algorithm", .text r.algorithm.word),
    ("original_count", .int r.original.length), ("kept", .ints (r.kept.map Int.ofNat)),
    ("assertions", .list (r.assertions.map Assertion.toValue)), ("nodes_explored", .int r.nodesExplored),
    ("max_depth", .int r.maxDepth), ("seconds", .float r.seconds),
    ("errors", .list (r.outcome.faults.map Fault.toValue))]

/-- What the log says about a result. Malformed input and the algorithm that keeps all say nothing. -/
def log (r : TrimResult) : List LogLine :=
  let line level message : LogLine := ⟨level, "irvcert.core.trim", message⟩
  match r.outcome with
  | .malformed _ => []
  | .insufficient c s =>
    [line .warning ("cannot trim: candidate " ++ toString c ++ " is not ruled out (" ++
      (Value.ints s).shown ++ ")")]
  | .unoptimized e => [line .warning ("trimming stopped, returning untrimmed assertions: " ++ e.message)]
  | .trimmed =>
    if r.algorithm = .keepAll then []
    else [line .info ("trimmed " ++ toString r.original.length ++ " assertions down to " ++
      toString r.kept.length ++ " (" ++ r.algorithm.word ++ ", " ++ toString r.nodesExplored ++ " nodes)")]

end TrimResult

inductive TrimError where
  | unknownAlgorithm (word : String)
  /-- A pruned node must be met, but offers no assertion. -/
  | noDirectChoice
deriving DecidableEq

def TrimError.message : TrimError → String
  | unknownAlgorithm w => "Unknown trim algorithm: " ++ Text.quoted w
  | noDirectChoice => "pruned node without a direct assertion choice"

inductive LoserSearch where
  | allRuledOut
  | survivor (candidate : Candidate) (tree : Node)
  | exhausted (e : Exhaustion)

/-- Searches `left` candidates from `c` on, the winner left out. The search ends at the first candidate
that can still win. -/
def searchLosers (r : SearchRule) (p : Policy) (carried : List Numbered) (winner : Option Candidate) :
    (left : Nat) → (c : Candidate) → StateM Budget (List Node × LoserSearch)
  | 0, _ => pure ([], .allRuledOut)
  | left + 1, c =>
    if some c = winner then searchLosers r p carried winner left (c + 1)
    else do
      match ← (searchTree r p carried c).attempt with
      | .error e => return ([], .exhausted e)
      | .ok tree =>
        if tree.valid then return ([tree], .survivor c tree)
        else
          let (others, ending) ← searchLosers r p carried winner left (c + 1)
          return (tree :: others, ending)

structure TrimRequest where
  algorithm : TrimAlgorithm
  /-- The policy of the search, if it is not to be the algorithm's own. -/
  policy : Option Policy
  /-- Whether the assertions are first put in canonical order. -/
  sort : Bool

/-- Trims the assertions, which stand in the order `order`, by a search with the policy `p`. -/
def trimOrdered (n : Int) (winner : Option Candidate) (assertions : List Assertion) (algorithm : TrimAlgorithm)
    (p : Policy) (order : List Nat) : StateM Budget (Except TrimError TrimResult) := do
  let result outcome kept trees : TrimResult := ⟨algorithm, outcome, assertions, kept, trees⟩
  let carried := numbered (order.filterMap (assertions[·]?))
  let (trees, ending) ← searchLosers ⟨n, true⟩ p carried winner n.toNat 0
  match ending with
  | .exhausted e => return .ok (result (.unoptimized e) order trees)
  | .survivor c tree =>
    let counterexample := (tree.firstValidLeaf.map Node.suffix).getD []
    return .ok (result (.insufficient c counterexample) order trees)
  | .allRuledOut =>
    match ← (Requirement.choose (Requirement.ofNodes trees)).attempt with
    | .error e => return .ok (result (.unoptimized e) order trees)
    | .ok none => return .error .noDirectChoice
    | .ok (some selected) =>
      let kept := (order.zipIdx.filter (·.2 ∈ selected)).map (·.1)
      return .ok (result .trimmed kept trees)

def trim (n : Int) (winner : Option Candidate) (assertions : List Assertion) (request : TrimRequest) :
    StateM Budget (Except TrimError TrimResult) := do
  let faults := contestFaults n winner assertions
  let positions := List.range assertions.length
  if faults.isEmpty then
    let order := if request.sort then canonicalOrder assertions else positions
    match request.algorithm, request.algorithm.policy? with
    | .keepAll, _ => return .ok ⟨.keepAll, .trimmed, assertions, order, []⟩
    | a, none => return .error (.unknownAlgorithm a.word)
    | a, some own => trimOrdered n winner assertions a (request.policy.getD own) order
  else return .ok ⟨request.algorithm, .malformed faults, assertions, positions, []⟩

end RunoffAudit
