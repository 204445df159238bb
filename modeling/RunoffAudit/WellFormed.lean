import RunoffAudit.Fault

/-! # Well-formed contests

The checks made before any search. A contest is well formed when it has candidates, the declared
winner is one of them, and every assertion names candidates only, has distinct winner and loser and,
if it is an NEN, lists both among the continuing candidates.
-/
namespace RunoffAudit

def inContest (n : Int) (c : Candidate) : Bool := 0 ≤ c ∧ c < n

/-- The faults of the assertion at position `i`. One candidate out of range hides all other faults. -/
def Assertion.faults (n : Int) (i : Nat) (a : Assertion) : List Fault :=
  match a.mentioned.find? fun c => !inContest n c with
  | some c => [.mentionOutside i (.int c) n]
  | none =>
    (if a.winner = a.loser then [.sameEndpoints i a] else []) ++
    match a with
    | .neb _ _ => []
    | .nen w l c =>
      if c.members = [] then [.emptyContinuing i]
      else
        let missing := [w, l].filter (· ∉ c)
        if missing = [] then [] else [.missingEndpoints i missing c]

def winnerFaults (n : Int) : Option Candidate → List Fault
  | none => []
  | some w => if inContest n w then [] else [.winnerOutside (.int w) n]

/-- The faults of a contest: a wrong count alone, else those of the winner, then of each assertion. -/
def contestFaults (n : Int) (winner : Option Candidate) (assertions : List Assertion) : List Fault :=
  if n ≤ 0 then [.candidateCount (.int n)]
  else winnerFaults n winner ++ assertions.zipIdx.flatMap fun (a, i) => a.faults n i

def searchFaults (n : Int) (candidate : Candidate) (assertions : List Assertion) : List Fault :=
  if n ≤ 0 then [.candidateCount (.int n)]
  else
    (if inContest n candidate then [] else [.candidateOutside (.int candidate) n]) ++
    contestFaults n none assertions

/-! ## The stated rules -/

/-- What `Assertion.faults` checks. -/
def Assertion.WellFormed (n : Int) (a : Assertion) : Prop :=
  (∀ c ∈ a.mentioned, 0 ≤ c ∧ c < n) ∧ a.winner ≠ a.loser ∧
  match a with
  | .neb _ _ => True
  | .nen w l c => w ∈ c ∧ l ∈ c

/-- What `contestFaults` checks. -/
structure WellFormedContest (n : Int) (winner : Option Candidate) (assertions : List Assertion) : Prop where
  count : 0 < n
  winner : ∀ w, winner = some w → 0 ≤ w ∧ w < n
  assertions : ∀ a ∈ assertions, a.WellFormed n

structure WellFormedSearch (n : Int) (candidate : Candidate) (assertions : List Assertion) : Prop where
  candidate : 0 ≤ candidate ∧ candidate < n
  assertions : ∀ a ∈ assertions, a.WellFormed n

end RunoffAudit
