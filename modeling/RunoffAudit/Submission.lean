import RunoffAudit.WellFormed

/-! # Contests not yet known to be numbers

A submitted contest may hold any value where a number is due. It is checked by the same rules as a
contest in numbers; a value that is no integer counts as out of range.
-/
namespace RunoffAudit

/-- An assertion whose endpoints may be any values. -/
structure Submission where
  winner : Value
  loser : Value
  continuing : Option CandidateSet

namespace Submission

def candidate? (n : Int) (v : Value) : Option Candidate := v.int?.filter (inContest n)

/-- The assertion submitted, if its endpoints are integers. -/
def assertion? (s : Submission) : Option Assertion :=
  match s.winner.int?, s.loser.int? with
  | some w, some l => some <| match s.continuing with
    | none => .neb w l
    | some c => .nen w l c
  | _, _ => none

def faults (n : Int) (i : Nat) (s : Submission) : List Fault :=
  match s.assertion? with
  | some a => a.faults n i
  | none =>
    match candidate? n s.winner with
    | none => [.mentionOutside i s.winner n]
    | some _ => [.mentionOutside i s.loser n]

def count? (v : Value) : Option Int := v.int?.filter (0 < ·)

/-- The faults of a submitted contest; a null winner stands for none. -/
def contestFaults (count winner : Value) (assertions : List Submission) : List Fault :=
  match count? count with
  | none => [.candidateCount count]
  | some n =>
    (if winner.isNull ∨ (candidate? n winner).isSome then [] else [.winnerOutside winner n]) ++
    assertions.zipIdx.flatMap fun (s, i) => s.faults n i

def searchFaults (count candidate : Value) (assertions : List Submission) : List Fault :=
  match count? count with
  | none => [.candidateCount count]
  | some n =>
    (if (candidate? n candidate).isSome then [] else [.candidateOutside candidate n]) ++
    contestFaults count .null assertions

def ofAssertion : Assertion → Submission
  | .neb w l => ⟨.int w, .int l, none⟩
  | .nen w l c => ⟨.int w, .int l, some c⟩

theorem faults_ofAssertion (n : Int) (i : Nat) (a : Assertion) : (ofAssertion a).faults n i = a.faults n i := by
  cases a <;> rfl

def ofWinner (winner : Option Candidate) : Value := (winner.map .int).getD .null

variable {n : Int} {c : Candidate} {assertions : List Assertion}

theorem count?_int (n : Int) : count? (.int n) = if 0 < n then some n else none := by
  simp [count?, Value.int?, Option.filter]

theorem isSome_candidate?_int : (candidate? n (.int c)).isSome = inContest n c := by
  cases h : inContest n c <;> simp [candidate?, Value.int?, Option.filter, h]

/-- On numbers the faults are those of the contest. -/
theorem contestFaults_ofAssertion (winner : Option Candidate) :
    contestFaults (.int n) (ofWinner winner) (assertions.map ofAssertion) =
      RunoffAudit.contestFaults n winner assertions := by
  unfold contestFaults RunoffAudit.contestFaults
  rw [count?_int]
  by_cases hn : 0 < n
  · have hassertions : ((assertions.map ofAssertion).zipIdx.flatMap fun x => x.1.faults n x.2) =
        assertions.zipIdx.flatMap fun x => x.1.faults n x.2 := by
      simp only [List.zipIdx_map, List.flatMap_map, Prod.map_fst, Prod.map_snd, id, faults_ofAssertion]
    rw [if_pos hn, if_neg (Int.not_le.mpr hn)]
    refine congr (congrArg (· ++ ·) ?ofWinner) hassertions
    cases winner with
    | none => rfl
    | some w => simp [ofWinner, Value.isNull, isSome_candidate?_int, winnerFaults]
  · rw [if_neg hn, if_pos (Int.not_lt.mp hn)]

theorem searchFaults_ofAssertion : searchFaults (.int n) (.int c) (assertions.map ofAssertion) =
    RunoffAudit.searchFaults n c assertions := by
  have hcontest : contestFaults (.int n) .null (assertions.map ofAssertion) =
    RunoffAudit.contestFaults n none assertions := contestFaults_ofAssertion none
  unfold searchFaults RunoffAudit.searchFaults
  rw [count?_int]
  by_cases hn : 0 < n
  · rw [if_pos hn, if_neg (Int.not_le.mpr hn)]
    dsimp only
    rw [hcontest, isSome_candidate?_int]
  · rw [if_neg hn, if_pos (Int.not_lt.mp hn)]

end Submission
end RunoffAudit
