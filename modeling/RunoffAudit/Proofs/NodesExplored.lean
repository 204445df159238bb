import RunoffAudit.Proofs.Admission

/-! # The nodes that a report counts

A report does not count the nodes of its trees: it reads the counter of the budget. Every node of a tree is one unit
of work on every path through the search, so a verification that is not cut off moves the counter on by exactly the
nodes of its trees. What earlier commands spent of the same budget is counted as well.
-/
namespace RunoffAudit
open Metered

variable {n : Int} {winner passOver : Option Candidate} {assertions : List Assertion} {b b' : Budget}
  {c : Candidate} {v : Verdict} {verdicts : List Verdict}

def ContestReport.treeNodes (r : ContestReport) : Nat := (r.verdicts.map Verdict.nodesExplored).sum

/-- A verdict that was reached cost one unit for each node of its tree. -/
theorem verify_spends (ha : ∀ a ∈ assertions, a.WellFormed n) (hc : 0 ≤ c ∧ c < n)
    (h : (verify n assertions c).runOn b = (.ok v,b')) : b' = b.after v.nodesExplored := by
  have htakes := verify_takes ha hc
  rw [htakes.eq_of_runOn h]
  exact (htakes.admits_of_runOn h).2

theorem verdictsFrom_spends (ha : ∀ a ∈ assertions, a.WellFormed n) {left : Nat}
    (hc : ∀ d ∈ candidatesFrom c left, 0 ≤ d ∧ d < n)
    (h : verdictsFrom n assertions passOver left c b = ((verdicts,none),b')) :
    b' = b.after (verdicts.map Verdict.nodesExplored).sum := by
  induction left generalizing c b verdicts with
  | zero =>
    cases h
    rfl
  | succ left ih =>
    have hrest : ∀ d ∈ candidatesFrom (c + 1) left, 0 ≤ d ∧ d < n := fun d hd => hc d (List.mem_cons_of_mem c hd)
    rw [verdictsFrom] at h
    by_cases hpass : some c = passOver
    · rw [if_pos hpass] at h
      exact ih hrest h
    · rw [if_neg hpass] at h
      rcases hv : (verify n assertions c).runOn b with ⟨e | v,b₁⟩
      · -- nothing is stopped, so no search was cut off
        rw [attempt_bind hv] at h
        cases h
      · rw [attempt_bind hv] at h
        obtain rfl := verify_spends ha (hc c List.mem_cons_self) hv
        rcases ho : verdictsFrom n assertions passOver left (c + 1) (b.after v.nodesExplored)
          with ⟨⟨others,stopped⟩,b₂⟩
        dsimp only at h
        rw [run_bind ho] at h
        cases h
        rw [ih hrest ho,List.map_cons,List.sum_cons,Budget.after_after]

/-- The verification of a well-formed contest that is not cut off reports the work done before on its budget and the
nodes of its trees. So it reports the nodes of its trees alone exactly if the budget was fresh. -/
theorem verifyContest_nodesExplored (hcontest : WellFormedContest n winner assertions) (checkWinner : Bool)
    {report : ContestReport}
    (hreport : (verifyContest n winner assertions checkWinner b).1 = report) (hdone : report.stopped = none) :
    report.nodesExplored = b.workDone + report.treeNodes ∧
      (report.nodesExplored = report.treeNodes ↔ b.workDone = 0) := by
  have hfaults : contestFaults n winner assertions = [] := contestFaults_eq_nil_iff.mpr hcontest
  have hcount : report.nodesExplored = b.workDone + report.treeNodes := by
    rw [verifyContest_eq hfaults] at hreport
    rcases hv : verdictsFrom n assertions (if checkWinner then none else winner) n.toNat 0 b
      with ⟨⟨verdicts,stopped⟩,b₁⟩
    rw [run_bind hv] at hreport
    subst hreport
    obtain rfl : stopped = none := hdone
    rw [verdictsFrom_spends hcontest.assertions (candidatesFrom_inContest n) hv]
    rfl
  refine ⟨hcount,?_⟩
  omega

/-- The second verification of a contest on one budget is finished, and counts the nodes of the first too. -/
theorem verifyContest_nodesExplored_second :
    WellFormedContest 3 (some 0) fourForThree ∧
    ∃ used report, (verifyContest 3 (some 0) fourForThree false .unlimited).2 = used ∧ used.workDone = 5 ∧
      (verifyContest 3 (some 0) fourForThree false used).1 = report ∧ report.stopped = none ∧
      report.nodesExplored = 5 + report.treeNodes ∧ report.treeNodes = 5 := by
  have hcontest : WellFormedContest 3 (some 0) fourForThree := by decide
  exact ⟨hcontest,_,_,rfl,rfl,rfl,rfl,(verifyContest_nodesExplored hcontest false rfl rfl).1,rfl⟩

/-- One tree of one node, and a report of two. -/
theorem verifyContest_counts_earlier_work :
    ∃ used report, (verifyContest 2 (some 0) [.neb 0 1] false .unlimited).2 = used ∧
      (verifyContest 2 (some 0) [.neb 0 1] false used).1 = report ∧ report.stopped = none ∧
      report.treeNodes = 1 ∧ report.nodesExplored = 2 ∧ report.nodesExplored ≠ report.treeNodes :=
  ⟨_,_,rfl,rfl,rfl,rfl,rfl,by decide⟩

end RunoffAudit
