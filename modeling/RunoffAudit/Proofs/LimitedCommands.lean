import RunoffAudit.Proofs.Frontier
import RunoffAudit.Proofs.PruningOrder
import RunoffAudit.Proofs.TrimOutcome

/-! # All commands obey a limit on the work

A command that is given less work than it takes is cut off at one definite unit, in whatever loop or recursion
that unit falls and whatever earlier commands spent of the budget. Searches of one candidate, expansions and
orders then end with the budget's end; the verification of a contest reports the verdicts that were
finished; a trimming keeps everything. With enough work each gives what it gives without a limit.
-/
namespace RunoffAudit
open Metered

/-- What a limit on the work can change in the answers on a well-formed contest. -/
structure CommandsObeyLimit (n : Int) (winner : Option Candidate) (assertions : List Assertion) : Prop where
  verify : ∀ c, 0 ≤ c ∧ c < n → ∃ v, (verify n assertions c).LimitLaw v
  /-- Of a full report the limit may change the work done; a report cut short has the first of its verdicts. -/
  verifyContest : ∀ checkWinner, ∃ (report : ContestReport) (k : Nat), report.stopped = none ∧
    ObeysLimit (verifyContest n winner assertions checkWinner) k
      (fun nodes => { report with nodesExplored := nodes }) (ContestReport.CutShort report.verdicts)
  trim : ∀ request : TrimRequest, request.algorithm ∈ TrimAlgorithm.known → ∃ result k,
    ObeysLimit (trim n winner assertions request) k (fun _ => .ok result) (KeepsAll assertions)
  explain : ∀ style : ExplanationStyle, (style.hideWinner = true → winner ≠ none) →
    ∃ e, (explain n winner assertions style).LimitLaw (.ok e)
  pruningOrder : ∃ order, (pruningOrder n winner assertions).LimitLaw (.ok order)
  allowedSuffixes : ∃ frontier, (allowedSuffixes n assertions).LimitLaw frontier

variable {n : Int} {winner : Option Candidate} {assertions : List Assertion}

/-- On every well-formed contest and every limited budget, whatever was spent of it before, each command gives
the answer it gives without a limit if the work that takes is still there. Otherwise it is cut off at the
first unit past the limit and past what was spent. So a raised limit leads from an answer cut off to the
unlimited answer and to no other. -/
theorem commands_obey_limit (hcontest : WellFormedContest n winner assertions) :
    CommandsObeyLimit n winner assertions := by
  have ha := hcontest.assertions
  constructor
  case verify => exact fun c hc => ⟨_,(verify_takes ha hc).returns.limitLaw⟩
  case verifyContest =>
    intro checkWinner
    obtain ⟨k,hk⟩ := verifyContest_ends hcontest checkWinner
    exact ⟨⟨n,winner,[],_,none,0⟩,k,rfl,hk.obeys⟩
  case trim =>
    intro request hknown
    obtain ⟨answer,k,hk,hok⟩ := trim_answer_ends request (contestFaults_eq_nil_iff.mpr hcontest)
    obtain ⟨result,rfl⟩ := hok hknown
    exact ⟨result,k,hk.obeys⟩
  case explain =>
    intro style hhide
    obtain ⟨steps,hsteps⟩ := explain_returns_of_placed hcontest hhide fun _ => placed_of_mem_explanationStart
    exact ⟨_,hsteps.limitLaw⟩
  case pruningOrder =>
    obtain ⟨order,horder,_⟩ := pruningOrderBy_returns_losing hcontest .doubles
    exact ⟨order,horder.limitLaw⟩
  case allowedSuffixes => exact ⟨_,(allowedSuffixes_returns ha).limitLaw⟩

/-- With four units the verification of a contest that takes five has finished one of two verdicts. -/
theorem commands_obey_limit_fourForThree :
    WellFormedContest 3 (some 0) fourForThree ∧ CommandsObeyLimit 3 (some 0) fourForThree ∧
    (verifyContest 3 (some 0) fourForThree false .unlimited).2.workDone = 5 ∧
    ∃ y, verifyContest 3 (some 0) fourForThree false ⟨some 4,none,0,0,0⟩ = (y,⟨some 4,none,5,0,0⟩) ∧
      y.status = .budgetExceeded ∧ y.verdicts.length = 1 := by
  have hcontest : WellFormedContest 3 (some 0) fourForThree := by decide
  exact ⟨hcontest,commands_obey_limit hcontest,rfl,_,rfl,rfl,rfl⟩

end RunoffAudit
