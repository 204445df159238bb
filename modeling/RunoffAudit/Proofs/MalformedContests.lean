import RunoffAudit.Submission
import RunoffAudit.Proofs.Screening
import RunoffAudit.Proofs.Trimming

/-! # Malformed contests are not searched

The checks accept exactly the well-formed contests. What they find in others is listed assertion by assertion, and
every command that is given such a contest returns the list and spends no work. If the list cannot be put in words,
because an integer in it is too long, the command fails instead, and spends no work either.
-/
namespace RunoffAudit
open Metered

variable {n : Int} {i : Nat} {a : Assertion} {c : Candidate} {f : Fault} {winner : Option Candidate}
  {assertions : List Assertion} {b : Budget}

/-! ## The list of the faults -/

theorem Assertion.assertionIndex_of_mem_faults (hf : f ∈ a.faults n i) : f.assertionIndex = some i := by
  rcases mem_faults_cases hf with ⟨_,_,rfl⟩ | rfl | rfl | ⟨_,_,rfl,_⟩ <;> rfl

def assertionFaults (n : Int) (assertions : List Assertion) : List Fault :=
  (numbered assertions).flatMap fun x => x.1.faults n x.2

def faultPositions (n : Int) (assertions : List Assertion) : List Nat :=
  (numbered assertions).flatMap fun x => (x.1.faults n x.2).map fun _ => x.2

theorem contestFaults_eq_append (hn : 0 < n) (winner : Option Candidate) (assertions : List Assertion) :
    contestFaults n winner assertions = winnerFaults n winner ++ assertionFaults n assertions :=
  if_neg (Int.not_le.mpr hn)

theorem map_assertionIndex_assertionFaults (n : Int) (assertions : List Assertion) :
    (assertionFaults n assertions).map Fault.assertionIndex = (faultPositions n assertions).map some := by
  rw [assertionFaults,faultPositions,List.map_flatMap,List.map_flatMap]
  apply List.flatMap_congr
  intro x _
  rw [List.map_map]
  exact List.map_congr_left fun f hf => Assertion.assertionIndex_of_mem_faults hf

theorem pairwise_faultPositions (n : Int) (assertions : List Assertion) :
    (faultPositions n assertions).Pairwise (· ≤ ·) := by
  rw [faultPositions,List.pairwise_flatMap]
  constructor
  · intro x _
    exact List.pairwise_map.mpr (List.pairwise_of_forall fun _ _ => Nat.le_refl _)
  · apply (pairwise_numbered assertions).imp
    intro x y hxy i hi j hj
    obtain ⟨_,_,rfl⟩ := List.mem_map.mp hi
    obtain ⟨_,_,rfl⟩ := List.mem_map.mp hj
    exact Nat.le_of_lt hxy

theorem mem_faultPositions_iff : i ∈ faultPositions n assertions ↔
    ∃ a, assertions[i]? = some a ∧ ¬ a.WellFormed n := by
  rw [faultPositions,List.mem_flatMap]
  constructor
  · rintro ⟨⟨a,j⟩,hx,hi⟩
    obtain ⟨f,hf,rfl⟩ := List.mem_map.mp hi
    refine ⟨a,mem_numbered.mp hx,fun ha => ?_⟩
    rw [Assertion.faults_eq_nil_iff.mpr ha] at hf
    cases hf
  · rintro ⟨a,ha,hill⟩
    have hne : a.faults n i ≠ [] := fun h => hill (Assertion.faults_eq_nil_iff.mp h)
    obtain ⟨f,hf⟩ := List.exists_mem_of_ne_nil _ hne
    exact ⟨(a,i),mem_numbered.mpr ha,List.mem_map.mpr ⟨f,hf,rfl⟩⟩

/-- At most one fault is that of the winner. Those of the assertions follow in the order of the positions, and an
assertion has some exactly if it is not well-formed. -/
def ListsFaults (n : Int) (winner : Option Candidate) (assertions : List Assertion) (faults : List Fault) : Prop :=
  ∃ (ofWinner ofAssertions : List Fault) (positions : List Nat), faults = ofWinner ++ ofAssertions ∧
    (ofWinner = [] ∧ (∀ w, winner = some w → 0 ≤ w ∧ w < n) ∨
      ∃ w, winner = some w ∧ ¬ (0 ≤ w ∧ w < n) ∧ ofWinner = [.winnerOutside (.int w) n]) ∧
    ofAssertions.map Fault.assertionIndex = positions.map some ∧ positions.Pairwise (· ≤ ·) ∧
    ∀ i, i ∈ positions ↔ ∃ a, assertions[i]? = some a ∧ ¬ a.WellFormed n

theorem winnerFaults_cases (n : Int) (winner : Option Candidate) :
    winnerFaults n winner = [] ∧ (∀ w, winner = some w → 0 ≤ w ∧ w < n) ∨
      ∃ w, winner = some w ∧ ¬ (0 ≤ w ∧ w < n) ∧ winnerFaults n winner = [.winnerOutside (.int w) n] := by
  by_cases h : winnerFaults n winner = []
  · exact Or.inl ⟨h,winnerFaults_eq_nil_iff.mp h⟩
  · right
    cases winner with
    | none => exact absurd rfl h
    | some w =>
      have hw : ¬ inContest n w = true := fun hw => h (if_pos hw)
      exact ⟨w,rfl,mt inContest_eq_true_iff.mpr hw,if_neg hw⟩

theorem contestFaults_lists (hn : 0 < n) (winner : Option Candidate) (assertions : List Assertion) :
    ListsFaults n winner assertions (contestFaults n winner assertions) :=
  ⟨winnerFaults n winner,assertionFaults n assertions,faultPositions n assertions,
    contestFaults_eq_append hn winner assertions,winnerFaults_cases n winner,
    map_assertionIndex_assertionFaults n assertions,pairwise_faultPositions n assertions,
    fun _ => mem_faultPositions_iff⟩

/-! ## The commands -/

/-- What the commands answer to a contest with the given faults. The budget stays as it was. -/
structure Refused (n : Int) (winner : Option Candidate) (assertions : List Assertion) (faults : List Fault) : Prop where
  verifyContest : ∀ checkWinner b, ∃ report,
    verifyContestScreened n winner assertions checkWinner b = (.ok report,b) ∧
      report.status = .invalidInput ∧ report.faults = faults ∧ report.verdicts = []
  trim : ∀ request b, ∃ result, trimScreened n winner assertions request b = (.ok (.ok result),b) ∧
    result.outcome.status = "INVALID_INPUT" ∧ result.outcome.faults = faults ∧ result.trees = []
  /-- That there is no winner to be hidden is found out before anything else. -/
  explain : ∀ (style : ExplanationStyle) b, (explainScreened n winner assertions style).runOn b = (.ok (.ok (.error
    (if style.hideWinner = true ∧ winner = none then .noWinnerToHide else .malformed faults))),b)
  pruningOrder : ∀ b, (pruningOrderScreened n winner assertions).runOn b = (.ok (.ok (.error faults)),b)

/-- What they answer if the faults cannot be put in words. -/
structure Unanswered (n : Int) (winner : Option Candidate) (assertions : List Assertion) (e : Text.DigitError) :
    Prop where
  verifyContest : ∀ checkWinner b, verifyContestScreened n winner assertions checkWinner b = (.error e,b)
  trim : ∀ request b, trimScreened n winner assertions request b = (.error e,b)
  explain : ∀ (style : ExplanationStyle) b, (explainScreened n winner assertions style).runOn b =
    (.ok (if style.hideWinner = true ∧ winner = none then .ok (.error .noWinnerToHide) else .error e),b)
  pruningOrder : ∀ b, (pruningOrderScreened n winner assertions).runOn b = (.ok (.error e),b)

theorem verifyContest_refused (h : contestFaults n winner assertions ≠ []) (checkWinner : Bool) (b : Budget) :
    verifyContest n winner assertions checkWinner b =
      (⟨n,winner,contestFaults n winner assertions,[],none,0⟩,b) := by
  unfold verifyContest
  dsimp only
  rw [if_neg (by simpa using h)]
  rfl

theorem explain_noWinnerToHide {style : ExplanationStyle} (hhide : style.hideWinner = true ∧ winner = none) (b : Budget) :
    (explain n winner assertions style).runOn b = (.ok (.error .noWinnerToHide),b) := by
  unfold explain
  rw [if_pos (by simpa using hhide)]
  rfl

theorem explain_refused {style : ExplanationStyle} (hhide : ¬ (style.hideWinner = true ∧ winner = none))
    (h : contestFaults n winner assertions ≠ []) (b : Budget) :
    (explain n winner assertions style).runOn b = (.ok (.error (.malformed (contestFaults n winner assertions))),b) := by
  unfold explain
  rw [if_neg (by simpa using hhide)]
  dsimp only
  rw [if_neg (by simpa using h)]
  rfl

/-- Where there is a winner to be hidden, or nobody is to be hidden, the explanation is screened for all faults. -/
theorem explainScreened_eq {style : ExplanationStyle} (hhide : ¬ (style.hideWinner = true ∧ winner = none)) :
    explainScreened n winner assertions style =
      afterScreen (contestFaults n winner assertions) (explain n winner assertions style) := by
  unfold explainScreened
  rw [if_neg (by simpa using hhide)]

theorem explainScreened_noWinnerToHide {style : ExplanationStyle} (hhide : style.hideWinner = true ∧ winner = none)
    (b : Budget) :
    (explainScreened n winner assertions style).runOn b = (.ok (.ok (.error .noWinnerToHide)),b) := by
  unfold explainScreened
  rw [if_pos (by simpa using hhide)]
  exact afterScreen_runOn rfl (explain_noWinnerToHide hhide b)

theorem pruningOrder_refused (h : contestFaults n winner assertions ≠ []) (b : Budget) :
    (pruningOrder n winner assertions).runOn b = (.ok (.error (contestFaults n winner assertions)),b) := by
  unfold pruningOrder pruningOrderBy
  dsimp only
  rw [if_neg (by simpa using h)]
  rfl

theorem verify_refused (h : searchFaults n c assertions ≠ []) (b : Budget) :
    (verify n assertions c).runOn b = (.ok ⟨c,searchFaults n c assertions,none⟩,b) := by
  unfold verify
  dsimp only
  rw [if_neg (by simpa using h)]
  rfl

variable {faults : List Fault} {e : Text.DigitError}

theorem contest_refused (hscreen : screenContest n winner assertions = .ok faults) (h : faults ≠ []) :
    Refused n winner assertions faults := by
  obtain ⟨rfl,_⟩ := screen_eq_ok_iff.mp hscreen
  have hempty : (contestFaults n winner assertions).isEmpty = false := by simpa using h
  constructor
  case verifyContest =>
    intro checkWinner b
    refine ⟨_,afterScreen_apply hscreen (verifyContest_refused h checkWinner b),?_,?_,rfl⟩
    · simp [ContestReport.status,hempty]
    · simp [ContestReport.faults,ContestReport.winnerRuledOut]
  case trim => exact fun request b => ⟨_,afterScreen_apply hscreen (trim_refused h request b),rfl,rfl,rfl⟩
  case explain =>
    intro style b
    by_cases hhide : style.hideWinner = true ∧ winner = none
    · rw [if_pos hhide,explainScreened_noWinnerToHide hhide]
    · rw [if_neg hhide,explainScreened_eq hhide]
      exact afterScreen_runOn hscreen (explain_refused hhide h b)
  case pruningOrder => exact fun b => afterScreen_runOn hscreen (pruningOrder_refused h b)

theorem contest_unanswered (hscreen : screenContest n winner assertions = .error e) :
    Unanswered n winner assertions e := by
  constructor
  case verifyContest => exact fun _ b => congrFun (afterScreen_of_error hscreen _) b
  case trim => exact fun _ b => congrFun (afterScreen_of_error hscreen _) b
  case explain =>
    intro style b
    by_cases hhide : style.hideWinner = true ∧ winner = none
    · rw [if_pos hhide,explainScreened_noWinnerToHide hhide]
    · rw [if_neg hhide,explainScreened_eq hhide]
      exact congrFun (afterScreen_of_error hscreen _) b
  case pruningOrder => exact fun b => congrFun (afterScreen_of_error hscreen _) b

/-! ## The checks -/

/-- What the checks let through, what they list, and what becomes of contests and searches that they do not let
through. -/
structure Screened (n : Int) (winner : Option Candidate) (assertions : List Assertion) : Prop where
  /-- The checks on values that may be no integers find the same. -/
  submitted : Submission.contestFaults (.int n) (Submission.ofWinner winner) (assertions.map Submission.ofAssertion) =
    contestFaults n winner assertions
  accepts : screenContest n winner assertions = .ok [] ↔ WellFormedContest n winner assertions
  lists : ∀ faults, screenContest n winner assertions = .ok faults → 0 < n → ListsFaults n winner assertions faults
  refuses : ∀ faults, screenContest n winner assertions = .ok faults → faults ≠ [] →
    Refused n winner assertions faults
  /-- The checks fail exactly if some fault cannot be put in words. -/
  fails : (∃ e, screenContest n winner assertions = .error e) ↔
    ∃ f ∈ contestFaults n winner assertions, f.isWritable = false
  answersShort : ShortContest n winner assertions → ∃ faults, screenContest n winner assertions = .ok faults
  unanswered : ∀ e, screenContest n winner assertions = .error e → Unanswered n winner assertions e
  submittedSearch : ∀ c, Submission.searchFaults (.int n) (.int c) (assertions.map Submission.ofAssertion) =
    searchFaults n c assertions
  acceptsSearch : ∀ c, screenSearch n c assertions = .ok [] ↔ WellFormedSearch n c assertions
  refusesSearch : ∀ c faults, screenSearch n c assertions = .ok faults → faults ≠ [] → ∀ b, ∃ v,
    (verifyScreened n assertions c).runOn b = (.ok (.ok v),b) ∧
      v.faults = faults ∧ v.valid = false ∧ v.ruledOut = false ∧ v.tree = none
  failsSearch : ∀ c, (∃ e, screenSearch n c assertions = .error e) ↔
    ∃ f ∈ searchFaults n c assertions, f.isWritable = false
  answersShortSearch : ∀ c, ShortContest n (some c) assertions → ∃ faults, screenSearch n c assertions = .ok faults
  unansweredSearch : ∀ c e, screenSearch n c assertions = .error e → ∀ b,
    (verifyScreened n assertions c).runOn b = (.ok (.error e),b)

/-- Every contest is screened so, whatever integers it is made of: the checks accept exactly what is well-formed, and
nothing else is searched. -/
theorem contest_screened (n : Int) (winner : Option Candidate) (assertions : List Assertion) :
    Screened n winner assertions := by
  constructor
  case submitted => exact Submission.contestFaults_ofAssertion winner
  case accepts => exact screen_eq_nil_iff.trans contestFaults_eq_nil_iff
  case lists =>
    intro faults hscreen hn
    obtain ⟨rfl,_⟩ := screen_eq_ok_iff.mp hscreen
    exact contestFaults_lists hn winner assertions
  case refuses => exact fun _ => contest_refused
  case fails => exact screen_fails_iff
  case answersShort => exact fun h => ⟨_,screenContest_of_short h⟩
  case unanswered => exact fun _ => contest_unanswered
  case submittedSearch => exact fun _ => Submission.searchFaults_ofAssertion
  case acceptsSearch => exact fun _ => screen_eq_nil_iff.trans searchFaults_eq_nil_iff
  case refusesSearch =>
    intro c faults hscreen h b
    obtain ⟨rfl,_⟩ := screen_eq_ok_iff.mp hscreen
    refine ⟨_,afterScreen_runOn hscreen (verify_refused h b),rfl,rfl,?_,rfl⟩
    have hempty : (searchFaults n c assertions).isEmpty = false := by simpa using h
    simp [Verdict.ruledOut,hempty]
  case failsSearch => exact fun _ => screen_fails_iff
  case answersShortSearch => exact fun _ h => ⟨_,screenSearch_of_short h⟩
  case unansweredSearch => exact fun c e hscreen b => congrFun (afterScreen_of_error hscreen _) b

/-- Three of these four are ill-formed for two candidates. The last one has two faults. -/
def illFormedThree : List Assertion := [.neb 0 2,.neb 0 1,.neb 1 1,.nen 1 1 (.ofList [0])]

theorem contest_screened_fiveFaults :
    (contestFaults 2 (some 2) illFormedThree).map Fault.code =
      ["INVALID_CANDIDATE_INDEX","INVALID_CANDIDATE_INDEX","DUPLICATE_ASSERTION_ENDPOINTS",
        "DUPLICATE_ASSERTION_ENDPOINTS","CONTINUING_SET_MISSING_ENDPOINT"] ∧
    (contestFaults 2 (some 2) illFormedThree).map Fault.assertionIndex = [none,some 0,some 2,some 3,some 3] ∧
    screenContest 2 (some 2) illFormedThree = .ok (contestFaults 2 (some 2) illFormedThree) ∧
    Refused 2 (some 2) illFormedThree (contestFaults 2 (some 2) illFormedThree) := by
  have hshort : ShortContest 2 (some 2) illFormedThree := by
    have hten := Text.ten_le_digitBound
    have hmentioned : ∀ a ∈ illFormedThree, ∀ c ∈ a.mentioned, c.natAbs < 10 := by decide
    refine ⟨Nat.lt_of_lt_of_le (by decide) hten,?_,fun a ha c hc => Nat.lt_of_lt_of_le (hmentioned a ha c hc) hten⟩
    rintro _ ⟨⟩
    exact Nat.lt_of_lt_of_le (by decide) hten
  have hscreen := screenContest_of_short hshort
  exact ⟨by decide,by decide,hscreen,(contest_screened _ _ _).refuses _ hscreen (by decide)⟩

/-- A winner out of range whose number is too long is a fault that cannot be put in words. -/
theorem screenContest_of_longWinner {w : Candidate} (hw : Text.digitBound ≤ w.natAbs) (hn : 0 < n)
    (hout : ¬ (0 ≤ w ∧ w < n)) : screenContest n (some w) assertions = .error .tooMany := by
  have hlong : (Value.int w).isWritable = false :=
    Bool.eq_false_iff.mpr fun h => Nat.not_lt.mpr hw (Value.isWritable_int_iff.mp h)
  refine screen_eq_error_iff.mpr ⟨.winnerOutside (.int w) n,?listed,?long⟩
  case listed =>
    rw [contestFaults_eq_append hn,winnerFaults,if_neg (mt inContest_eq_true_iff.mp hout)]
    exact List.mem_append_left _ (List.mem_singleton_self _)
  case long =>
    rw [Fault.isWritable,Fault.shown,Value.itemsWritable,hlong]
    rfl

/-- If the winner's number is out of range and too long, no faults are listed, and no verification reports any. -/
theorem contest_screened_longWinner :
    ¬ (0 ≤ (Text.digitBound : Int) ∧ (Text.digitBound : Int) < 2) ∧
    screenContest 2 (some (Text.digitBound : Int)) [] = .error .tooMany ∧
    ∀ checkWinner b, verifyContestScreened 2 (some (Text.digitBound : Int)) [] checkWinner b = (.error .tooMany,b) := by
  have hout : ¬ (0 ≤ (Text.digitBound : Int) ∧ (Text.digitBound : Int) < 2) := by
    have hten := Text.ten_le_digitBound
    omega
  have hscreen : screenContest 2 (some (Text.digitBound : Int)) [] = .error .tooMany :=
    screenContest_of_longWinner (Nat.le_of_eq (Int.natAbs_natCast Text.digitBound).symm) (by decide) hout
  exact ⟨hout,hscreen,(contest_unanswered hscreen).verifyContest⟩

end RunoffAudit
