import RunoffAudit.Proofs.ContestStatus

/-! # The possible winners and the status of a contest

Without a limit the report of a contest is determined by the set of the candidates that can win. The
verdicts are noted one by one, and what they come to does not depend on where the winner stands among
the candidates: a winner ruled out outranks another candidate not excluded, whichever is found first.
-/
namespace RunoffAudit

variable {n : Int} {winner passOver : Option Candidate} {assertions : List Assertion} {b : Budget}
  {c w : Candidate}

def CanWin (n : Int) (assertions : List Assertion) (c : Candidate) : Prop :=
  ∃ order, IsOrder n order ∧ order.getLast? = some c ∧ ∀ a ∈ assertions, ¬ a.Violates order

theorem CanWin.inContest (h : CanWin n assertions c) : 0 ≤ c ∧ c < n := by
  obtain ⟨order,ho,hlast,_⟩ := h
  exact ho.mem_iff.mp (List.mem_of_getLast? hlast)

theorem canWin_iff_survivors (ha : ∀ a ∈ assertions, a.WellFormed n) (hc : 0 ≤ c ∧ c < n) :
    CanWin n assertions c ↔ survivors n assertions [c] ≠ [] := by
  rw [survivors_ne_nil_iff ha (placed_singleton hc)]
  simp only [CanWin,getLast?_eq_some_iff_suffix]

/-- Neither the policy nor what is recorded decides whether a search tree is valid. -/
theorem rootTree_valid_iff_canWin (recordAll : Bool) (p : Policy) (ha : ∀ a ∈ assertions, a.WellFormed n)
    (hc : 0 ≤ c ∧ c < n) :
    ((⟨n,recordAll⟩ : SearchRule).rootTree p (numbered assertions) c).valid = true ↔ CanWin n assertions c := by
  have h := (SearchRule.rootTree_builds ⟨n,recordAll⟩ p (numbered assertions) hc).valid_iff (placed_singleton hc)
  rw [numbered_map_fst] at h
  exact h.trans (canWin_iff_survivors ha hc).symm

theorem searchVerdict_valid_iff_canWin (ha : ∀ a ∈ assertions, a.WellFormed n) (hc : 0 ≤ c ∧ c < n) :
    (searchVerdict n assertions c).valid = true ↔ CanWin n assertions c :=
  rootTree_valid_iff_canWin false .stopImmediately ha hc

theorem sufficient_iff_canWin (hn : 0 < n) :
    Sufficient n winner assertions ↔ ∀ c, CanWin n assertions c → some c = winner := by
  constructor
  · rintro h c ⟨order,ho,hlast,hnone⟩
    by_contra hc
    obtain ⟨a,ha,hv⟩ := h order ho (hlast ▸ hc)
    exact hnone a ha hv
  · intro h order ho hlast
    obtain ⟨c,_,hlast'⟩ := ho.exists_last hn
    by_contra hnone
    push Not at hnone
    exact hlast (hlast'.trans (h c ⟨order,ho,hlast',hnone⟩))

/-- The status after one more verdict. A winner ruled out outranks whatever was found before, and nothing
found later outranks it. -/
def ContestStatus.note (winner : Option Candidate) (s : ContestStatus) (v : Verdict) : ContestStatus :=
  if some v.candidate = winner then if v.valid then s else .inconsistent
  else if v.valid ∧ s = .proven then .insufficient else s

/-- In whatever order the verdicts come, the outcome is the same. -/
theorem ContestStatus.foldl_note (verdicts : List Verdict) (s : ContestStatus) :
    verdicts.foldl (note winner) s =
      if verdicts.any fun v => some v.candidate = winner && !v.valid then .inconsistent
      else if s = .proven ∧ verdicts.any fun v => v.valid && some v.candidate ≠ winner then .insufficient
      else s := by
  induction verdicts generalizing s with
  | nil => simp
  | cons v rest ih =>
    rw [List.foldl_cons,ih,note,List.any_cons,List.any_cons]
    by_cases hw : some v.candidate = winner
    · by_cases hv : v.valid = true
      · simp [hw,hv]
      · simp [hw,hv]
    · by_cases hv : v.valid = true
      · by_cases hs : s = .proven
        · simp [hw,hv,hs]
        · simp [hw,hv,hs]
      · simp [hw,hv]

namespace ContestReport
variable {r : ContestReport}

theorem status_of_finished (hm : r.malformed = []) (hs : r.stopped = none) :
    r.status = if r.winnerRuledOut then .inconsistent else if r.unexcluded = [] then .proven else .insufficient := by
  simp only [status,hm,hs]
  cases hu : r.unexcluded <;> simp

/-- The status is what noting the verdicts one by one comes to. -/
theorem status_eq_foldl_note (hm : r.malformed = []) (hs : r.stopped = none) :
    r.status = r.verdicts.foldl (ContestStatus.note r.winner) .proven := by
  have hunexcluded : (r.verdicts.any fun v => v.valid && some v.candidate ≠ r.winner) = !r.unexcluded.isEmpty := by
    rw [unexcluded,List.isEmpty_map,Bool.eq_iff_iff]
    simp [List.filter_eq_nil_iff]
  rw [status_of_finished hm hs,ContestStatus.foldl_note,hunexcluded,← winnerRuledOut]
  cases hu : r.unexcluded <;> simp

end ContestReport

/-! ## The report without a limit -/

def contestReport (n : Int) (winner : Option Candidate) (assertions : List Assertion) (checkWinner : Bool)
    (nodes : Nat) : ContestReport :=
  ⟨n,winner,[],(searched n (if checkWinner then none else winner)).map (searchVerdict n assertions),none,nodes⟩

theorem pairwise_searched (n : Int) (passOver : Option Candidate) : (searched n passOver).Pairwise (· < ·) := by
  have hcandidates : (candidates n).Pairwise (· < ·) :=
    List.pairwise_lt_range.map Int.ofNat fun _ _ h => Int.ofNat_lt.mpr h
  exact hcandidates.filter _

/-- There is one verdict per candidate searched. -/
theorem contestReport_candidates (checkWinner : Bool) (nodes : Nat) :
    (contestReport n winner assertions checkWinner nodes).verdicts.map Verdict.candidate =
      searched n (if checkWinner then none else winner) := by
  have hcandidate : Verdict.candidate ∘ searchVerdict n assertions = id := rfl
  rw [contestReport,List.map_map,hcandidate,List.map_id]

theorem contestReport_unexcluded (checkWinner : Bool) (nodes : Nat) :
    (contestReport n winner assertions checkWinner nodes).unexcluded =
      (searched n winner).filter fun c => (searchVerdict n assertions c).valid := by
  unfold ContestReport.unexcluded contestReport searched
  rw [List.filter_map,List.map_map,List.filter_filter,List.filter_filter]
  have hcandidate : Verdict.candidate ∘ searchVerdict n assertions = id := rfl
  rw [hcandidate,List.map_id]
  apply List.filter_congr
  intro c _
  have hc : (searchVerdict n assertions c).candidate = c := rfl
  cases checkWinner <;> simp [hc,Bool.and_comm]

theorem mem_unexcluded_iff (ha : ∀ a ∈ assertions, a.WellFormed n) (checkWinner : Bool) (nodes : Nat) :
    c ∈ (contestReport n winner assertions checkWinner nodes).unexcluded ↔
      CanWin n assertions c ∧ some c ≠ winner := by
  rw [contestReport_unexcluded,List.mem_filter,mem_searched_iff,mem_candidates]
  constructor
  · rintro ⟨⟨hc,hw⟩,hv⟩
    exact ⟨(searchVerdict_valid_iff_canWin ha hc).mp hv,hw⟩
  · rintro ⟨hcan,hw⟩
    have hc := hcan.inContest
    exact ⟨⟨hc,hw⟩,(searchVerdict_valid_iff_canWin ha hc).mpr hcan⟩

theorem contestReport_winnerRuledOut_iff (ha : ∀ a ∈ assertions, a.WellFormed n)
    (hw : 0 ≤ w ∧ w < n) (checkWinner : Bool) (nodes : Nat) :
    (contestReport n (some w) assertions checkWinner nodes).winnerRuledOut = true ↔
      checkWinner = true ∧ ¬ CanWin n assertions w := by
  have hvalid := searchVerdict_valid_iff_canWin ha hw
  have hsearched : w ∈ searched n (if checkWinner then none else some w) ↔ checkWinner = true := by
    rw [mem_searched_iff,and_iff_right (mem_candidates.mpr hw)]
    cases checkWinner <;> simp
  rw [← hvalid,← hsearched]
  simp only [ContestReport.winnerRuledOut,contestReport,List.any_map,List.any_eq_true,Function.comp_apply]
  constructor
  · rintro ⟨c,hc,h⟩
    obtain ⟨he,hv⟩ : c = w ∧ (searchVerdict n assertions c).valid = false := by
      simpa [searchVerdict] using h
    subst he
    exact ⟨hc,by simp [hv]⟩
  · rintro ⟨hc,hv⟩
    exact ⟨w,hc,by simpa [searchVerdict] using hv⟩

theorem contestReport_unexcluded_eq_nil_iff (ha : ∀ a ∈ assertions, a.WellFormed n)
    (checkWinner : Bool) (nodes : Nat) :
    (contestReport n (some w) assertions checkWinner nodes).unexcluded = [] ↔
      ∀ c, CanWin n assertions c → c = w := by
  rw [List.eq_nil_iff_forall_not_mem]
  apply forall_congr'
  intro c
  rw [mem_unexcluded_iff ha]
  simp

theorem contestReport_hasCode_iff (checkWinner : Bool) (nodes : Nat) :
    (∃ f ∈ (contestReport n (some w) assertions checkWinner nodes).faults, f.code = "RULED_OUT_WINNER") ↔
      (contestReport n (some w) assertions checkWinner nodes).winnerRuledOut = true := by
  have hfaults : (contestReport n (some w) assertions checkWinner nodes).faults =
      if (contestReport n (some w) assertions checkWinner nodes).winnerRuledOut then [.winnerRuledOut w] else [] :=
    List.append_nil _
  rw [hfaults]
  split
  · simp_all [Fault.code]
  · simp_all

/-- The report agrees with the set of the candidates that can win. -/
structure ContestReport.Describes (r : ContestReport) (n : Int) (w : Candidate) (assertions : List Assertion)
    (checkWinner : Bool) : Prop where
  /-- Nobody looked for orders won by the winner. -/
  unchecked : checkWinner = false →
    (r.status = .proven ↔ ∀ c, CanWin n assertions c → c = w) ∧
    (r.status = .insufficient ↔ ¬ ∀ c, CanWin n assertions c → c = w)
  /-- There must be an order won by the winner, too. -/
  checked : checkWinner = true →
    (r.status = .inconsistent ↔ ¬ CanWin n assertions w) ∧
    (r.status = .proven ↔ ∀ c, CanWin n assertions c ↔ c = w) ∧
    (r.status = .insufficient ↔ CanWin n assertions w ∧ ¬ ∀ c, CanWin n assertions c ↔ c = w)
  status_eq : r.status = r.verdicts.foldl (ContestStatus.note (some w)) .proven
  unexcluded_ascend : r.unexcluded.Pairwise (· < ·)
  mem_unexcluded : ∀ c, c ∈ r.unexcluded ↔ CanWin n assertions c ∧ c ≠ w
  verdicts_ascend : (r.verdicts.map Verdict.candidate).Pairwise (· < ·)
  mem_verdicts : ∀ c, c ∈ r.verdicts.map Verdict.candidate ↔
    (0 ≤ c ∧ c < n) ∧ (checkWinner = true ∨ c ≠ w)
  valid_iff : ∀ v ∈ r.verdicts, v.valid = true ↔ CanWin n assertions v.candidate
  hasCode_iff : (∃ f ∈ r.faults, f.code = "RULED_OUT_WINNER") ↔ r.status = .inconsistent

/-- The verification of a well-formed contest, without a limit, reports what the set of the possible winners
is, whether or not orders won by the winner are searched for. -/
theorem verifyContest_describes (hb : b.Unlimited) (hcontest : WellFormedContest n (some w) assertions)
    (checkWinner : Bool) :
    ∃ report, (verifyContest n (some w) assertions checkWinner b).1 = report ∧
      report.Describes n w assertions checkWinner := by
  have hw := hcontest.declared
  have ha := hcontest.assertions
  obtain ⟨k,hk⟩ := verifyContest_of_unlimited hb hcontest checkWinner
  have hruled := contestReport_winnerRuledOut_iff ha hw checkWinner (b.workDone + k)
  have hnone := contestReport_unexcluded_eq_nil_iff (w := w) ha checkWinner (b.workDone + k)
  have hstatus : (contestReport n (some w) assertions checkWinner (b.workDone + k)).status = _ :=
    ContestReport.status_of_finished rfl rfl
  refine ⟨contestReport n (some w) assertions checkWinner (b.workDone + k),hk,?_⟩
  constructor
  case unchecked =>
    rintro rfl
    rw [hstatus,if_neg (by simp [hruled]),← hnone]
    split <;> simp_all
  case checked =>
    rintro rfl
    have hothers : (∀ c, CanWin n assertions c ↔ c = w) ↔
        CanWin n assertions w ∧ ∀ c, CanWin n assertions c → c = w :=
      ⟨fun h => ⟨(h w).mpr rfl,fun c => (h c).mp⟩,fun h c => ⟨h.2 c,fun e => e ▸ h.1⟩⟩
    rw [hothers,hstatus,← hnone]
    by_cases hcan : CanWin n assertions w
    · rw [if_neg (by simp [hruled,hcan])]
      split <;> simp_all
    · rw [if_pos (hruled.mpr ⟨rfl,hcan⟩)]
      simp [hcan]
  case status_eq => exact ContestReport.status_eq_foldl_note rfl rfl
  case unexcluded_ascend =>
    rw [contestReport_unexcluded]
    exact (pairwise_searched n _).filter _
  case mem_unexcluded =>
    intro c
    rw [mem_unexcluded_iff ha]
    simp
  case verdicts_ascend =>
    rw [contestReport_candidates]
    exact pairwise_searched n _
  case mem_verdicts =>
    intro c
    rw [contestReport_candidates,mem_searched_iff,mem_candidates]
    cases checkWinner <;> simp
  case valid_iff =>
    intro v hv
    obtain ⟨c,hc,rfl⟩ := List.mem_map.mp hv
    exact searchVerdict_valid_iff_canWin ha (mem_candidates.mp (mem_searched_iff.mp hc).1)
  case hasCode_iff =>
    rw [contestReport_hasCode_iff,hstatus]
    split
    · simp_all
    · split <;> simp_all

/-- Of two candidates the winner 1 is ruled out, and that outranks what is found of the other before. -/
theorem verifyContest_describes_two :
    Budget.unlimited.Unlimited ∧ WellFormedContest 2 (some 1) [.neb 0 1] ∧
    ∃ report, (verifyContest 2 (some 1) [.neb 0 1] true .unlimited).1 = report ∧
      report.status = .inconsistent ∧ report.unexcluded = [0] ∧
      report.Describes 2 1 [.neb 0 1] true := by
  have hcontest : WellFormedContest 2 (some 1) [.neb 0 1] := by decide
  obtain ⟨report,rfl,h⟩ := verifyContest_describes (b := .unlimited) ⟨rfl,rfl⟩ hcontest true
  exact ⟨⟨rfl,rfl⟩,hcontest,_,rfl,rfl,rfl,h⟩

end RunoffAudit
