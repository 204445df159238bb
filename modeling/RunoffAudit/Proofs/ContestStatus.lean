import RunoffAudit.Contest
import RunoffAudit.Proofs.Verification
import RunoffAudit.Proofs.WorkLimit

/-! # The status of a contest

Without a limit the verification of a contest searches all candidates but the winner. It is proven exactly
if the assertions leave no elimination order to anyone else.
-/
namespace RunoffAudit
open Metered

variable {n : Int} {winner passOver : Option Candidate} {assertions : List Assertion} {b : Budget}
  {c : Candidate} {order : Suffix}

/-- The assertions rule out every elimination order that the winner does not win. -/
def Sufficient (n : Int) (winner : Option Candidate) (assertions : List Assertion) : Prop :=
  ∀ order, IsOrder n order → order.getLast? ≠ winner → ∃ a ∈ assertions, a.Violates order

def searched (n : Int) (passOver : Option Candidate) : List Candidate :=
  (candidates n).filter fun c => some c ≠ passOver

theorem mem_searched_iff : c ∈ searched n passOver ↔ c ∈ candidates n ∧ some c ≠ passOver := by
  simp [searched]

theorem IsOrder.exists_last (ho : IsOrder n order) (hn : 0 < n) :
    ∃ c ∈ candidates n, order.getLast? = some c := by
  cases hlast : order.getLast? with
  | none =>
    have hlen := ho.length_eq
    rw [List.getLast?_eq_none_iff.mp hlast,length_candidates,List.length_nil] at hlen
    omega
  | some c => exact ⟨c,mem_candidates.mpr (ho.mem_iff.mp (List.mem_of_getLast? hlast)),rfl⟩

theorem sufficient_iff (hn : 0 < n) : Sufficient n winner assertions ↔ ∀ c ∈ searched n winner,
    ∀ order, IsOrder n order → order.getLast? = some c → ∃ a ∈ assertions, a.Violates order := by
  constructor
  · intro h c hc order ho hlast
    exact h order ho (hlast ▸ (mem_searched_iff.mp hc).2)
  · intro h order ho hlast
    obtain ⟨c,hc,hlast'⟩ := ho.exists_last hn
    exact h c (mem_searched_iff.mpr ⟨hc,hlast' ▸ hlast⟩) order ho hlast'

/-- The candidates are verified one after the other; if the work is cut off, the first verdicts are there. -/
theorem verdictsFrom_ends (passOver : Option Candidate) (ha : ∀ a ∈ assertions, a.WellFormed n) {left : Nat}
    (hc : ∀ d ∈ candidatesFrom c left, 0 ≤ d ∧ d < n) :
    ∃ k, Ends (verdictsFrom n assertions passOver left c) k
      (fun _ => (((candidatesFrom c left).filter fun d => some d ≠ passOver).map (searchVerdict n assertions),none))
      fun e y => (∃ d, y.2 = some (d,e)) ∧
        y.1 <+: ((candidatesFrom c left).filter fun d => some d ≠ passOver).map (searchVerdict n assertions) := by
  induction left generalizing c with
  | zero => exact ⟨0,.of_noWork fun _ => rfl⟩
  | succ left ih =>
    obtain ⟨k,hk⟩ := ih fun d hd => hc d (List.mem_cons_of_mem c hd)
    rw [verdictsFrom,candidatesFrom]
    by_cases hpass : some c = passOver
    · rw [if_pos hpass,List.filter_cons_of_neg (by simpa using hpass)]
      exact ⟨k,hk⟩
    · rw [if_neg hpass,List.filter_cons_of_pos (by simpa using hpass),List.map_cons]
      have hhere := Ends.of_takes (verify_takes ha (hc c List.mem_cons_self))
      refine ⟨_,hhere.bind (hk.map ?rest) ?here⟩
      case rest =>
        rintro e ⟨others,_⟩ ⟨hstopped,hfirst⟩
        exact ⟨hstopped,List.cons_prefix_cons.mpr ⟨rfl,hfirst⟩⟩
      case here =>
        rintro b e _ rfl _
        exact ⟨_,rfl,⟨c,rfl⟩,List.nil_prefix⟩

/-- The report of a verification that was cut short: the first of the verdicts that there would be. -/
structure ContestReport.CutShort (verdicts : List Verdict) (e : Exhaustion) (r : ContestReport) : Prop where
  status : r.status = .budgetExceeded
  stopped : ∃ c, r.stopped = some (c,e)
  nodesExplored : r.nodesExplored = e.workDone
  verdicts : r.verdicts <+: verdicts

theorem verifyContest_eq (hfaults : contestFaults n winner assertions = []) (checkWinner : Bool) :
    verifyContest n winner assertions checkWinner = do
      let (verdicts,stopped) ← verdictsFrom n assertions (if checkWinner then none else winner) n.toNat 0
      return ⟨n,winner,[],verdicts,stopped,← workDone⟩ := by
  unfold verifyContest
  rw [hfaults]
  rfl

theorem verifyContest_ends (hcontest : WellFormedContest n winner assertions) (checkWinner : Bool) :
    ∃ k, Ends (verifyContest n winner assertions checkWinner) k
      (fun nodes => ⟨n,winner,[],
        (searched n (if checkWinner then none else winner)).map (searchVerdict n assertions),none,nodes⟩)
      (ContestReport.CutShort ((searched n (if checkWinner then none else winner)).map (searchVerdict n assertions))) := by
  obtain ⟨k,hk⟩ :=
    verdictsFrom_ends (if checkWinner then none else winner) hcontest.assertions (candidatesFrom_inContest n)
  rw [candidatesFrom_zero] at hk
  rw [verifyContest_eq (contestFaults_eq_nil_iff.mpr hcontest)]
  refine ⟨_,hk.bind (.of_noWork fun _ => rfl) ?_⟩
  rintro b e ⟨verdicts,_⟩ ⟨⟨c,rfl⟩,hfirst⟩ hdone
  exact ⟨_,rfl,rfl,⟨c,rfl⟩,hdone,hfirst⟩

/-- What the verification of a contest reports when there is no limit. -/
theorem verifyContest_of_unlimited (hb : b.Unlimited) (hcontest : WellFormedContest n winner assertions)
    (checkWinner : Bool) :
    ∃ k, (verifyContest n winner assertions checkWinner b).1 =
      ⟨n,winner,[],(searched n (if checkWinner then none else winner)).map (searchVerdict n assertions),none,
        b.workDone + k⟩ := by
  obtain ⟨k,hk⟩ := verifyContest_ends hcontest checkWinner
  exact ⟨k,congrArg Prod.fst (hk.unlimited b hb)⟩

namespace ContestReport
variable {r : ContestReport}

theorem winnerRuledOut_eq_false_iff :
    r.winnerRuledOut = false ↔ ∀ v ∈ r.verdicts, some v.candidate = r.winner → v.valid = true := by
  simp [winnerRuledOut]

theorem unexcluded_eq_nil_iff :
    r.unexcluded = [] ↔ ∀ v ∈ r.verdicts, some v.candidate ≠ r.winner → v.valid = false := by
  rw [unexcluded,List.map_eq_nil_iff,List.filter_eq_nil_iff]
  apply forall₂_congr
  intro v _
  cases v.valid <;> simp

/-- A finished report is proven exactly if of the candidates searched the winner alone can win. -/
theorem status_eq_proven_iff : r.status = .proven ↔
    r.malformed = [] ∧ r.stopped = none ∧ ∀ v ∈ r.verdicts, (v.valid = true ↔ some v.candidate = r.winner) := by
  have hverdicts : (r.winnerRuledOut = false ∧ r.unexcluded = []) ↔
      ∀ v ∈ r.verdicts, (v.valid = true ↔ some v.candidate = r.winner) := by
    rw [winnerRuledOut_eq_false_iff,unexcluded_eq_nil_iff,← forall₂_and]
    apply forall₂_congr
    intro v _
    cases v.valid <;> simp
  rw [← hverdicts]
  unfold status
  cases hm : r.malformed with
  | cons f fs => simp
  | nil =>
    cases hs : r.stopped with
    | some s => simp
    | none =>
      cases hw : r.winnerRuledOut with
      | true => simp
      | false => cases hu : r.unexcluded <;> simp

end ContestReport

/-- The candidate is not found to be able to win exactly if its orders all violate something. -/
theorem searchVerdict_invalid_iff (ha : ∀ a ∈ assertions, a.WellFormed n) (hc : 0 ≤ c ∧ c < n) :
    (searchVerdict n assertions c).valid = false ↔
      ∀ order, IsOrder n order → order.getLast? = some c → ∃ a ∈ assertions, a.Violates order := by
  rw [← Bool.not_eq_true,searchVerdict_valid_iff hc,survivors_ne_nil_iff ha (placed_singleton hc)]
  simp [getLast?_eq_some_iff_suffix]

/-- A contest is proven exactly if every order that violates nothing is won by the winner. -/
theorem verifyContest_proven_iff (hb : b.Unlimited) (hcontest : WellFormedContest n winner assertions) :
    (verifyContest n winner assertions false b).1.status = .proven ↔ Sufficient n winner assertions := by
  obtain ⟨k,hk⟩ := verifyContest_of_unlimited hb hcontest false
  rw [hk,ContestReport.status_eq_proven_iff,sufficient_iff hcontest.count]
  dsimp only
  rw [List.forall_mem_map]
  simp only [true_and]
  apply forall₂_congr
  intro c hc
  obtain ⟨hc,hother⟩ := mem_searched_iff.mp hc
  rw [← searchVerdict_invalid_iff hcontest.assertions (mem_candidates.mp hc)]
  have hcandidate : some (searchVerdict n assertions c).candidate ≠ winner := hother
  simp [hcandidate]

end RunoffAudit
