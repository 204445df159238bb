import Mathlib.Data.List.TFAE
import RunoffAudit.Proofs.PossibleWinners
import RunoffAudit.Proofs.PruningOrder
import RunoffAudit.Proofs.TrimOutcome

/-! # All commands agree on what suffices

Verifying, ordering, explaining and trimming search in their own ways: candidate by candidate, greedily by
pruning power, in the order given, in canonical order and beyond what is pruned. Each of them comes
down to the suffixes that the losing candidates can still win, so none contradicts another.
-/
namespace RunoffAudit

variable {n : Int} {winner : Option Candidate} {w : Candidate} {assertions : List Assertion} {b b' : Budget}

def openLosers (n : Int) (winner : Option Candidate) (assertions : List Assertion) : List Candidate :=
  (searched n winner).filter fun c => survivors n assertions [c] ≠ []

theorem contestReport_unexcluded_eq_openLosers (checkWinner : Bool) (nodes : Nat) :
    (contestReport n winner assertions checkWinner nodes).unexcluded = openLosers n winner assertions := by
  rw [contestReport_unexcluded,openLosers]
  apply List.filter_congr
  intro c hc
  have hvalid : (searchVerdict n assertions c).valid = true ↔ survivors n assertions [c] ≠ [] :=
    searchVerdict_valid_iff (mem_candidates.mp (mem_searched_iff.mp hc).1)
  rw [Bool.eq_iff_iff,hvalid,decide_eq_true_iff]

theorem sufficient_iff_openLosers (hn : 0 < n) (ha : ∀ a ∈ assertions, a.WellFormed n) :
    Sufficient n winner assertions ↔ openLosers n winner assertions = [] := by
  rw [openLosers,List.filter_eq_nil_iff,sufficient_iff_canWin hn]
  simp only [decide_eq_true_eq]
  constructor
  · intro h c hc hne
    obtain ⟨hc,hw⟩ := mem_searched_iff.mp hc
    exact hw (h c ((canWin_iff_survivors ha (mem_candidates.mp hc)).mpr hne))
  · intro h c hcan
    have hc := hcan.inContest
    by_contra hw
    exact h c (mem_searched_iff.mpr ⟨mem_candidates.mpr hc,hw⟩) ((canWin_iff_survivors ha hc).mp hcan)

theorem losingSurvivors_eq_nil_iff :
    losingSurvivors n winner assertions = [] ↔ openLosers n winner assertions = [] := by
  rw [losingSurvivors,openLosers,List.flatMap_eq_nil_iff,List.filter_eq_nil_iff]
  simp

/-- A trimming fails at the first losing candidate for whom something survives. -/
theorem trimOutcome_eq : trimOutcome n winner assertions =
    match openLosers n winner assertions with
    | [] => .trimmed
    | c :: _ => .insufficient c ((survivors n assertions [c]).headD []) := by
  rw [trimOutcome,← List.head?_filter,← openLosers]
  cases openLosers n winner assertions <;> rfl

theorem trimOutcome_status_eq_trimmed_iff :
    (trimOutcome n winner assertions).status = "TRIMMED" ↔ openLosers n winner assertions = [] := by
  rw [trimOutcome_eq]
  cases openLosers n winner assertions <;> simp [TrimOutcome.status]

theorem trimOutcome_status_ne_insufficient_iff :
    (trimOutcome n winner assertions).status ≠ "INSUFFICIENT" ↔ openLosers n winner assertions = [] := by
  rw [trimOutcome_eq]
  cases openLosers n winner assertions <;> simp [TrimOutcome.status]

theorem trimOutcome_of_not_sufficient (hopen : openLosers n winner assertions ≠ []) :
    ∃ c s, trimOutcome n winner assertions = .insufficient c s ∧ c ∈ openLosers n winner assertions ∧
      (∀ d ∈ openLosers n winner assertions, c ≤ d) ∧ (searchVerdict n assertions c).counterexample = some s := by
  obtain ⟨c,rest,hc⟩ := List.exists_cons_of_ne_nil hopen
  have hmem : c ∈ openLosers n winner assertions := hc ▸ List.mem_cons_self
  obtain ⟨hsearched,hsurvives⟩ := List.mem_filter.mp hmem
  obtain ⟨s,others,hs⟩ := List.exists_cons_of_ne_nil (of_decide_eq_true hsurvives)
  refine ⟨c,s,?_,hmem,?_,?_⟩
  · rw [trimOutcome_eq,hc]
    dsimp only
    rw [hs,List.headD_cons]
  · have hascend : (openLosers n winner assertions).Pairwise (· < ·) := (pairwise_searched n winner).filter _
    rw [hc] at hascend ⊢
    intro d hd
    rcases List.mem_cons.mp hd with rfl | hd
    · exact Int.le_refl d
    · exact Int.le_of_lt (List.rel_of_pairwise_cons hascend hd)
  · rw [searchVerdict_counterexample (mem_candidates.mp (mem_searched_iff.mp hsearched).1),hs]
    rfl

/-- What the four commands find out about one contest fits together. -/
structure Agree (n : Int) (w : Candidate) (assertions : List Assertion) (report : ContestReport)
    (order : PruningOrder) (e : Explanation) (result : TrimResult) : Prop where
  equivalent : [Sufficient n (some w) assertions, report.status = .proven, order.sufficient = true,
    e.remaining = [], result.outcome.status = "TRIMMED", result.outcome.status ≠ "INSUFFICIENT"].TFAE
  remaining_eq : order.remaining = e.remaining
  /-- If the assertions do not suffice, a trimming blames the least candidate that the report does not exclude,
  with the counterexample of the candidate's own verification. -/
  blamed : report.status ≠ .proven → ∃ c s v f, c ∈ report.unexcluded ∧ (∀ d ∈ report.unexcluded, c ≤ d) ∧
    (verify n assertions c).Gives v ∧ v ∈ report.verdicts ∧ v.counterexample = some s ∧
    result.outcome.faults = [f] ∧ f.code = "DID_NOT_RULE_OUT_LOSER" ∧ f.candidate = some (.int c) ∧
    f.details = [("counterexample",.ints s)]

/-- Without a limit the four commands agree on whether the assertions of a well-formed contest suffice, and on
what is missing if not. This holds for both algorithms of a trimming, for all its policies, and whether
or not it sorts. -/
theorem commands_agree {request : TrimRequest} (hb : b.Unlimited) (hb' : b'.Unlimited)
    (hcontest : WellFormedContest n (some w) assertions) (cumulative : Bool)
    (halgorithm : request.algorithm = .minimizeTree ∨ request.algorithm = .minimizeAssertions) :
    ∃ report order e result, (verifyContest n (some w) assertions false b).1 = report ∧
      (pruningOrder n (some w) assertions).Gives (.ok order) ∧
      (explain n (some w) assertions ⟨false,true,cumulative⟩).Gives (.ok e) ∧
      (trim n (some w) assertions request b').1 = .ok result ∧
      Agree n w assertions report order e result := by
  have hn := hcontest.count
  have ha := hcontest.assertions
  obtain ⟨k,hreport⟩ := verifyContest_of_unlimited hb hcontest false
  obtain ⟨order,horder,hordered⟩ := pruningOrderBy_returns_losing hcontest .doubles
  obtain ⟨e,he,hexplained⟩ := explain_hidden_returns cumulative hcontest
  obtain ⟨result,hresult,houtcome⟩ := trim_of_unlimited request hb' hcontest halgorithm
  have hproven : (contestReport n (some w) assertions false (b.workDone + k)).status = .proven ↔
      openLosers n (some w) assertions = [] := by
    rw [← sufficient_iff_openLosers hn ha,← verifyContest_proven_iff hb hcontest,hreport]
    rfl
  refine ⟨contestReport n (some w) assertions false (b.workDone + k),order,e,result,hreport,horder.gives,he.gives,
    hresult,?_⟩
  constructor
  case equivalent =>
    apply List.tfae_of_forall (openLosers n (some w) assertions = [])
    simp only [List.forall_mem_cons,List.not_mem_nil,false_implies,implies_true,and_true]
    rw [PruningOrder.sufficient,List.isEmpty_iff,hordered,hexplained,houtcome]
    exact ⟨sufficient_iff_openLosers hn ha,hproven,losingSurvivors_eq_nil_iff,losingSurvivors_eq_nil_iff,
      trimOutcome_status_eq_trimmed_iff,trimOutcome_status_ne_insufficient_iff⟩
  case remaining_eq => exact hordered.trans hexplained.symm
  case blamed =>
    intro hstatus
    obtain ⟨c,s,hblamed,hc,hleast,hs⟩ := trimOutcome_of_not_sufficient (mt hproven.mpr hstatus)
    have hsearched : c ∈ searched n (some w) := List.mem_of_mem_filter hc
    have hverified := verify_takes ha (mem_candidates.mp (mem_searched_iff.mp hsearched).1)
    rw [contestReport_unexcluded_eq_openLosers,houtcome,hblamed]
    exact ⟨c,s,_,_,hc,hleast,hverified.gives,List.mem_map_of_mem hsearched,hs,rfl,rfl,rfl,rfl⟩

/-- The second losing candidate of three can still win, and the trimming says so. -/
theorem commands_agree_second_open :
    Budget.unlimited.Unlimited ∧ WellFormedContest 3 (some 0) [.neb 0 1] ∧
    ((⟨.minimizeAssertions,some .forever,false⟩ : TrimRequest).algorithm = .minimizeTree ∨
      (⟨.minimizeAssertions,some .forever,false⟩ : TrimRequest).algorithm = .minimizeAssertions) ∧
    ∃ report order e result, (verifyContest 3 (some 0) [.neb 0 1] false .unlimited).1 = report ∧
      (pruningOrder 3 (some 0) [.neb 0 1]).Gives (.ok order) ∧
      (explain 3 (some 0) [.neb 0 1] ⟨false,true,true⟩).Gives (.ok e) ∧
      (trim 3 (some 0) [.neb 0 1] ⟨.minimizeAssertions,some .forever,false⟩ .unlimited).1 = .ok result ∧
      report.unexcluded = [2] ∧ e.remaining = [[0,2]] ∧ result.outcome = .insufficient 2 [0,2] ∧
      Agree 3 0 [.neb 0 1] report order e result := by
  have hb : Budget.unlimited.Unlimited := ⟨rfl,rfl⟩
  have hcontest : WellFormedContest 3 (some 0) [.neb 0 1] := by decide
  have halgorithm : (⟨.minimizeAssertions,some .forever,false⟩ : TrimRequest).algorithm = .minimizeTree ∨
      (⟨.minimizeAssertions,some .forever,false⟩ : TrimRequest).algorithm = .minimizeAssertions := Or.inr rfl
  obtain ⟨report,order,e,result,hreport,horder,he,hresult,h⟩ := commands_agree hb hb hcontest true halgorithm
  have hexplained := Except.ok.inj (Except.ok.inj (he .unlimited hb))
  have htrimmed := Except.ok.inj hresult
  refine ⟨hb,hcontest,halgorithm,report,order,e,result,hreport,horder,he,hresult,?_,?_,?_,h⟩
  · rw [← hreport]
    rfl
  · rw [← hexplained]
    rfl
  · rw [← htrimmed]
    rfl

end RunoffAudit
