import RunoffAudit.Proofs.VerificationCost

/-! # What a budget that sufficed for trimming suffices for

A budget, whatever its limits, admits a number of units or does not, and what it admits it admits in every computation
that takes no more. A trimming that was finished shows that its budget admits as many units as there are nodes in
its trees. The verification of the kept assertions visits no more, so it is finished on the same budget.
-/
namespace RunoffAudit
open Metered

variable {α : Type} {b b' : Budget} {j k : Nat} {n : Int} {winner passOver : Option Candidate}
  {assertions : List Assertion} {c : Candidate}

namespace Budget

/-- The units can be spent. No units always can. -/
def Admits (b : Budget) (k : Nat) : Prop := k = 0 ∨ (b.after k).exceeded = false

theorem exceeded_after_mono (h : (b.after k).exceeded = false) (hle : j ≤ k) : (b.after j).exceeded = false := by
  obtain ⟨hwork,htime⟩ := Bool.or_eq_false_iff.mp h
  refine Bool.or_eq_false_iff.mpr ⟨?_,htime⟩
  show b.workLimit.any (· < b.workDone + j) = false
  have hwork : b.workLimit.any (· < b.workDone + k) = false := hwork
  cases hlimit : b.workLimit with
  | none => rfl
  | some limit =>
    rw [hlimit] at hwork
    have hwork : ¬ limit < b.workDone + k := of_decide_eq_false hwork
    exact decide_eq_false (by omega)

theorem Admits.mono (h : b.Admits k) (hle : j ≤ k) : b.Admits j := by
  rcases h with rfl | h
  · exact Or.inl (Nat.le_zero.mp hle)
  · exact Or.inr (exceeded_after_mono h hle)

theorem admits_add_iff : b.Admits (j + k) ↔ b.Admits j ∧ (b.after j).Admits k := by
  constructor
  · intro h
    refine ⟨h.mono (Nat.le_add_right j k),?_⟩
    rcases h with h | h
    · exact Or.inl (Nat.eq_zero_of_add_eq_zero_left h)
    · exact Or.inr (Budget.after_after b j k ▸ h)
  · rintro ⟨hj,rfl | hk⟩
    · exact hj
    · exact Or.inr (Budget.after_after b j k ▸ hk)

/-- What is admitted is within the limit on the work. -/
theorem Admits.le_limit {limit : Nat} (h : b.Admits k) (hfresh : b.workDone = 0) (hlimit : b.workLimit = some limit) :
    k ≤ limit := by
  rcases h with rfl | h
  · exact Nat.zero_le limit
  · have hwork : b.workLimit.any (· < b.workDone + k) = false := (Bool.or_eq_false_iff.mp h).1
    rw [hlimit,hfresh] at hwork
    have hwork : ¬ limit < 0 + k := of_decide_eq_false hwork
    omega

end Budget

/-! ## Computations -/

theorem tick_of_admits (h : b.Admits 1) : tick.runOn b = (.ok (),b.after 1) := by
  have hspend : b.spend.exceeded = false := h.resolve_left Nat.one_ne_zero
  show (if b.spend.exceeded then _ else _) = _
  rw [hspend]
  rfl

theorem admits_of_tick (h : tick.runOn b = (.ok (),b')) : b.Admits 1 ∧ b' = b.after 1 := by
  have h : (if b.spend.exceeded then _ else ((.ok () : Except Exhaustion Unit),b.spend)) = (.ok (),b') := h
  split at h
  · cases h
  case isFalse hspend =>
    cases h
    exact ⟨Or.inr (Bool.eq_false_iff.mpr hspend),rfl⟩

theorem spendUnits_of_admits (h : b.Admits k) : (spendUnits k).runOn b = (.ok (),b.after k) := by
  induction k generalizing b with
  | zero => rfl
  | succ k ih =>
    obtain ⟨hone,hrest⟩ := Budget.admits_add_iff.mp (Nat.add_comm k 1 ▸ h)
    calc (spendUnits (k + 1)).runOn b = (spendUnits k).runOn (b.after 1) := runOn_bind_ok (tick_of_admits hone)
      _ = (.ok (),(b.after 1).after k) := ih hrest
      _ = (.ok (),b.after (k + 1)) := by rw [Budget.after_after,Nat.add_comm]

theorem admits_of_spendUnits (h : (spendUnits k).runOn b = (.ok (),b')) : b.Admits k ∧ b' = b.after k := by
  induction k generalizing b with
  | zero =>
    cases h
    exact ⟨Or.inl rfl,rfl⟩
  | succ k ih =>
    rw [spendUnits] at h
    rcases hone : tick.runOn b with ⟨e | ⟨⟩,b₁⟩
    · rw [runOn_bind_error hone] at h
      cases h
    · obtain ⟨hfirst,rfl⟩ := admits_of_tick hone
      rw [runOn_bind_ok hone] at h
      obtain ⟨hrest,rfl⟩ := ih h
      rw [Budget.after_after,Nat.add_comm 1 k]
      exact ⟨Nat.add_comm 1 k ▸ Budget.admits_add_iff.mpr ⟨hfirst,hrest⟩,rfl⟩

namespace Metered
variable {m : Metered α} {x y : α}

theorem Takes.runOn_of_admits (hm : m.Takes k x) (h : b.Admits k) : m.runOn b = (.ok x,b.after k) := by
  rw [show m = (do spendUnits k; return x) from hm,runOn_bind_ok (spendUnits_of_admits h)]
  rfl

theorem Takes.admits_of_runOn (hm : m.Takes k x) (h : m.runOn b = (.ok y,b')) : b.Admits k ∧ b' = b.after k := by
  rw [show m = (do spendUnits k; return x) from hm] at h
  rcases hs : (spendUnits k).runOn b with ⟨e | ⟨⟩,b₁⟩
  · rw [runOn_bind_error hs] at h
    cases h
  · rw [runOn_bind_ok hs] at h
    cases h
    exact admits_of_spendUnits hs

end Metered

/-! ## A trimming that was finished -/

theorem searchLosers_admits {r : SearchRule} {p : Policy} {carried : List Numbered} {left : Nat} {trees : List Node}
    (h : searchLosers r p carried winner left c b = ((trees,.allRuledOut),b')) :
    b.Admits (trees.map Node.size).sum ∧ b' = b.after (trees.map Node.size).sum := by
  induction left generalizing c b trees with
  | zero =>
    cases h
    exact ⟨Or.inl rfl,rfl⟩
  | succ left ih =>
    rw [searchLosers] at h
    by_cases hc : some c = winner
    · rw [if_pos hc] at h
      exact ih h
    · rw [if_neg hc] at h
      rcases hs : (searchTree r p carried c).runOn b with ⟨e | tree,b₁⟩
      · rw [attempt_bind hs] at h
        cases h
      · have htakes := searchTree_takes r p carried c
        rw [attempt_bind hs] at h
        obtain rfl := htakes.eq_of_runOn hs
        obtain ⟨hfirst,rfl⟩ := htakes.admits_of_runOn hs
        dsimp only at h
        split at h
        · cases h
        · rcases hrest : searchLosers r p carried winner left (c + 1)
            (b.after (r.rootTree p carried c).size) with ⟨⟨others,ending⟩,b₂⟩
          rw [run_bind hrest] at h
          cases h
          obtain ⟨hothers,rfl⟩ := ih hrest
          rw [List.map_cons,List.sum_cons,Budget.after_after]
          exact ⟨Budget.admits_add_iff.mpr ⟨hfirst,hothers⟩,rfl⟩

theorem trimOrdered_admits {algorithm : TrimAlgorithm} {p : Policy} {order : List Nat} {result : TrimResult}
    (h : trimOrdered n winner assertions algorithm p order b = (.ok result,b'))
    (htrimmed : result.outcome = .trimmed) : b.Admits result.nodesExplored := by
  unfold trimOrdered at h
  rcases hs : searchLosers ⟨n,true⟩ p (numbered (order.filterMap (assertions[·]?))) winner n.toNat 0 b
    with ⟨⟨trees,ending⟩,b₁⟩
  rw [run_bind hs] at h
  cases ending with
  | exhausted e =>
    cases h
    cases htrimmed
  | survivor c tree =>
    cases h
    cases htrimmed
  | allRuledOut =>
    have hadmits := (searchLosers_admits hs).1
    rw [List.sum_eq_foldl] at hadmits
    dsimp only at h
    rcases hc : (Requirement.choose (Requirement.ofNodes trees)).runOn b₁ with ⟨e | chosen,b₂⟩
    · rw [attempt_bind hc] at h
      cases h
      cases htrimmed
    · rw [attempt_bind hc] at h
      cases chosen with
      | none => cases h
      | some selected =>
        cases h
        exact hadmits

/-- How many nodes the verdicts on the candidates visit. -/
def searchNodes (n : Int) (assertions : List Assertion) (cs : List Candidate) : Nat :=
  (cs.map fun c => (verdictTree n assertions c).size).sum

theorem searchNodes_cons (n : Int) (assertions : List Assertion) (c : Candidate) (cs : List Candidate) :
    searchNodes n assertions (c :: cs) = (verdictTree n assertions c).size + searchNodes n assertions cs := by
  rw [searchNodes,List.map_cons,List.sum_cons]
  rfl

/-- The kept assertions are searched inside the trees of the trimming. -/
theorem searchNodes_kept_le {algorithm : TrimAlgorithm} {p : Policy} {order : List Nat} {result : TrimResult}
    (ha : ∀ a ∈ assertions, a.WellFormed n) (horder : order.Perm (List.range assertions.length))
    (h : trimOrdered n winner assertions algorithm p order b = (.ok result,b'))
    (htrimmed : result.outcome = .trimmed) :
    searchNodes n result.assertions (searched n winner) ≤ result.nodesExplored := by
  obtain ⟨horiginal,htrees,selected,hkept,hmet⟩ := trimOrdered_meets ha h htrimmed
  rw [searchNodes,TrimResult.nodesExplored,htrees,List.map_map,← List.sum_eq_foldl]
  apply List.sum_le_sum
  intro c hc
  have hrange := mem_candidates.mp (mem_searched_iff.mp hc).1
  exact (verdictTree_within_of_isMet (SearchRule.rootTree_builds ⟨n,true⟩ p _ hrange) (hmet c hc)
    (fun _ => mem_assertions_of_selected horiginal hkept (lt_length_of_mem_order horder)) hrange).size_le

/-! ## The verification of the kept assertions -/

theorem verdictsFrom_of_admits (ha : ∀ a ∈ assertions, a.WellFormed n) {left : Nat}
    (hc : ∀ d ∈ candidatesFrom c left, 0 ≤ d ∧ d < n)
    (h : b.Admits (searchNodes n assertions ((candidatesFrom c left).filter fun d => some d ≠ passOver))) :
    verdictsFrom n assertions passOver left c b =
      ((((candidatesFrom c left).filter fun d => some d ≠ passOver).map (searchVerdict n assertions),none),
        b.after (searchNodes n assertions ((candidatesFrom c left).filter fun d => some d ≠ passOver))) := by
  induction left generalizing c b with
  | zero => rfl
  | succ left ih =>
    have hrest : ∀ d ∈ candidatesFrom (c + 1) left, 0 ≤ d ∧ d < n := fun d hd => hc d (List.mem_cons_of_mem c hd)
    rw [candidatesFrom] at h ⊢
    rw [verdictsFrom]
    by_cases hpass : some c = passOver
    · rw [if_pos hpass]
      rw [List.filter_cons_of_neg (by simpa using hpass)] at h ⊢
      exact ih hrest h
    · rw [if_neg hpass]
      rw [List.filter_cons_of_pos (by simpa using hpass),searchNodes_cons] at h ⊢
      obtain ⟨hfirst,hothers⟩ := Budget.admits_add_iff.mp h
      have hrun := (verify_takes ha (hc c List.mem_cons_self)).runOn_of_admits hfirst
      rw [attempt_bind hrun,← Budget.after_after]
      exact run_bind (ih hrest hothers)

theorem verifyContest_of_admits (hfaults : contestFaults n winner assertions = [])
    (h : b.Admits (searchNodes n assertions (searched n winner))) :
    (verifyContest n winner assertions false b).1 =
      ⟨n,winner,[],(searched n winner).map (searchVerdict n assertions),none,
        b.workDone + searchNodes n assertions (searched n winner)⟩ := by
  obtain ⟨_,_,ha⟩ := contestFaults_eq_nil_iff.mp hfaults
  rw [searched,← candidatesFrom_zero] at h ⊢
  rw [verifyContest_eq hfaults]
  have hrun := verdictsFrom_of_admits ha (candidatesFrom_inContest n) h
  exact congrArg Prod.fst (run_bind hrun)

/-- A trimming that was finished on a budget is verified on it. The report is proven, and no more nodes were visited
for it than for the trimming. -/
theorem verifyContest_kept {request : TrimRequest} {result : TrimResult} (halgorithm : request.algorithm ≠ .keepAll)
    (hresult : (trim n winner assertions request b).1 = .ok result) (htrimmed : result.outcome = .trimmed) :
    result.original = assertions ∧ b.Admits result.nodesExplored ∧
      contestFaults n winner result.assertions = [] ∧
      (verifyContest n winner result.assertions false b).1.status = .proven ∧
      (verifyContest n winner result.assertions false b).1.nodesExplored ≤ b.workDone + result.nodesExplored := by
  obtain ⟨hfaults,p,hordered⟩ := trim_eq_trimOrdered halgorithm hresult htrimmed
  have hcontest := contestFaults_eq_nil_iff.mp hfaults
  have ha := hcontest.assertions
  have horder := searchOrder_perm request.sort assertions
  obtain ⟨horiginal,_⟩ := trimOrdered_meets ha (Prod.ext hordered rfl) htrimmed
  have hkeptContest : WellFormedContest n winner result.assertions :=
    hcontest.of_subset fun a hm => horiginal ▸ mem_original_of_mem_assertions hm
  have hadmits : b.Admits result.nodesExplored := trimOrdered_admits (Prod.ext hordered rfl) htrimmed
  have hle : searchNodes n result.assertions (searched n winner) ≤ result.nodesExplored :=
    searchNodes_kept_le ha horder (Prod.ext hordered rfl) htrimmed
  have hnone : contestFaults n winner result.assertions = [] := contestFaults_eq_nil_iff.mpr hkeptContest
  have hreport := verifyContest_of_admits hnone (hadmits.mono hle)
  refine ⟨horiginal,hadmits,hnone,?status,?nodes⟩
  case status =>
    rw [hreport,ContestReport.status_eq_proven_iff]
    refine ⟨rfl,rfl,List.forall_mem_map.mpr ?_⟩
    intro c hc
    obtain ⟨hrange,hother⟩ := mem_searched_iff.mp hc
    have hinvalid : (searchVerdict n result.assertions c).valid = false := by
      apply (searchVerdict_invalid_iff hkeptContest.assertions (mem_candidates.mp hrange)).mpr
      intro order ho hlast
      exact exists_kept_violates ha horder (Prod.ext hordered rfl) htrimmed hc order ho
        (getLast?_eq_some_iff_suffix.mp hlast)
    rw [hinvalid]
    exact ⟨fun h => Bool.noConfusion h,fun h => absurd h hother⟩
  case nodes =>
    rw [hreport]
    exact Nat.add_le_add_left hle b.workDone

end RunoffAudit
