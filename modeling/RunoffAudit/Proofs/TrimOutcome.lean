import Mathlib.Data.List.Find
import RunoffAudit.Proofs.Trimming

/-! # How a trimming ends

Without a limit the trimming fails at the first losing candidate that can still win, and names the first
suffix that survives there. Neither the policy nor the order in which the assertions are searched
has a part in this, although both shape the trees.
-/
namespace RunoffAudit
open Metered

variable {n : Int} {winner : Option Candidate} {w c : Candidate} {assertions : List Assertion}
  {order : List Nat} {b : Budget} {p : Policy} {a : Assertion}

/-- The end of a search whose first valid tree, if any, is that of the given candidate. -/
def LoserSearch.atFirst (tree : Candidate → Node) : Option Candidate → LoserSearch
  | none => .allRuledOut
  | some c => .survivor c (tree c)

/-- The search of the losing candidates ends at the first one whose tree is valid, unless the work is cut off. -/
theorem searchLosers_ends (r : SearchRule) (p : Policy) (carried : List Numbered) (winner : Option Candidate)
    (left : Nat) (c : Candidate) :
    ∃ trees k, Ends (searchLosers r p carried winner left c) k
      (fun _ => (trees,.atFirst (r.rootTree p carried)
        (((candidatesFrom c left).filter fun d => some d ≠ winner).find? fun d => (r.rootTree p carried d).valid)))
      fun e y => y.2 = .exhausted e := by
  induction left generalizing c with
  | zero => exact ⟨[],0,.of_noWork fun _ => rfl⟩
  | succ left ih =>
    rw [searchLosers,candidatesFrom]
    by_cases hc : some c = winner
    · rw [if_pos hc,List.filter_cons_of_neg (by simpa using hc)]
      exact ih (c + 1)
    · rw [if_neg hc,List.filter_cons_of_pos (by simpa using hc),List.find?_cons]
      have hhere := Ends.of_takes (searchTree_takes r p carried c)
      cases hv : (r.rootTree p carried c).valid with
      | true =>
        refine ⟨[r.rootTree p carried c],_,hhere.bind (.of_noWork ?stop) ?cut⟩
        case stop =>
          intro b
          dsimp only
          rw [if_pos hv]
          rfl
        case cut =>
          rintro b e _ rfl _
          exact ⟨_,rfl,rfl⟩
      | false =>
        obtain ⟨trees,k,hk⟩ := ih (c + 1)
        refine ⟨r.rootTree p carried c :: trees,(r.rootTree p carried c).size + k,hhere.bind ?rest ?cut⟩
        case rest =>
          dsimp only
          rw [if_neg (by simp [hv])]
          exact hk.map fun _ _ h => h
        case cut =>
          rintro b e _ rfl _
          exact ⟨_,rfl,rfl⟩

def trimOutcome (n : Int) (winner : Option Candidate) (assertions : List Assertion) : TrimOutcome :=
  match (searched n winner).find? fun c => survivors n assertions [c] ≠ [] with
  | none => .trimmed
  | some c => .insufficient c ((survivors n assertions [c]).headD [])

theorem rootTree_valid_eq {r : SearchRule} {carried : List Numbered} (hc : 0 ≤ c ∧ c < r.n)
    (hcarried : ∀ a, a ∈ carried.map (·.1) ↔ a ∈ assertions) :
    (r.rootTree p carried c).valid = decide (survivors r.n assertions [c] ≠ []) := by
  have h := (r.rootTree_builds p carried hc).valid_iff (placed_singleton hc)
  rw [survivors_congr_of_mem_iff (placed_singleton hc) hcarried] at h
  rw [Bool.eq_iff_iff,h,decide_eq_true_iff]

theorem rootTree_firstValidLeaf {r : SearchRule} {carried : List Numbered} (hc : 0 ≤ c ∧ c < r.n)
    (hcarried : ∀ a, a ∈ carried.map (·.1) ↔ a ∈ assertions) :
    (r.rootTree p carried c).firstValidLeaf.map Node.suffix = (survivors r.n assertions [c]).head? := by
  have h := (r.rootTree_builds p carried hc).validLeaves_eq (placed_singleton hc)
  rw [survivors_congr_of_mem_iff (placed_singleton hc) hcarried] at h
  rw [Node.firstValidLeaf_map_suffix,h]

/-- The answer of a trimming that was cut short: all assertions are kept. -/
def KeepsAll (assertions : List Assertion) (e : Exhaustion) (y : Except TrimError TrimResult) : Prop :=
  ∃ result, y = .ok result ∧ result.outcome = .unoptimized e ∧ result.original = assertions ∧
    result.kept.Perm (List.range assertions.length)

theorem trimOrdered_ends (winner : Option Candidate) (algorithm : TrimAlgorithm) (p : Policy)
    (ha : ∀ a ∈ assertions, a.WellFormed n) (horder : order.Perm (List.range assertions.length)) :
    ∃ result k, Ends (trimOrdered n winner assertions algorithm p order) k (fun _ => .ok result)
      (KeepsAll assertions) ∧ result.outcome = trimOutcome n winner assertions := by
  have hcarried : ∀ a, a ∈ (numbered (order.filterMap (assertions[·]?))).map (·.1) ↔ a ∈ assertions := by
    intro a
    rw [numbered_map_fst]
    exact mem_filterMap_order_iff horder
  obtain ⟨trees,k,hs⟩ := searchLosers_ends ⟨n,true⟩ p (numbered (order.filterMap (assertions[·]?))) winner
    n.toNat 0
  have hfirst : (searched n winner).find? (fun d =>
      ((⟨n,true⟩ : SearchRule).rootTree p (numbered (order.filterMap (assertions[·]?))) d).valid) =
      (searched n winner).find? fun c => survivors n assertions [c] ≠ [] :=
    List.find?_congr fun c hc =>
      rootTree_valid_eq (r := ⟨n,true⟩) (mem_candidates.mp (mem_searched_iff.mp hc).1) hcarried
  rw [candidatesFrom_zero,← searched,hfirst] at hs
  unfold trimOrdered trimOutcome
  cases hloser : (searched n winner).find? fun c => survivors n assertions [c] ≠ [] with
  | some c =>
    rw [hloser] at hs
    have hc : c ∈ searched n winner := List.mem_of_find?_eq_some hloser
    have hleaf := rootTree_firstValidLeaf (r := ⟨n,true⟩) (p := p)
      (mem_candidates.mp (mem_searched_iff.mp hc).1) hcarried
    refine ⟨_,_,hs.bind (.of_noWork fun _ => rfl) ?cut,?blamed⟩
    case cut =>
      rintro b e ⟨others,_⟩ rfl _
      exact ⟨_,rfl,_,rfl,rfl,rfl,horder⟩
    case blamed =>
      dsimp only
      rw [hleaf,← List.headD_eq_head?_getD]
  | none =>
    rw [hloser] at hs
    obtain ⟨htrees,hinvalid⟩ := searchLosers_allRuledOut (hs.unlimited .unlimited ⟨rfl,rfl⟩)
    rw [candidatesFrom_zero] at htrees
    obtain ⟨selected,⟨j,hselected⟩,_⟩ :=
      choose_trees_returns (fun a hm => ha a (mem_of_mem_filterMap_order hm)) htrees hinvalid
    refine ⟨_,_,hs.bind ((Ends.of_takes hselected).bind (.of_noWork fun _ => rfl) ?cutSelection) ?cut,rfl⟩
    case cutSelection =>
      rintro b e _ rfl _
      exact ⟨_,rfl,_,rfl,rfl,rfl,horder⟩
    case cut =>
      rintro b e ⟨others,_⟩ rfl _
      exact ⟨_,rfl,_,rfl,rfl,rfl,horder⟩

theorem trim_ends {request : TrimRequest} {own : Policy} (hfaults : contestFaults n winner assertions = [])
    (hown : request.algorithm.policy? = some own) :
    ∃ result k, Ends (trim n winner assertions request) k (fun _ => .ok result) (KeepsAll assertions) ∧
      result.outcome = trimOutcome n winner assertions := by
  obtain ⟨_,_,ha⟩ := contestFaults_eq_nil_iff.mp hfaults
  rw [trim_eq_of_policy hfaults hown]
  exact trimOrdered_ends winner _ _ ha (searchOrder_perm request.sort assertions)

theorem TrimAlgorithm.eq_keepAll_of_known {algorithm : TrimAlgorithm} (hknown : algorithm ∈ known)
    (hown : algorithm.policy? = none) : algorithm = .keepAll := by
  cases algorithm with
  | keepAll => rfl
  | minimizeTree => cases hown
  | minimizeAssertions => cases hown
  | other word => simp [known] at hknown

theorem TrimAlgorithm.exists_policy {algorithm : TrimAlgorithm}
    (h : algorithm = .minimizeTree ∨ algorithm = .minimizeAssertions) : ∃ own, algorithm.policy? = some own := by
  rcases h with rfl | rfl
  · exact ⟨.stopImmediately,rfl⟩
  · exact ⟨.stopOnNEB,rfl⟩

/-- Every trimming ends with one answer if it is not cut short, and a known algorithm is not refused. -/
theorem trim_answer_ends (request : TrimRequest) (hfaults : contestFaults n winner assertions = []) :
    ∃ answer k, Ends (trim n winner assertions request) k (fun _ => answer) (KeepsAll assertions) ∧
      (request.algorithm ∈ TrimAlgorithm.known → ∃ result, answer = .ok result) := by
  cases hown : request.algorithm.policy? with
  | some own =>
    obtain ⟨result,k,hk,_⟩ := trim_ends hfaults hown
    exact ⟨_,k,hk,fun _ => ⟨result,rfl⟩⟩
  | none =>
    rw [trim_eq_of_no_policy hfaults hown]
    refine ⟨_,0,.of_noWork fun _ => rfl,?_⟩
    intro hknown
    rw [if_pos (TrimAlgorithm.eq_keepAll_of_known hknown hown)]
    exact ⟨_,rfl⟩

/-- A trimming by a search of a well-formed contest ends as `trimOutcome` says, whatever the policy and whether
or not the assertions are sorted first. -/
theorem trim_of_unlimited (request : TrimRequest) (hb : b.Unlimited)
    (hcontest : WellFormedContest n winner assertions)
    (halgorithm : request.algorithm = .minimizeTree ∨ request.algorithm = .minimizeAssertions) :
    ∃ result, (trim n winner assertions request b).1 = .ok result ∧
      result.outcome = trimOutcome n winner assertions := by
  have hfaults : contestFaults n winner assertions = [] := contestFaults_eq_nil_iff.mpr hcontest
  obtain ⟨own,hown⟩ := TrimAlgorithm.exists_policy halgorithm
  obtain ⟨result,k,hk,houtcome⟩ := trim_ends hfaults hown
  exact ⟨result,congrArg Prod.fst (hk.unlimited b hb),houtcome⟩

end RunoffAudit
