import Mathlib.Algebra.GroupWithZero.Nat
import Mathlib.Algebra.Order.BigOperators.Group.List
import Mathlib.Algebra.Order.Group.Nat
import RunoffAudit.Proofs.Reach
import RunoffAudit.Proofs.TreePreservation

/-! # Verifying what trimming kept costs no more than trimming

All searches of a losing candidate that is ruled out end where its suffix is refuted. So the more assertions there
are, the less is visited. The kept assertions stop a search wherever the requirement of the trimming's tree
is met, and this keeps their search inside that tree, with whatever policy the tree was searched.
-/
namespace RunoffAudit

namespace Node
variable {x y z : Node}

/-- The nodes visited in one search hang in the tree of another, which is no smaller and no shallower. -/
structure Within (x y : Node) : Prop where
  suffixes : x.visitedSuffixes ⊆ y.walkSuffixes
  size_le : x.size ≤ y.size
  maxDepth_le : x.maxDepth ≤ y.maxDepth

theorem walkSuffixes_subset (x : Node) : x.walkSuffixes ⊆ x.visitedSuffixes :=
  List.map_subset _ (walk_sublist_visited x).subset

theorem Within.of_subset (hx : x.visitedSuffixes.Nodup) (h : x.visitedSuffixes ⊆ y.walkSuffixes) : x.Within y := by
  refine ⟨h,?_,?_⟩
  · have hlen := (hx.subperm h).length_le
    rw [length_visitedSuffixes] at hlen
    exact hlen.trans (length_walkSuffixes_le y)
  · apply maxDepth_le_iff.mpr
    intro s hs
    exact maxDepth_le_iff.mp (Nat.le_refl _) s (y.walkSuffixes_subset (h hs))

theorem foldl_max_le_foldl_max {ι : Type} {l : List ι} {f g : ι → Nat} (h : ∀ i ∈ l, f i ≤ g i) :
    (l.map f).foldl max 0 ≤ (l.map g).foldl max 0 := by
  apply foldl_max_le_iff.mpr
  refine ⟨Nat.zero_le _,?_⟩
  intro k hk
  obtain ⟨i,hi,rfl⟩ := List.mem_map.mp hk
  exact (h i hi).trans ((foldl_max_le_iff.mp (Nat.le_refl _)).2 _ (List.mem_map_of_mem hi))

end Node

variable {n : Int} {as bs assertions : List Assertion} {c : Candidate} {s t : Suffix} {winner : Option Candidate}
  {b : Budget}

theorem verdictTree_visitedSuffixes (n : Int) (as : List Assertion) (hc : 0 ≤ c ∧ c < n) :
    (verdictTree n as c).visitedSuffixes = (verdictTree n as c).walkSuffixes :=
  (verdictTree_builds hc).visitedSuffixes_eq

theorem mem_verdictTree_iff (hc : 0 ≤ c ∧ c < n) :
    t ∈ (verdictTree n as c).walkSuffixes ↔ Reaches n (settled as) [c] t := by
  have hbuilds : (⟨n,false⟩ : SearchRule).Builds .stopImmediately (numbered as) [] c (verdictTree n as c) :=
    verdictTree_builds hc
  rw [hbuilds.mem_walkSuffixes_iff (placed_singleton hc),numbered_map_fst]

theorem nodup_verdictTree (n : Int) (as : List Assertion) (c : Candidate) :
    (verdictTree n as c).visitedSuffixes.Nodup := SearchRule.nodup_visitedSuffixes _ _ _ _ _ _

/-- If some of the assertions are enough to rule a candidate out, more of them make the search smaller. -/
theorem verdictTree_within_of_subset (hb : ∀ a ∈ bs, a.WellFormed n) (hsub : ∀ a ∈ bs, a ∈ as)
    (hviolated : ∀ order, IsOrder n order → [c] <:+ order → ∃ a ∈ bs, a.Violates order)
    (hc : 0 ≤ c ∧ c < n) : (verdictTree n as c).Within (verdictTree n bs c) := by
  apply Node.Within.of_subset (nodup_verdictTree n as c)
  intro t ht
  rw [verdictTree_visitedSuffixes n as hc,mem_verdictTree_iff hc] at ht
  rw [mem_verdictTree_iff hc]
  apply ht.mono
  intro u hu hs hsettled
  rw [settled,granted_of_violated hb hviolated hu hs,Bool.or_false] at hsettled
  obtain ⟨a,ha,he⟩ := refuted_eq_true_iff.mp hsettled
  exact Bool.or_eq_true_iff.mpr (Or.inl (refuted_eq_true_iff.mpr ⟨a,hsub a ha,he⟩))

/-- The search with assertions that meet the requirement of a tree stays inside the tree. -/
theorem verdictTree_within_of_isMet {r : SearchRule} {p : Policy} {carried : List Numbered} {x : Node}
    {selected : List Nat} (h : r.Builds p carried [] c x) (hmet : (Requirement.ofNode x).isMet selected = true)
    (hselected : ∀ y ∈ carried, y.2 ∈ selected → y.1 ∈ bs) (hc : 0 ≤ c ∧ c < r.n) :
    (verdictTree r.n bs c).Within x := by
  apply Node.Within.of_subset (nodup_verdictTree r.n bs c)
  intro t ht
  rw [verdictTree_visitedSuffixes r.n bs hc,mem_verdictTree_iff hc] at ht
  have hstop : SearchRule.StopsFor carried selected (refuted bs) :=
    fun y hy hsel s he => refuted_eq_true_iff.mpr ⟨y.1,hselected y hy hsel,he⟩
  apply h.mem_walkSuffixes_of_isMet hstop (placed_singleton hc) hmet
  exact ht.mono fun u _ _ hrefuted => Bool.or_eq_true_iff.mpr (Or.inl hrefuted)

/-- If assertions are trimmed by a search, with any policy, in any order and on any budget, each losing candidate's
search for all assertions lies within that for the kept ones, and this within the trimming's own. So it is with the
number of nodes and the depth, for every losing candidate and for all of them. -/
theorem verify_kept_within_trim {request : TrimRequest} {result : TrimResult}
    (halgorithm : request.algorithm ≠ .keepAll)
    (hresult : (trim n winner assertions request b).1 = .ok result) (htrimmed : result.outcome = .trimmed) :
    ∃ all kept trimmed : Candidate → Node,
      result.trees = (searched n winner).map trimmed ∧
      (∀ c ∈ searched n winner,
        (verify n assertions c).Gives ⟨c,[],some (all c)⟩ ∧
        (verify n result.assertions c).Gives ⟨c,[],some (kept c)⟩ ∧
        (all c).Within (kept c) ∧ (kept c).Within (trimmed c)) ∧
      ((searched n winner).map fun c => (all c).size).sum ≤ ((searched n winner).map fun c => (kept c).size).sum ∧
      ((searched n winner).map fun c => (kept c).size).sum ≤ result.nodesExplored ∧
      ((searched n winner).map fun c => (all c).maxDepth).foldl max 0 ≤
        ((searched n winner).map fun c => (kept c).maxDepth).foldl max 0 ∧
      ((searched n winner).map fun c => (kept c).maxDepth).foldl max 0 ≤ result.maxDepth := by
  obtain ⟨hfaults,p,hordered⟩ := trim_eq_trimOrdered halgorithm hresult htrimmed
  obtain ⟨_,_,ha⟩ := contestFaults_eq_nil_iff.mp hfaults
  have horder := searchOrder_perm request.sort assertions
  obtain ⟨horiginal,htrees,selected,hkept,hmet⟩ := trimOrdered_meets ha (Prod.ext hordered rfl) htrimmed
  have hsub : ∀ a ∈ result.assertions, a ∈ assertions := fun a hm => horiginal ▸ mem_original_of_mem_assertions hm
  have hwf : ∀ a ∈ result.assertions, a.WellFormed n := fun a hm => ha a (hsub a hm)
  have hall : ∀ c ∈ searched n winner,
      (verdictTree n assertions c).Within (verdictTree n result.assertions c) := by
    intro c hc
    exact verdictTree_within_of_subset hwf hsub
      (exists_kept_violates ha horder (Prod.ext hordered rfl) htrimmed hc)
      (mem_candidates.mp (mem_searched_iff.mp hc).1)
  have hwithin : ∀ c ∈ searched n winner, (verdictTree n result.assertions c).Within
      ((⟨n,true⟩ : SearchRule).rootTree p
        (numbered ((searchOrder request.sort assertions).filterMap (assertions[·]?))) c) := by
    intro c hc
    have hrange := mem_candidates.mp (mem_searched_iff.mp hc).1
    exact verdictTree_within_of_isMet (SearchRule.rootTree_builds ⟨n,true⟩ p _ hrange) (hmet c hc)
      (fun _ => mem_assertions_of_selected horiginal hkept (lt_length_of_mem_order horder)) hrange
  refine ⟨verdictTree n assertions,verdictTree n result.assertions,_,htrees,?each,?_,?_,?_,?_⟩
  case each =>
    intro c hc
    have hrange := mem_candidates.mp (mem_searched_iff.mp hc).1
    exact ⟨(verify_takes ha hrange).gives,(verify_takes hwf hrange).gives,hall c hc,hwithin c hc⟩
  · exact List.sum_le_sum fun c hc => (hall c hc).size_le
  · rw [TrimResult.nodesExplored,htrees,List.map_map,← List.sum_eq_foldl]
    exact List.sum_le_sum fun c hc => (hwithin c hc).size_le
  · exact Node.foldl_max_le_foldl_max fun c hc => (hall c hc).maxDepth_le
  · rw [TrimResult.maxDepth,htrees,List.map_map]
    exact Node.foldl_max_le_foldl_max fun c hc => (hwithin c hc).maxDepth_le

/-- The third assertion rules out the last candidate early, but the others are needed anyway and suffice. -/
def earlyAndNeeded : List Assertion := [.neb 1 0,.neb 2 0,.nen 1 2 (.ofList [1,2]),.nen 0 1 (.ofList [0,1,2])]

theorem verify_kept_within_trim_earlyAndNeeded :
    (⟨.minimizeAssertions,some .forever,false⟩ : TrimRequest).algorithm ≠ .keepAll ∧ ∃ result,
      (trim 3 (some 0) earlyAndNeeded ⟨.minimizeAssertions,some .forever,false⟩ .unlimited).1 = .ok result ∧
      result.outcome = .trimmed ∧ result.kept = [0,1,3] ∧
      ∃ all kept trimmed : Candidate → Node,
        (all 2).size = 3 ∧ (kept 2).size = 4 ∧ result.trees = (searched 3 (some 0)).map trimmed ∧
        (∀ c ∈ searched 3 (some 0),
          (verify 3 earlyAndNeeded c).Gives ⟨c,[],some (all c)⟩ ∧
          (verify 3 result.assertions c).Gives ⟨c,[],some (kept c)⟩ ∧
          (all c).Within (kept c) ∧ (kept c).Within (trimmed c)) ∧
        ((searched 3 (some 0)).map fun c => (all c).size).sum ≤
          ((searched 3 (some 0)).map fun c => (kept c).size).sum ∧
        ((searched 3 (some 0)).map fun c => (kept c).size).sum ≤ result.nodesExplored ∧
        ((searched 3 (some 0)).map fun c => (all c).maxDepth).foldl max 0 ≤
          ((searched 3 (some 0)).map fun c => (kept c).maxDepth).foldl max 0 ∧
        ((searched 3 (some 0)).map fun c => (kept c).maxDepth).foldl max 0 ≤ result.maxDepth := by
  have halgorithm : (⟨.minimizeAssertions,some .forever,false⟩ : TrimRequest).algorithm ≠ .keepAll := by decide
  have hresult : (trim 3 (some 0) earlyAndNeeded ⟨.minimizeAssertions,some .forever,false⟩ .unlimited).1 =
      .ok _ := rfl
  obtain ⟨all,kept,trimmed,htrees,heach,htotals⟩ := verify_kept_within_trim halgorithm hresult rfl
  obtain ⟨hall,hkept,_⟩ := heach 2 (by decide)
  have hall' := Option.some.inj (congrArg Verdict.tree (Except.ok.inj (hall .unlimited ⟨rfl,rfl⟩)))
  have hkept' := Option.some.inj (congrArg Verdict.tree (Except.ok.inj (hkept .unlimited ⟨rfl,rfl⟩)))
  refine ⟨halgorithm,_,hresult,rfl,rfl,all,kept,trimmed,?_,?_,htrees,heach,htotals⟩
  · rw [← hall']
    rfl
  · rw [← hkept']
    rfl

end RunoffAudit
