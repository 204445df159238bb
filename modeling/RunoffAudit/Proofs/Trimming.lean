import RunoffAudit.Proofs.ContestStatus
import RunoffAudit.Proofs.Selection
import RunoffAudit.Trim.Result

/-! # Trimming keeps the assertions sufficient

A trimming that is not cut short has met the requirements of all losing candidates, so the positions
it selects rule all of them out. Carried back through the order in which the assertions were searched,
the selected positions are the kept assertions. Nothing here depends on the policy or the budget.
-/
namespace RunoffAudit
open Metered

variable {n : Int} {winner : Option Candidate} {assertions : List Assertion} {order selected : List Nat}
  {i j : Nat} {a : Assertion} {b b' : Budget}

/-! ## Orders of positions -/

theorem canonicalOrder_perm (assertions : List Assertion) :
    (canonicalOrder assertions).Perm (List.range assertions.length) := by
  have h := (List.mergeSort_perm (numbered assertions)
    fun x y => atOrBefore x.1.canonicalKey y.1.canonicalKey).map (·.2)
  rwa [numbered_map_snd] at h

def searchOrder (sort : Bool) (assertions : List Assertion) : List Nat :=
  if sort then canonicalOrder assertions else List.range assertions.length

theorem searchOrder_perm (sort : Bool) (assertions : List Assertion) :
    (searchOrder sort assertions).Perm (List.range assertions.length) := by
  cases sort with
  | true => exact canonicalOrder_perm assertions
  | false => exact List.Perm.refl _

theorem lt_length_of_mem_order (horder : order.Perm (List.range assertions.length)) :
    ∀ i ∈ order, i < assertions.length := fun _ hi => List.mem_range.mp (horder.mem_iff.mp hi)

theorem getElem?_filterMap_order (horder : ∀ i ∈ order, i < assertions.length) :
    (order.filterMap (assertions[·]?))[j]? = order[j]?.bind (assertions[·]?) := by
  induction order generalizing j with
  | nil => rfl
  | cons i rest ih =>
    have hi : i < assertions.length := horder i List.mem_cons_self
    have hrest : ∀ i ∈ rest, i < assertions.length := fun i hi => horder i (List.mem_cons_of_mem _ hi)
    rw [List.filterMap_cons_some (List.getElem?_eq_getElem hi)]
    cases j with
    | zero => simp [hi]
    | succ j =>
      rw [List.getElem?_cons_succ,List.getElem?_cons_succ]
      exact ih hrest

theorem mem_of_mem_filterMap_order (h : a ∈ order.filterMap (assertions[·]?)) : a ∈ assertions := by
  obtain ⟨i,_,hi⟩ := List.mem_filterMap.mp h
  exact List.mem_of_getElem? hi

theorem mem_filterMap_order_iff (horder : order.Perm (List.range assertions.length)) :
    a ∈ order.filterMap (assertions[·]?) ↔ a ∈ assertions := by
  constructor
  · exact mem_of_mem_filterMap_order
  · intro ha
    obtain ⟨i,hi,hia⟩ := List.getElem_of_mem ha
    have hmem : i ∈ order := horder.mem_iff.mpr (List.mem_range.mpr hi)
    exact List.mem_filterMap.mpr ⟨i,hmem,List.getElem?_eq_some_iff.mpr ⟨hi,hia⟩⟩

def placesKept (order selected : List Nat) : List Nat := (order.zipIdx.filter (·.2 ∈ selected)).map (·.1)

theorem mem_placesKept_iff : i ∈ placesKept order selected ↔ ∃ j ∈ selected, order[j]? = some i := by
  constructor
  · intro hi
    obtain ⟨⟨k,j⟩,hx,rfl⟩ := List.mem_map.mp hi
    obtain ⟨hx,hj⟩ := List.mem_filter.mp hx
    exact ⟨j,of_decide_eq_true hj,List.mk_mem_zipIdx_iff_getElem?.mp hx⟩
  · rintro ⟨j,hj,hi⟩
    have hx : (i,j) ∈ order.zipIdx := List.mk_mem_zipIdx_iff_getElem?.mpr hi
    exact List.mem_map_of_mem (List.mem_filter.mpr ⟨hx,decide_eq_true hj⟩)

theorem mem_kept_of_selected (horder : ∀ i ∈ order, i < assertions.length) (hj : j ∈ selected)
    (ha : (order.filterMap (assertions[·]?))[j]? = some a) :
    a ∈ (placesKept order selected).filterMap (assertions[·]?) := by
  rw [getElem?_filterMap_order horder] at ha
  obtain ⟨i,hi,hia⟩ := Option.bind_eq_some_iff.mp ha
  exact List.mem_filterMap.mpr ⟨i,mem_placesKept_iff.mpr ⟨j,hj,hi⟩,hia⟩

theorem mem_original_of_mem_assertions {result : TrimResult} (h : a ∈ result.assertions) : a ∈ result.original :=
  mem_of_mem_filterMap_order h

/-- The assertion at a selected place of the search is kept. -/
theorem mem_assertions_of_selected {result : TrimResult} {y : Numbered} (horiginal : result.original = assertions)
    (hkept : result.kept = placesKept order selected) (horder : ∀ i ∈ order, i < assertions.length)
    (hy : y ∈ numbered (order.filterMap (assertions[·]?))) (hsel : y.2 ∈ selected) : y.1 ∈ result.assertions := by
  rw [TrimResult.assertions,hkept,horiginal]
  exact mem_kept_of_selected horder hsel (mem_numbered.mp hy)

/-! ## The search of the losing candidates -/

/-- When all losing candidates were ruled out, on whatever budget, their trees are all there. -/
theorem searchLosers_allRuledOut {r : SearchRule} {p : Policy} {carried : List Numbered} {left : Nat}
    {c : Candidate} {trees : List Node}
    (h : searchLosers r p carried winner left c b = ((trees,.allRuledOut),b')) :
    trees = ((candidatesFrom c left).filter fun d => some d ≠ winner).map (r.rootTree p carried) ∧
      ∀ x ∈ trees, x.valid = false := by
  induction left generalizing c b b' trees with
  | zero =>
    cases h
    exact ⟨rfl,fun x hx => absurd hx List.not_mem_nil⟩
  | succ left ih =>
    rw [searchLosers] at h
    rw [candidatesFrom]
    by_cases hc : some c = winner
    · rw [if_pos hc] at h
      rw [List.filter_cons_of_neg (by simpa using hc)]
      exact ih h
    · rw [if_neg hc] at h
      rw [List.filter_cons_of_pos (by simpa using hc),List.map_cons]
      rcases hs : (searchTree r p carried c).runOn b with ⟨e | tree,b₁⟩
      · rw [attempt_bind hs] at h
        cases h
      · rw [attempt_bind hs] at h
        obtain rfl := (searchTree_takes r p carried c).eq_of_runOn hs
        dsimp only at h
        by_cases hv : (r.rootTree p carried c).valid = true
        · rw [if_pos hv] at h
          cases h
        · rw [if_neg hv] at h
          rcases hrest : searchLosers r p carried winner left (c + 1) b₁ with ⟨⟨others,ending⟩,b₂⟩
          rw [run_bind hrest] at h
          cases h
          obtain ⟨hothers,hinvalid⟩ := ih hrest
          refine ⟨by rw [hothers],?_⟩
          intro x hx
          rcases List.mem_cons.mp hx with rfl | hx
          · exact Bool.eq_false_iff.mpr hv
          · exact hinvalid x hx

/-! ## The result -/

/-- The trees of losing candidates that are ruled out have requirements that the selection can meet. -/
theorem selectable_ofNodes_trees {p : Policy} {ordered : List Assertion} {trees : List Node}
    (ha : ∀ a ∈ ordered, a.WellFormed n)
    (htrees : trees = (searched n winner).map ((⟨n,true⟩ : SearchRule).rootTree p (numbered ordered)))
    (hinvalid : ∀ x ∈ trees, x.valid = false) : ∀ r ∈ Requirement.ofNodes trees, r.Selectable := by
  intro r hr
  rw [Requirement.ofNodes_eq_map] at hr
  obtain ⟨x,hx,rfl⟩ := List.mem_map.mp hr
  have hv := hinvalid x hx
  rw [htrees] at hx
  obtain ⟨c,hc,rfl⟩ := List.mem_map.mp hx
  have hrange := mem_candidates.mp (mem_searched_iff.mp hc).1
  exact (SearchRule.rootTree_builds ⟨n,true⟩ p (numbered ordered) hrange).selectable (wellFormed_numbered ha)
    (placed_singleton hrange) hv

theorem choose_trees_returns {p : Policy} {ordered : List Assertion} {trees : List Node}
    (ha : ∀ a ∈ ordered, a.WellFormed n)
    (htrees : trees = (searched n winner).map ((⟨n,true⟩ : SearchRule).rootTree p (numbered ordered)))
    (hinvalid : ∀ x ∈ trees, x.valid = false) :
    ∃ selected, (Requirement.choose (Requirement.ofNodes trees)).Returns (some selected) ∧
      ∀ c ∈ searched n winner, (Requirement.ofNode
        ((⟨n,true⟩ : SearchRule).rootTree p (numbered ordered) c)).isMet selected = true := by
  obtain ⟨selected,hselected,hmet⟩ := Requirement.choose_returns (selectable_ofNodes_trees ha htrees hinvalid)
  refine ⟨selected,hselected,?_⟩
  intro c hc
  apply hmet
  rw [Requirement.ofNodes_eq_map,htrees]
  exact List.mem_map_of_mem (List.mem_map_of_mem hc)

/-- A finished trimming has searched all losing candidates, all of whom are ruled out, and keeps the places that are
chosen for their trees. -/
theorem trimOrdered_chooses {algorithm : TrimAlgorithm} {p : Policy} {result : TrimResult}
    (ha : ∀ a ∈ assertions, a.WellFormed n)
    (h : trimOrdered n winner assertions algorithm p order b = (.ok result,b'))
    (htrimmed : result.outcome = .trimmed) :
    result.original = assertions ∧
      result.trees = (searched n winner).map
        ((⟨n,true⟩ : SearchRule).rootTree p (numbered (order.filterMap (assertions[·]?)))) ∧
      (∀ x ∈ result.trees, x.valid = false) ∧
      ∃ selected, (Requirement.choose (Requirement.ofNodes result.trees)).Returns (some selected) ∧
        result.kept = placesKept order selected := by
  unfold trimOrdered at h
  rcases hs : searchLosers ⟨n,true⟩ p (numbered (order.filterMap (assertions[·]?))) winner n.toNat 0 b
    with ⟨⟨trees,ending⟩,b₁⟩
  rw [run_bind hs] at h
  cases ending with
  | exhausted e =>
    cases h
    cases htrimmed
  | survivor c tree =>
    cases h
    cases htrimmed
  | allRuledOut =>
    obtain ⟨htrees,hinvalid⟩ := searchLosers_allRuledOut hs
    rw [candidatesFrom_zero] at htrees
    obtain ⟨selected,hselected,_⟩ :=
      choose_trees_returns (fun a hm => ha a (mem_of_mem_filterMap_order hm)) htrees hinvalid
    dsimp only at h
    rcases hc : (Requirement.choose (Requirement.ofNodes trees)).runOn b₁ with ⟨e | chosen,b₂⟩
    · rw [attempt_bind hc] at h
      cases h
      cases htrimmed
    · rw [attempt_bind hc] at h
      obtain rfl := hselected.eq_of_runOn hc
      cases h
      exact ⟨rfl,htrees,hinvalid,selected,hselected,rfl⟩

theorem trimOrdered_meets {algorithm : TrimAlgorithm} {p : Policy} {result : TrimResult}
    (ha : ∀ a ∈ assertions, a.WellFormed n)
    (h : trimOrdered n winner assertions algorithm p order b = (.ok result,b'))
    (htrimmed : result.outcome = .trimmed) :
    result.original = assertions ∧
      result.trees = (searched n winner).map
        ((⟨n,true⟩ : SearchRule).rootTree p (numbered (order.filterMap (assertions[·]?)))) ∧
      ∃ selected, result.kept = placesKept order selected ∧ ∀ c ∈ searched n winner, (Requirement.ofNode
        ((⟨n,true⟩ : SearchRule).rootTree p (numbered (order.filterMap (assertions[·]?))) c)).isMet selected =
          true := by
  obtain ⟨horiginal,htrees,hinvalid,selected,hselected,hkept⟩ := trimOrdered_chooses ha h htrimmed
  obtain ⟨chosen,hchosen,hmet⟩ :=
    choose_trees_returns (fun a hm => ha a (mem_of_mem_filterMap_order hm)) htrees hinvalid
  obtain rfl := Option.some.inj (hselected.unique hchosen)
  exact ⟨horiginal,htrees,selected,hkept,hmet⟩

/-- So the places kept rule out every losing candidate. -/
theorem trimOrdered_trimmed {algorithm : TrimAlgorithm} {p : Policy} {result : TrimResult}
    (ha : ∀ a ∈ assertions, a.WellFormed n)
    (h : trimOrdered n winner assertions algorithm p order b = (.ok result,b'))
    (htrimmed : result.outcome = .trimmed) :
    result.original = assertions ∧ ∃ selected, result.kept = placesKept order selected ∧
      ∀ c ∈ searched n winner, RulesOut n (order.filterMap (assertions[·]?)) selected c := by
  obtain ⟨horiginal,_,selected,hkept,hmet⟩ := trimOrdered_meets ha h htrimmed
  have hwf : ∀ a ∈ order.filterMap (assertions[·]?), a.WellFormed n :=
    fun a hm => ha a (mem_of_mem_filterMap_order hm)
  refine ⟨horiginal,selected,hkept,?_⟩
  intro c hc
  have hrange := mem_candidates.mp (mem_searched_iff.mp hc).1
  exact rulesOut_iff.mpr ((SearchRule.rootTree_builds ⟨n,true⟩ p _ hrange).ruledOutBy_of_isMet
    (wellFormed_numbered hwf) (hmet c hc))

/-- Every order won by a losing candidate violates a kept assertion. -/
theorem exists_kept_violates {algorithm : TrimAlgorithm} {p : Policy} {result : TrimResult} {c : Candidate}
    (ha : ∀ a ∈ assertions, a.WellFormed n) (horder : order.Perm (List.range assertions.length))
    (h : trimOrdered n winner assertions algorithm p order b = (.ok result,b'))
    (htrimmed : result.outcome = .trimmed) (hc : c ∈ searched n winner) :
    ∀ elimination, IsOrder n elimination → [c] <:+ elimination →
      ∃ a ∈ result.assertions, a.Violates elimination := by
  obtain ⟨horiginal,selected,hkept,hruled⟩ := trimOrdered_trimmed ha h htrimmed
  intro elimination ho hs
  obtain ⟨j,hj,a,haj,hv⟩ := hruled c hc elimination ho (getLast?_eq_some_iff_suffix.mpr hs)
  exact ⟨a,mem_assertions_of_selected horiginal hkept (lt_length_of_mem_order horder) (mem_numbered.mpr haj) hj,hv⟩

/-- Of a well-formed contest the assertions are trimmed as they stand in the order of the search. -/
theorem trim_eq_of_policy {request : TrimRequest} {own : Policy}
    (hfaults : contestFaults n winner assertions = []) (hown : request.algorithm.policy? = some own) :
    trim n winner assertions request = trimOrdered n winner assertions request.algorithm
      (request.policy.getD own) (searchOrder request.sort assertions) := by
  obtain ⟨algorithm,policy,sort⟩ := request
  unfold trim
  rw [hfaults]
  cases algorithm with
  | keepAll => cases hown
  | minimizeTree =>
    cases hown
    rfl
  | minimizeAssertions =>
    cases hown
    rfl
  | other w => cases hown

theorem trim_eq_of_no_policy {request : TrimRequest} (hfaults : contestFaults n winner assertions = [])
    (hown : request.algorithm.policy? = none) :
    trim n winner assertions request = pure (if request.algorithm = .keepAll then
      .ok ⟨.keepAll,.trimmed,assertions,searchOrder request.sort assertions,[]⟩
    else .error (.unknownAlgorithm request.algorithm.word)) := by
  obtain ⟨algorithm,policy,sort⟩ := request
  unfold trim
  rw [hfaults]
  cases algorithm with
  | keepAll => rfl
  | minimizeTree => cases hown
  | minimizeAssertions => cases hown
  | other word => rfl

theorem trim_refused (h : contestFaults n winner assertions ≠ []) (request : TrimRequest) (b : Budget) :
    trim n winner assertions request b =
      (.ok ⟨request.algorithm,.malformed (contestFaults n winner assertions),assertions,
        List.range assertions.length,[]⟩,b) := by
  unfold trim
  dsimp only
  rw [if_neg (by simpa using h)]
  rfl

/-- A finished trimming was one of a well-formed contest. -/
theorem contestFaults_of_trimmed {request : TrimRequest} {result : TrimResult}
    (hresult : (trim n winner assertions request b).1 = .ok result) (htrimmed : result.outcome = .trimmed) :
    contestFaults n winner assertions = [] := by
  by_contra hfaults
  rw [trim_refused hfaults] at hresult
  cases hresult
  cases htrimmed

theorem trim_eq_trimOrdered {request : TrimRequest} {result : TrimResult}
    (halgorithm : request.algorithm ≠ .keepAll)
    (hresult : (trim n winner assertions request b).1 = .ok result) (htrimmed : result.outcome = .trimmed) :
    contestFaults n winner assertions = [] ∧ ∃ p, (trimOrdered n winner assertions request.algorithm p
      (searchOrder request.sort assertions) b).1 = .ok result := by
  have hfaults := contestFaults_of_trimmed hresult htrimmed
  refine ⟨hfaults,?_⟩
  cases hown : request.algorithm.policy? with
  | some own =>
    rw [trim_eq_of_policy hfaults hown] at hresult
    exact ⟨_,hresult⟩
  | none =>
    rw [trim_eq_of_no_policy hfaults hown,if_neg halgorithm] at hresult
    cases hresult

/-- If assertions are trimmed by a search, with any policy, in any order and on any budget, the kept ones
still rule out every order that the winner does not win, and verify as proven. -/
theorem trim_trimmed_sufficient {request : TrimRequest} {result : TrimResult}
    (halgorithm : request.algorithm ≠ .keepAll)
    (hresult : (trim n winner assertions request b).1 = .ok result)
    (htrimmed : result.outcome = .trimmed) :
    Sufficient n winner result.assertions ∧ ∀ budget : Budget, budget.Unlimited →
      (verifyContest n winner result.assertions false budget).1.status = .proven := by
  obtain ⟨hfaults,p,hordered⟩ := trim_eq_trimOrdered halgorithm hresult htrimmed
  have hcontest := contestFaults_eq_nil_iff.mp hfaults
  obtain ⟨horiginal,selected,hkept,hruled⟩ :=
    trimOrdered_trimmed hcontest.assertions (Prod.ext hordered rfl) htrimmed
  have hassertions : result.assertions =
      (placesKept (searchOrder request.sort assertions) selected).filterMap (assertions[·]?) := by
    rw [TrimResult.assertions,hkept,horiginal]
  have horder : ∀ i ∈ searchOrder request.sort assertions, i < assertions.length :=
    fun i hi => List.mem_range.mp ((searchOrder_perm request.sort assertions).mem_iff.mp hi)
  have hsufficient : Sufficient n winner result.assertions := by
    apply (sufficient_iff hcontest.count).mpr
    intro c hc order ho hlast
    obtain ⟨j,hj,a,haj,hv⟩ := hruled c hc order ho hlast
    rw [hassertions]
    exact ⟨a,mem_kept_of_selected horder hj haj,hv⟩
  have hkeptContest : WellFormedContest n winner result.assertions := by
    rw [hassertions]
    exact hcontest.of_subset fun a => mem_of_mem_filterMap_order
  exact ⟨hsufficient,fun budget hb => (verifyContest_proven_iff hb hkeptContest).mpr hsufficient⟩

/-- What is claimed of three candidates for the winner 0, with one assertion too many. -/
def fourForThree : List Assertion :=
  [.nen 0 1 ⟨[0,1],by decide⟩,.neb 1 2,.nen 0 2 ⟨[0,2],by decide⟩,.nen 0 1 ⟨[0,1,2],by decide⟩]

theorem trim_fourForThree_sufficient :
    (⟨.minimizeAssertions,some .forever,false⟩ : TrimRequest).algorithm ≠ .keepAll ∧ ∃ result,
      (trim 3 (some 0) fourForThree ⟨.minimizeAssertions,some .forever,false⟩ ⟨some 20,none,0,0,0⟩).1 =
        .ok result ∧
      result.outcome = .trimmed ∧ result.kept = [0,1,3] ∧
      Sufficient 3 (some 0) result.assertions ∧ ∀ budget : Budget, budget.Unlimited →
        (verifyContest 3 (some 0) result.assertions false budget).1.status = .proven := by
  have halgorithm : (⟨.minimizeAssertions,some .forever,false⟩ : TrimRequest).algorithm ≠ .keepAll := by decide
  have hresult : (trim 3 (some 0) fourForThree ⟨.minimizeAssertions,some .forever,false⟩
      ⟨some 20,none,0,0,0⟩).1 = .ok _ := rfl
  exact ⟨halgorithm,_,hresult,rfl,rfl,trim_trimmed_sufficient halgorithm hresult rfl⟩

end RunoffAudit
