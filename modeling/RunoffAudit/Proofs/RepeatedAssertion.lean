import Mathlib
import RunoffAudit.Proofs.Agreement
import RunoffAudit.Proofs.DoubledPlace
import RunoffAudit.Proofs.Relisting
import RunoffAudit.Proofs.SelectionShape

/-! # Repeating an assertion

In canonical order a copy stands right behind its assertion. Trimming then selects as it does without the copy, unless
some node had no other contradiction than this assertion: with two copies there the first pass does not
select it. It is selected in the end, but the second pass decides without knowing of it what else to keep.
-/
namespace RunoffAudit
open Metered Requirement

variable {n : Int} {winner : Option Candidate} {as bs ordered copies : List Assertion} {a : Assertion} {k : Nat}
  {selected : List Nat} {b b' : Budget} {request : TrimRequest} {own p : Policy}

/-! ## Copies in sorted lists -/

/-- The second list has a copy of the assertion right behind its place `k` in the first. -/
def CopiedBehind (k : Nat) (a : Assertion) (ordered copies : List Assertion) : Prop :=
  ∃ before after, before.length = k ∧ ordered = before ++ a :: after ∧ copies = before ++ a :: a :: after

theorem CopiedBehind.getElem? (h : CopiedBehind k a ordered copies) : copies[k]? = some a := by
  obtain ⟨before,after,rfl,rfl,rfl⟩ := h
  simp

theorem CopiedBehind.assertionsAt_eq (h : CopiedBehind k a ordered copies) :
    assertionsAt copies (selected.map (movedBehind k)) = assertionsAt ordered selected := by
  obtain ⟨before,after,rfl,rfl,rfl⟩ := h
  rw [assertionsAt,assertionsAt,numbered_doubled]
  induction numbered (before ++ a :: after) with
  | nil => rfl
  | cons x rest ih =>
    rw [List.flatMap_cons,List.filter_append,List.map_append,ih,filter_copiesOf,List.filter_cons]
    by_cases hx : x.2 ∈ selected <;> simp [hx]

/-- Wherever a copy is added, sorting puts it right behind its assertion. -/
theorem copiedBehind_canonicallySorted (hk : (canonicallySorted as)[k]? = some a) (h : bs.Perm (a :: as)) :
    CopiedBehind k a (canonicallySorted as) (canonicallySorted bs) := by
  obtain ⟨hlt,hat⟩ := List.getElem?_eq_some_iff.mp hk
  have hsplit : canonicallySorted as = (canonicallySorted as).take k ++ a :: (canonicallySorted as).drop (k + 1) := by
    rw [← hat,← List.drop_eq_getElem_cons hlt,List.take_append_drop]
  exact ⟨_,_,List.length_take_of_le (Nat.le_of_lt hlt),hsplit,canonicallySorted_repeated hsplit h⟩

theorem exists_place (h : a ∈ as) : ∃ k : Nat, (canonicallySorted as)[k]? = some a :=
  List.mem_iff_getElem?.mp ((canonicallySorted_perm as).mem_iff.mpr h)

/-! ## The trees of the losing candidates -/

def losersTrees (n : Int) (winner : Option Candidate) (p : Policy) (ordered : List Assertion) : List Node :=
  (searched n winner).map ((⟨n,true⟩ : SearchRule).rootTree p (numbered ordered))

namespace CopiedBehind

theorem losersTrees_eq (h : CopiedBehind k a ordered copies) :
    losersTrees n winner p copies = (losersTrees n winner p ordered).map (Node.doubled k) := by
  obtain ⟨before,after,rfl,rfl,rfl⟩ := h
  rw [losersTrees,losersTrees,List.map_map,numbered_doubled]
  exact List.map_congr_left fun c _ => tree_doubled n before.length n.toNat p _ [] c

theorem selectForcedAll_eq (h : CopiedBehind k a ordered copies) :
    selectForcedAll (ofNodes (losersTrees n winner p copies)) [] =
      sparedBehind k (selectForcedAll (ofNodes (losersTrees n winner p ordered)) []) := by
  rw [h.losersTrees_eq]
  exact selectForcedAll_doubled [] fun x _ => selectForced_doubled x

/-- With the copy the second pass starts from what the first pass selects otherwise, less the doubled place. -/
theorem choose_eq (h : CopiedBehind k a ordered copies) : choose (ofNodes (losersTrees n winner p copies)) = do
    return (← selectRemainingAll (ofNodes (losersTrees n winner p ordered))
      ((selectForcedAll (ofNodes (losersTrees n winner p ordered)) []).filter (· ≠ k))).map
        (List.map (movedBehind k)) := by
  rw [choose,h.selectForcedAll_eq,h.losersTrees_eq]
  exact selectRemainingAll_doubled fun x _ => selectRemaining_doubled x

end CopiedBehind

/-! ## Trimmings -/

/-- The places that the first pass selects in the trees of a result. -/
def TrimResult.forcedPlaces (r : TrimResult) : List Nat := selectForcedAll (ofNodes r.trees) []

/-- The result is a selection from the assertions in this order, all losing candidates being ruled out. -/
structure TrimResult.SelectedFrom (n : Int) (winner : Option Candidate) (p : Policy) (ordered : List Assertion)
    (result : TrimResult) : Prop where
  trimmed : result.outcome = .trimmed
  trees : result.trees = losersTrees n winner p ordered
  selectable : ∀ r ∈ ofNodes result.trees, r.Selectable
  chosen : ∃ selected, (choose (ofNodes result.trees)).Returns (some selected) ∧
    result.assertions = assertionsAt ordered selected

/-- Without a limit a trimming that sorts sufficient assertions first ends with a selection from them. -/
theorem trim_sorted (hb : b.Unlimited) (hfaults : contestFaults n winner as = [])
    (hsufficient : Sufficient n winner as) (hown : request.algorithm.policy? = some own) (hsort : request.sort = true) :
    ∃ result, (trim n winner as request b).1 = .ok result ∧
      result.SelectedFrom n winner (request.policy.getD own) (canonicallySorted as) := by
  obtain ⟨hn,_,ha⟩ := contestFaults_eq_nil_iff.mp hfaults
  obtain ⟨result,k,hk,houtcome⟩ := trim_ends hfaults hown
  have hrun := hk.unlimited b hb
  have htrimmed : result.outcome = .trimmed := by
    rw [houtcome,trimOutcome_eq,(sufficient_iff_openLosers hn ha).mp hsufficient]
  have hordered := hrun
  rw [trim_eq_of_policy hfaults hown] at hordered
  obtain ⟨horiginal,htrees,hinvalid,selected,hselected,hkept⟩ := trimOrdered_chooses ha hordered htrimmed
  rw [hsort,searchOrder,if_pos rfl] at htrees hkept
  rw [filterMap_canonicalOrder] at htrees
  refine ⟨result,congrArg Prod.fst hrun,htrimmed,htrees,?selectable,selected,hselected,?kept⟩
  case selectable =>
    exact selectable_ofNodes_trees (fun x hx => ha x ((canonicallySorted_perm as).mem_iff.mp hx)) htrees hinvalid
  case kept =>
    rw [TrimResult.assertions,hkept,horiginal,filterMap_placesKept (lt_length_of_mem_order (canonicalOrder_perm as)),
      filterMap_canonicalOrder]

/-- What a trimming comes to if a copy of the assertion `a` is added to the assertions. -/
structure TrimResult.Repeats (as : List Assertion) (a : Assertion) (result copied : TrimResult) : Prop where
  /-- The second pass starts as if the first one had not selected the assertion, and decides as without the copy. -/
  selects : ∀ k, (canonicallySorted as)[k]? = some a → ∃ selected,
    (selectRemainingAll (ofNodes result.trees) (result.forcedPlaces.filter (· ≠ k))).Gives (some selected) ∧
    copied.assertions = assertionsAt (canonicallySorted as) selected
  /-- What the first pass selects without the copy is kept. -/
  forced : assertionsAt (canonicallySorted as) result.forcedPlaces ⊆ copied.assertions
  unchanged : a ∉ assertionsAt (canonicallySorted as) result.forcedPlaces → copied.assertions = result.assertions
  /-- A third copy makes no difference. -/
  third : 2 ≤ as.count a → copied.assertions = result.assertions

namespace TrimResult.SelectedFrom
variable {result copied : TrimResult}

/-- With the copy the second pass decides as before, once it has started without the doubled place. -/
theorem selects (h : result.SelectedFrom n winner p ordered) (h' : copied.SelectedFrom n winner p copies)
    (hcopies : CopiedBehind k a ordered copies) :
    ∃ selected, (selectRemainingAll (ofNodes result.trees) (result.forcedPlaces.filter (· ≠ k))).Returns
        (some selected) ∧
      (∀ r ∈ ofNodes result.trees, r.isMet selected = true) ∧ copied.assertions = assertionsAt ordered selected := by
  obtain ⟨chosen,hchosen,hassertions⟩ := h'.chosen
  obtain ⟨selected,hselected,_,_,hmet⟩ := selectRemainingAll_extends (fun r hr => (h.selectable r hr).extends)
    (result.forcedPlaces.filter (· ≠ k))
  refine ⟨selected,hselected,hmet,?_⟩
  rw [h'.trees,hcopies.choose_eq,← h.trees] at hchosen
  obtain ⟨j,hj⟩ := hselected
  obtain rfl := Option.some.inj (hchosen.unique (hj.map _).returns)
  rw [hassertions,hcopies.assertionsAt_eq]

theorem assertions_eq_of_not_forced (h : result.SelectedFrom n winner p ordered)
    (h' : copied.SelectedFrom n winner p copies) (hcopies : CopiedBehind k a ordered copies)
    (hforced : k ∉ result.forcedPlaces) : copied.assertions = result.assertions := by
  obtain ⟨chosen,hchosen,hassertions⟩ := h.chosen
  obtain ⟨selected,hselected,_,hcopied⟩ := h.selects h' hcopies
  have hall : result.forcedPlaces.filter (· ≠ k) = result.forcedPlaces :=
    List.filter_eq_self.mpr fun i hi => decide_eq_true fun h => hforced (h ▸ hi)
  rw [hall] at hselected
  obtain rfl := Option.some.inj (hselected.unique hchosen)
  rw [hcopied,hassertions]

theorem not_forced (h : copied.SelectedFrom n winner p copies) (hcopies : CopiedBehind k a ordered copies) :
    k ∉ copied.forcedPlaces := by
  rw [forcedPlaces,h.trees,hcopies.selectForcedAll_eq]
  exact not_mem_sparedBehind

theorem repeats (h : result.SelectedFrom n winner p (canonicallySorted as))
    (h' : copied.SelectedFrom n winner p (canonicallySorted bs)) (hmem : a ∈ as) (hbs : bs.Perm (a :: as)) :
    result.Repeats as a copied := by
  obtain ⟨k,hk⟩ := exists_place hmem
  have hcopies := copiedBehind_canonicallySorted hk hbs
  constructor
  case selects =>
    intro k hk
    obtain ⟨selected,hreturns,_,hkept⟩ := h.selects h' (copiedBehind_canonicallySorted hk hbs)
    exact ⟨selected,hreturns.gives,hkept⟩
  case forced =>
    obtain ⟨selected,_,hmet,hkept⟩ := h.selects h' hcopies
    intro x hx
    obtain ⟨i,hi,hix⟩ := mem_assertionsAt_iff.mp hx
    rw [hkept]
    exact mem_assertionsAt_iff.mpr ⟨i,selectForcedAll_subset_of_isMet hmet hi,hix⟩
  case unchanged =>
    intro hforced
    exact h.assertions_eq_of_not_forced h' hcopies fun hk' => hforced (mem_assertionsAt_iff.mpr ⟨k,hk',hk⟩)
  case third =>
    intro hcount
    have hleft : a ∈ as.erase a := by
      apply List.count_pos_iff.mp
      rw [List.count_erase_self]
      omega
    -- the assertions are themselves others with a copy added, so the first of the two places is not forced
    obtain ⟨j,hj⟩ := exists_place hleft
    have hsecond := copiedBehind_canonicallySorted hj (List.perm_cons_erase hmem)
    exact h.assertions_eq_of_not_forced h' (copiedBehind_canonicallySorted hsecond.getElem? hbs)
      (h.not_forced hsecond)

end TrimResult.SelectedFrom

/-- Without a limit, let the assertions of a well-formed contest rule out every losing candidate, and let a copy of one
of them be added, at whatever position. If the assertions are sorted first, both algorithms with any policy
then keep what `Repeats` says. -/
theorem trim_repeated (hb : b.Unlimited) (hb' : b'.Unlimited) (hcontest : WellFormedContest n winner as)
    (hsufficient : Sufficient n winner as) (hsort : request.sort = true)
    (halgorithm : request.algorithm = .minimizeTree ∨ request.algorithm = .minimizeAssertions) (hmem : a ∈ as)
    (hbs : bs.Perm (a :: as)) :
    ∃ result copied, (trim n winner as request b).1 = .ok result ∧ (trim n winner bs request b').1 = .ok copied ∧
      result.outcome = .trimmed ∧ copied.outcome = .trimmed ∧ result.Repeats as a copied := by
  obtain ⟨own,hown⟩ := TrimAlgorithm.exists_policy halgorithm
  have hsame : ∀ x, x ∈ bs ↔ x ∈ as := by
    intro x
    rw [hbs.mem_iff,List.mem_cons]
    exact or_iff_right_of_imp fun h => h ▸ hmem
  have hsufficient' : Sufficient n winner bs := by
    intro elimination ho hlast
    obtain ⟨x,hx,hv⟩ := hsufficient elimination ho hlast
    exact ⟨x,(hsame x).mpr hx,hv⟩
  obtain ⟨result,hresult,hselected⟩ :=
    trim_sorted hb (contestFaults_eq_nil_iff.mpr hcontest) hsufficient hown hsort
  have hcontest' : WellFormedContest n winner bs :=
    ⟨hcontest.count,hcontest.winner,fun x hx => hcontest.assertions x ((hsame x).mp hx)⟩
  obtain ⟨copied,hcopied,hselected'⟩ :=
    trim_sorted hb' (contestFaults_eq_nil_iff.mpr hcontest') hsufficient' hown hsort
  exact ⟨result,copied,hresult,hcopied,hselected.trimmed,hselected'.trimmed,hselected.repeats hselected' hmem hbs⟩

/-- Assertions for the winner 0 of four candidates. The first pass selects the third, so the first is not needed. -/
def thirdForFirst : List Assertion := [.neb 0 1,.neb 0 3,.neb 3 1,.nen 3 0 (.ofList [0,2,3])]

/-- The same with a copy of the third. -/
def thirdTwice : List Assertion := thirdForFirst ++ [.neb 3 1]

/-- With a copy of the third nothing is dropped but the copy. -/
theorem trim_changed_by_copy : (∀ a ∈ thirdForFirst, a.WellFormed 4) ∧ Sufficient 4 (some 0) thirdForFirst ∧
    Assertion.neb 3 1 ∈ thirdForFirst ∧ ∀ algorithm ∈ [TrimAlgorithm.minimizeTree,.minimizeAssertions],
      (trim 4 (some 0) thirdForFirst ⟨algorithm,none,true⟩ .unlimited).1.map (·.assertions) =
        .ok [.neb 0 3,.neb 3 1,.nen 3 0 (.ofList [0,2,3])] ∧
      (trim 4 (some 0) thirdTwice ⟨algorithm,none,true⟩ .unlimited).1.map (·.assertions) = .ok thirdForFirst ∧
      (trim 4 (some 0) thirdTwice ⟨algorithm,none,true⟩ .unlimited).1.map (·.assertions) ≠
        (trim 4 (some 0) thirdForFirst ⟨algorithm,none,true⟩ .unlimited).1.map (·.assertions) := by
  have hcontest : WellFormedContest 4 (some 0) thirdForFirst := by decide
  refine ⟨hcontest.assertions,(verifyContest_proven_iff (b := .unlimited) ⟨rfl,rfl⟩ hcontest).mp (by cbv),by decide,?_⟩
  intro algorithm h
  have hkept : (trim 4 (some 0) thirdForFirst ⟨algorithm,none,true⟩ .unlimited).1.map (·.assertions) =
      .ok [.neb 0 3,.neb 3 1,.nen 3 0 (.ofList [0,2,3])] := by
    simp only [List.mem_cons,List.not_mem_nil,or_false] at h
    rcases h with rfl | rfl <;> cbv
  have hcopied : (trim 4 (some 0) thirdTwice ⟨algorithm,none,true⟩ .unlimited).1.map (·.assertions) =
      .ok thirdForFirst := by
    simp only [List.mem_cons,List.not_mem_nil,or_false] at h
    rcases h with rfl | rfl <;> cbv
  refine ⟨hkept,hcopied,?_⟩
  rw [hkept,hcopied]
  intro hsame
  exact absurd (congrArg List.length (Except.ok.inj hsame)) (by decide)

/-- Where the assertion is there twice already, a third copy changes nothing. -/
theorem trim_repeated_twice : WellFormedContest 4 (some 0) thirdTwice ∧ Sufficient 4 (some 0) thirdTwice ∧
    Assertion.neb 3 1 ∈ thirdTwice ∧ ∃ result copied,
      (trim 4 (some 0) thirdTwice ⟨.minimizeTree,none,true⟩ .unlimited).1 = .ok result ∧
      (trim 4 (some 0) (Assertion.neb 3 1 :: thirdTwice) ⟨.minimizeTree,none,true⟩ ⟨none,none,7,0,0⟩).1 = .ok copied ∧
      result.Repeats thirdTwice (.neb 3 1) copied ∧ copied.assertions = result.assertions := by
  have hcontest : WellFormedContest 4 (some 0) thirdTwice := by decide
  have hsufficient : Sufficient 4 (some 0) thirdTwice := by
    refine (verifyContest_proven_iff (b := .unlimited) ⟨rfl,rfl⟩ hcontest).mp ?_
    cbv
  have hb : Budget.unlimited.Unlimited := ⟨rfl,rfl⟩
  have hb' : (⟨none,none,7,0,0⟩ : Budget).Unlimited := ⟨rfl,rfl⟩
  have hsort : (⟨.minimizeTree,none,true⟩ : TrimRequest).sort = true := rfl
  have halgorithm : (⟨.minimizeTree,none,true⟩ : TrimRequest).algorithm = .minimizeTree ∨
    (⟨.minimizeTree,none,true⟩ : TrimRequest).algorithm = .minimizeAssertions := Or.inl rfl
  have hmem : Assertion.neb 3 1 ∈ thirdTwice := by decide
  obtain ⟨result,copied,hresult,hcopied,_,_,hrepeats⟩ :=
    trim_repeated hb hb' hcontest hsufficient hsort halgorithm hmem (List.Perm.refl _)
  exact ⟨hcontest,hsufficient,hmem,result,copied,hresult,hcopied,hrepeats,hrepeats.third (by decide)⟩

end RunoffAudit
