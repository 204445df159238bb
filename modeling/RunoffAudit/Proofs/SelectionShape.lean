import RunoffAudit.Proofs.Indispensable
import RunoffAudit.Proofs.TrimOutcome

/-! # Requirements that the selection can meet

The passes of the selection follow conjunctions and look at the disjunctions they come to, never below these.
So it is enough that every conjunction reached in this way has parts and every disjunction offers a choice:
the selection then meets all requirements with indices that occur in them, and the first pass has selected
nothing that any other way to meet them could do without. The trees of candidates that are ruled out
have such requirements, so no trimming of a well-formed contest meets a pruned node that offers no choice.
-/
namespace RunoffAudit
open Metered

namespace Requirement
variable {ι : Type} {r q : Requirement ι} {parts options : List (Requirement ι)} {i : ι}

/-- The second requirement is the first one or is reached from it through conjunctions only. -/
inductive Reaches : Requirement ι → Requirement ι → Prop
  | here (r : Requirement ι) : Reaches r r
  | part {r q : Requirement ι} {parts : List (Requirement ι)} (hr : r ∈ parts) (h : Reaches r q) :
    Reaches (.all parts) q

/-- Where conjunctions lead, there are parts and choices. -/
structure Offers (r : Requirement ι) : Prop where
  parts : ∀ parts, r.Reaches (.all parts) → parts ≠ []
  choices : ∀ options, r.Reaches (.any options) → ∃ i, .choice i ∈ options

theorem exists_firstChoice? (h : .choice i ∈ options) : ∃ j, firstChoice? options = some j := by
  induction options with
  | nil => cases h
  | cons r rest ih =>
    cases r with
    | choice j => exact ⟨j,rfl⟩
    | all parts => exact ih ((List.mem_cons.mp h).resolve_left nofun)
    | any others => exact ih ((List.mem_cons.mp h).resolve_left nofun)

/-- The selection knows how to meet exactly the requirements of this shape. -/
theorem selectable_iff_offers : r.Selectable ↔ r.Offers := by
  constructor
  · intro h
    induction h with
    | choice i => exact ⟨nofun,nofun⟩
    | all hne _ ih =>
      refine ⟨?parts,?choices⟩
      case parts =>
        rintro parts (_ | ⟨hr,h⟩)
        · exact hne
        · exact (ih _ hr).parts parts h
      case choices =>
        rintro options (_ | ⟨hr,h⟩)
        exact (ih _ hr).choices options h
    | any hfirst =>
      refine ⟨nofun,?_⟩
      rintro options (_ | _)
      exact ⟨_,choice_mem_of_firstChoice? hfirst⟩
  · intro h
    induction r using part_induction with
    | choice i => exact .choice i
    | all parts ih =>
      refine .all (h.parts parts (.here _)) fun r hr => ih r hr ⟨?_,?_⟩
      · exact fun others hothers => h.parts others (.part hr hothers)
      · exact fun options hoptions => h.choices options (.part hr hoptions)
    | any options _ =>
      obtain ⟨i,hi⟩ := h.choices options (.here _)
      obtain ⟨j,hj⟩ := exists_firstChoice? hi
      exact .any hj

variable [DecidableEq ι]

omit [DecidableEq ι] in
theorem Forces.picks (h : r.Forces i) : r.Picks i := by
  induction h with
  | choice i => exact .choice i
  | all hr _ ih => exact .part hr ih
  | only i => exact .first rfl

/-- Whatever meets all requirements has what the first pass selects. -/
theorem selectForcedAll_subset_of_isMet {selected : List ι} (h : ∀ r ∈ parts, r.isMet selected = true) :
    selectForcedAll parts [] ⊆ selected := by
  intro i hi
  rcases mem_selectForcedAll_iff.mp hi with hi | ⟨r,hr,hforces⟩
  · cases hi
  · exact hforces.mem_of_isMet (h r hr)

/-- The selection keeps what the first pass selects, and its second pass takes first choices only. -/
theorem choose_picks (h : ∀ r ∈ parts, r.Selectable) :
    ∃ chosen, (choose parts).Returns (some chosen) ∧ (∀ r ∈ parts, r.isMet chosen = true) ∧
      (∀ i ∈ chosen, ∃ r ∈ parts, r.Picks i) ∧ selectForcedAll parts [] ⊆ chosen := by
  obtain ⟨chosen,hchosen,hsub,hscope,hmet⟩ :=
    selectRemainingAll_extends (fun r hr => (h r hr).extends) (selectForcedAll parts [])
  refine ⟨chosen,hchosen,hmet,?_,hsub⟩
  intro i hi
  rcases hscope i hi with hi | hi
  · rcases mem_selectForcedAll_iff.mp hi with hi | ⟨r,hr,hforces⟩
    · cases hi
    · exact ⟨r,hr,hforces.picks⟩
  · exact hi

/-- The selection takes nothing that the requirements do not mention. -/
theorem choose_selects (h : ∀ r ∈ parts, r.Selectable) :
    ∃ chosen, (choose parts).Returns (some chosen) ∧ (∀ r ∈ parts, r.isMet chosen = true) ∧
      (∀ i ∈ chosen, ∃ r ∈ parts, r.Mentions i) ∧ selectForcedAll parts [] ⊆ chosen := by
  obtain ⟨chosen,hchosen,hmet,hpicked,hforced⟩ := choose_picks h
  refine ⟨chosen,hchosen,hmet,?_,hforced⟩
  intro i hi
  obtain ⟨r,hr,hpicks⟩ := hpicked i hi
  exact ⟨r,hr,hpicks.mentions⟩

end Requirement

open Requirement

variable {n : Int} {winner : Option Candidate} {assertions : List Assertion} {order : List Nat}

/-- On whatever budget a trimming comes to a result: the trees of losing candidates that are ruled out always offer
a choice. -/
theorem trimOrdered_ok (algorithm : TrimAlgorithm) (p : Policy) (ha : ∀ a ∈ assertions, a.WellFormed n)
    (b : Budget) :
    ∃ result, (trimOrdered n winner assertions algorithm p order b).1 = .ok result := by
  unfold trimOrdered
  rcases hs : searchLosers ⟨n,true⟩ p (numbered (order.filterMap (assertions[·]?))) winner n.toNat 0 b
    with ⟨⟨trees,ending⟩,b₁⟩
  rw [run_bind hs]
  cases ending with
  | exhausted e => exact ⟨_,rfl⟩
  | survivor c tree => exact ⟨_,rfl⟩
  | allRuledOut =>
    obtain ⟨htrees,hinvalid⟩ := searchLosers_allRuledOut hs
    rw [candidatesFrom_zero] at htrees
    obtain ⟨selected,hselected,_⟩ :=
      choose_trees_returns (fun a hm => ha a (mem_of_mem_filterMap_order hm)) htrees hinvalid
    dsimp only
    rcases hc : (choose (ofNodes trees)).runOn b₁ with ⟨e | chosen,b₂⟩
    · rw [attempt_bind hc]
      exact ⟨_,rfl⟩
    · rw [attempt_bind hc]
      obtain rfl := hselected.eq_of_runOn hc
      exact ⟨_,rfl⟩

theorem trim_ok {request : TrimRequest} (hfaults : contestFaults n winner assertions = [])
    (hknown : request.algorithm ∈ TrimAlgorithm.known) (b : Budget) :
    ∃ result, (trim n winner assertions request b).1 = .ok result := by
  obtain ⟨_,_,ha⟩ := contestFaults_eq_nil_iff.mp hfaults
  cases hown : request.algorithm.policy? with
  | some own =>
    rw [trim_eq_of_policy hfaults hown]
    exact trimOrdered_ok _ _ ha b
  | none =>
    rw [trim_eq_of_no_policy hfaults hown,if_pos (TrimAlgorithm.eq_keepAll_of_known hknown hown)]
    exact ⟨_,rfl⟩

/-- Let every conjunction that is reached through conjunctions have parts, and every disjunction so reached a choice
among its options. Then the selection ends with a result that meets all requirements, has only indices that
occur in them, and has all that the first pass selects, which no other way to meet them lacks. The trees of
candidates that are ruled out have requirements of this kind, whatever the policy, and a trimming of a
well-formed contest by a known algorithm comes to a result on every budget. -/
theorem choose_meets_requirements {ι : Type} [DecidableEq ι] :
    (∀ requirements : List (Requirement ι), (∀ r ∈ requirements, r.Offers) →
      ∃ chosen, (choose requirements).Gives (some chosen) ∧ (∀ r ∈ requirements, r.isMet chosen = true) ∧
        (∀ i ∈ chosen, ∃ r ∈ requirements, r.Mentions i) ∧ selectForcedAll requirements [] ⊆ chosen ∧
        ∀ selected, (∀ r ∈ requirements, r.isMet selected = true) →
          selectForcedAll requirements [] ⊆ selected) ∧
    (∀ (r : SearchRule) (p : Policy) (assertions : List Assertion) (c : Candidate),
      WellFormedSearch r.n c assertions →
      ∃ tree, (searchTree r p (numbered assertions) c).Gives tree ∧
        (tree.valid = false → (ofNode tree).Offers)) ∧
    ∀ (n : Int) (winner : Option Candidate) (assertions : List Assertion) (request : TrimRequest) (b : Budget),
      WellFormedContest n winner assertions → request.algorithm ∈ TrimAlgorithm.known →
      ∃ result, (trim n winner assertions request b).1 = .ok result := by
  refine ⟨?selection,?trees,?trimming⟩
  case selection =>
    intro requirements hoffers
    obtain ⟨chosen,hchosen,hmet,hmentioned,hforced⟩ :=
      choose_selects fun r hr => selectable_iff_offers.mpr (hoffers r hr)
    exact ⟨chosen,hchosen.gives,hmet,hmentioned,hforced,fun _ => selectForcedAll_subset_of_isMet⟩
  case trees =>
    rintro r p assertions c ⟨hc,ha⟩
    refine ⟨_,(searchTree_takes r p (numbered assertions) c).gives,?_⟩
    intro hinvalid
    exact selectable_iff_offers.mp
      ((r.rootTree_builds p _ hc).selectable (wellFormed_numbered ha) (placed_singleton hc) hinvalid)
  case trimming =>
    intro n winner assertions request b hcontest hknown
    exact trim_ok (contestFaults_eq_nil_iff.mpr hcontest) hknown b

/-- One option of the first requirement is already selected because the second one forces it. -/
theorem choose_meets_forced_first :
    (∀ r ∈ [any [.choice 0,.choice 1],all [any [.choice (1 : Nat)]]], r.Offers) ∧
    (∃ chosen, (choose [any [.choice 0,.choice 1],all [any [.choice 1]]]).Gives (some chosen) ∧ chosen = [1] ∧
      selectForcedAll [any [.choice 0,.choice 1],all [any [.choice 1]]] [] ⊆ chosen) ∧
    (WellFormedSearch 3 1 fourForThree ∧
      ∃ tree, (searchTree ⟨3,true⟩ .stopOnNEB (numbered fourForThree) 1).Gives tree ∧ tree.valid = false ∧
        (ofNode tree).Offers) ∧
    (WellFormedContest 3 (some 0) fourForThree ∧
      TrimAlgorithm.minimizeTree ∈ TrimAlgorithm.known ∧
      ∃ result,
        (trim 3 (some 0) fourForThree ⟨.minimizeTree,none,true⟩ ⟨some 9,none,0,0,0⟩).1 = .ok result) := by
  have hoffers : ∀ r ∈ [any [.choice 0,.choice 1],all [any [.choice (1 : Nat)]]], r.Offers := by
    intro r hr
    apply selectable_iff_offers.mp
    simp only [List.mem_cons,List.not_mem_nil,or_false] at hr
    rcases hr with rfl | rfl
    · exact .any (i := 0) rfl
    · refine .all (by simp) fun r hr => ?_
      obtain rfl := List.mem_singleton.mp hr
      exact .any (i := 1) rfl
  have hsearch : WellFormedSearch 3 1 fourForThree := by decide
  have hcontest : WellFormedContest 3 (some 0) fourForThree := by decide
  obtain ⟨hselection,htrees,htrimming⟩ := @choose_meets_requirements Nat _
  obtain ⟨chosen,hchosen,_,_,hforced,_⟩ := hselection _ hoffers
  obtain ⟨tree,htree,hshape⟩ := htrees ⟨3,true⟩ .stopOnNEB fourForThree 1 hsearch
  have hchosen' := Option.some.inj (Except.ok.inj (hchosen .unlimited ⟨rfl,rfl⟩))
  have htree' := Except.ok.inj (htree .unlimited ⟨rfl,rfl⟩)
  have hinvalid : tree.valid = false := by
    rw [← htree']
    rfl
  have htrimmed := htrimming 3 (some 0) fourForThree ⟨.minimizeTree,none,true⟩ ⟨some 9,none,0,0,0⟩ hcontest
    (by decide)
  exact ⟨hoffers,⟨chosen,hchosen,hchosen'.symm,hforced⟩,⟨hsearch,tree,htree,hinvalid,hshape hinvalid⟩,
    hcontest,by decide,htrimmed⟩

end RunoffAudit
