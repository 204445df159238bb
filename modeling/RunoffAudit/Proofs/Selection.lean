import RunoffAudit.Proofs.Requirement
import RunoffAudit.Proofs.Work

/-! # The selection meets the requirements

A disjunction that offers a choice can always be met, and a conjunction if it has parts and all of them
can. On such requirements the passes of the selection end with a selection that meets every one, because
whatever is selected later spoils nothing. The trees of the candidates that are ruled out have such
requirements, since every leaf of an invalid tree is pruned.
-/
namespace RunoffAudit
open Metered

namespace Requirement
variable {ι : Type} [DecidableEq ι] {r : Requirement ι} {parts options : List (Requirement ι)}
  {selected chosen : List ι} {i : ι}

omit [DecidableEq ι] in
/-- To prove something of a requirement it may be assumed of its parts or options. -/
theorem part_induction {motive : Requirement ι → Prop} (choice : ∀ i, motive (.choice i))
    (all : ∀ parts, (∀ r ∈ parts, motive r) → motive (.all parts))
    (any : ∀ options, (∀ r ∈ options, motive r) → motive (.any options)) (r : Requirement ι) : motive r :=
  match r with
  | .choice i => choice i
  | .all parts => all parts fun r _ => part_induction choice all any r
  | .any options => any options fun r _ => part_induction choice all any r
termination_by sizeOf r
decreasing_by
  all_goals
    have := List.sizeOf_lt_of_mem ‹_›
    simp only [Requirement.all.sizeOf_spec,Requirement.any.sizeOf_spec]
    omega

theorem isMet_mono (hsub : selected ⊆ chosen) (h : r.isMet selected = true) : r.isMet chosen = true := by
  induction r using part_induction with
  | choice i => exact isMet_choice_iff.mpr (hsub (isMet_choice_iff.mp h))
  | all parts ih =>
    obtain ⟨hne,hparts⟩ := isMet_all_iff.mp h
    exact isMet_all_iff.mpr ⟨hne,fun r hr => ih r hr (hparts r hr)⟩
  | any options ih =>
    obtain ⟨r,hr,hmet⟩ := isMet_any_iff.mp h
    exact isMet_any_iff.mpr ⟨r,hr,ih r hr hmet⟩

/-- The selection knows how to meet the requirement. -/
inductive Selectable : Requirement ι → Prop
  | choice (i : ι) : Selectable (.choice i)
  | all {parts : List (Requirement ι)} (hne : parts ≠ []) (hparts : ∀ r ∈ parts, Selectable r) :
    Selectable (.all parts)
  | any {options : List (Requirement ι)} {i : ι} (hfirst : firstChoice? options = some i) :
    Selectable (.any options)

omit [DecidableEq ι] in
theorem choice_mem_of_firstChoice? (h : firstChoice? options = some i) : choice i ∈ options := by
  induction options with
  | nil => cases h
  | cons r rest ih =>
    cases r with
    | choice j =>
      obtain rfl : j = i := Option.some.inj h
      exact List.mem_cons_self
    | all parts => exact List.mem_cons_of_mem _ (ih h)
    | any others => exact List.mem_cons_of_mem _ (ih h)

inductive Mentions : Requirement ι → ι → Prop
  | choice (i : ι) : Mentions (.choice i) i
  | part {r : Requirement ι} {parts : List (Requirement ι)} {i : ι} (hr : r ∈ parts) (h : Mentions r i) :
    Mentions (.all parts) i
  | option {r : Requirement ι} {options : List (Requirement ι)} {i : ι} (hr : r ∈ options) (h : Mentions r i) :
    Mentions (.any options) i

/-- A pass of the selection may pick the index: a choice by itself, or the first one of a disjunction, reached through
conjunctions. -/
inductive Picks : Requirement ι → ι → Prop
  | choice (i : ι) : Picks (.choice i) i
  | part {r : Requirement ι} {parts : List (Requirement ι)} {i : ι} (hr : r ∈ parts) (h : Picks r i) :
    Picks (.all parts) i
  | first {options : List (Requirement ι)} {i : ι} (hfirst : firstChoice? options = some i) : Picks (.any options) i

omit [DecidableEq ι] in
theorem Picks.mentions (h : r.Picks i) : r.Mentions i := by
  induction h with
  | choice i => exact .choice i
  | part hr _ ih => exact .part hr ih
  | first hfirst => exact .option (choice_mem_of_firstChoice? hfirst) (.choice _)

/-- The second pass, from whatever selection it starts, ends with a larger one that does `goal`. What it adds is
within `scope`. -/
def Extends (search : List ι → Metered (Option (List ι))) (scope : ι → Prop) (goal : List ι → Prop) : Prop :=
  ∀ selected, ∃ chosen, (search selected).Returns (some chosen) ∧ selected ⊆ chosen ∧
    (∀ i ∈ chosen, i ∈ selected ∨ scope i) ∧ goal chosen

theorem selectRemainingAll_extends
    (h : ∀ r ∈ parts, Extends r.selectRemaining r.Picks fun s => r.isMet s = true) :
    Extends (selectRemainingAll parts) (fun i => ∃ r ∈ parts, r.Picks i)
      fun s => ∀ r ∈ parts, r.isMet s = true := by
  induction parts with
  | nil =>
    intro selected
    exact ⟨selected,returns_pure _,List.Subset.refl _,fun i hi => Or.inl hi,fun r hr => absurd hr List.not_mem_nil⟩
  | cons r rest ih =>
    intro selected
    obtain ⟨middle,hmiddle,hsub,hscope,hmet⟩ := h r List.mem_cons_self selected
    obtain ⟨chosen,hchosen,hsub',hscope',hrest⟩ := ih (fun r' hr' => h r' (List.mem_cons_of_mem r hr')) middle
    refine ⟨chosen,hmiddle.bind hchosen,List.Subset.trans hsub hsub',?scope,?met⟩
    case scope =>
      intro i hi
      rcases hscope' i hi with hi | ⟨r',hr',hi⟩
      · exact (hscope i hi).imp_right fun hi => ⟨r,List.mem_cons_self,hi⟩
      · exact Or.inr ⟨r',List.mem_cons_of_mem r hr',hi⟩
    case met =>
      intro r' hr'
      rcases List.mem_cons.mp hr' with rfl | hr'
      · exact isMet_mono hsub' hmet
      · exact hrest r' hr'

theorem mem_or_of_mem_insert {j : ι} (hj : j ∈ selected.insert i) {scope : ι → Prop} (hi : scope i) :
    j ∈ selected ∨ scope j := by
  rcases List.mem_insert_iff.mp hj with rfl | hj
  · exact Or.inr hi
  · exact Or.inl hj

/-- The second pass meets a requirement and keeps what was selected. -/
theorem Selectable.extends (h : r.Selectable) :
    Extends r.selectRemaining r.Picks fun s => r.isMet s = true := by
  induction h with
  | choice i =>
    intro selected
    exact ⟨selected.insert i,Returns.tick_bind (returns_pure _),fun j hj => List.mem_insert_of_mem hj,
      fun j hj => mem_or_of_mem_insert hj (.choice i),isMet_choice_iff.mpr List.mem_insert_self⟩
  | all hne _ ih =>
    intro selected
    obtain ⟨chosen,hchosen,hsub,hscope,hmet⟩ := selectRemainingAll_extends ih selected
    refine ⟨chosen,Returns.tick_bind hchosen,hsub,?_,isMet_all_iff.mpr ⟨hne,hmet⟩⟩
    exact fun i hi => (hscope i hi).imp_right fun ⟨_,hr,hi⟩ => .part hr hi
  | @any options i hfirst =>
    intro selected
    by_cases hmet : anyMet selected options = true
    · refine ⟨selected,Returns.tick_bind ?_,List.Subset.refl _,fun i hi => Or.inl hi,hmet⟩
      rw [if_pos hmet]
      exact returns_pure _
    · have hmem := choice_mem_of_firstChoice? hfirst
      refine ⟨selected.insert i,Returns.tick_bind ?_,fun j hj => List.mem_insert_of_mem hj,
        fun j hj => mem_or_of_mem_insert hj (.first hfirst),?_⟩
      · rw [if_neg hmet,hfirst]
        exact returns_pure _
      · have hi : (Requirement.choice i).isMet (selected.insert i) = true := isMet_choice_iff.mpr List.mem_insert_self
        exact isMet_any_iff.mpr ⟨.choice i,hmem,hi⟩

/-- The two passes end with a selection that meets all requirements. -/
theorem choose_returns (h : ∀ r ∈ parts, r.Selectable) :
    ∃ chosen, (choose parts).Returns (some chosen) ∧ ∀ r ∈ parts, r.isMet chosen = true := by
  obtain ⟨chosen,hchosen,_,_,hmet⟩ :=
    selectRemainingAll_extends (fun r hr => (h r hr).extends) (selectForcedAll parts [])
  exact ⟨chosen,hchosen,hmet⟩

end Requirement

open Requirement

theorem selectable_ofNode_of_pruning {c : Candidate} {after : Suffix} {p : List Nat} {v : Bool}
    {cs ds : List Node} (hp : p ≠ []) : (ofNode (.mk c after p v cs ds)).Selectable := by
  cases p with
  | nil => exact absurd rfl hp
  | cons i rest => exact Selectable.any (i := i) rfl

/-- The tree of a candidate that is ruled out gives a requirement that the selection can meet. -/
theorem SearchRule.Builds.selectable {r : SearchRule} {p : Policy} {carried : List Numbered}
    {after : Suffix} {c : Candidate} {x : Node} (h : r.Builds p carried after c x)
    (ha : ∀ x ∈ carried, x.1.WellFormed r.n) (hs : Placed r.n (c :: after)) (hv : x.valid = false) :
    (ofNode x).Selectable := by
  induction h with
  | decided hu =>
    apply selectable_ofNode_of_pruning
    intro hnil
    simp [Node.valid,List.map_eq_nil_iff.mp hnil] at hv
  | stopped hp hu hc => exact selectable_ofNode_of_pruning (by simpa using hp)
  | @opened p carried after c hp hu child hchild ih =>
    have hinvalid : ∀ d ∈ unplaced r.n (c :: after), (child d).valid = false := by
      simpa [Node.valid] using hv
    rw [ofNode,ofNodes_eq_map]
    refine Selectable.all (by simpa using unplaced_ne_nil ha hu hs) ?_
    intro r' hr'
    obtain ⟨x,hx,rfl⟩ := List.mem_map.mp hr'
    obtain ⟨d,hd,rfl⟩ := List.mem_map.mp hx
    exact ih d hd (wellFormed_undecidedAt ha) (hs.cons hd) (hinvalid d hd)
  | passed hp hu hc hchild hv ih => exact selectable_ofNode_of_pruning (by simpa using hp)
  | dropped hp hu hc hchild hv ih => exact selectable_ofNode_of_pruning (by simpa using hp)

end RunoffAudit
