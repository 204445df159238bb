import RunoffAudit.Proofs.Faults
import RunoffAudit.Proofs.Leaves
import RunoffAudit.Trim.Requirement

/-! # What a requirement means

A selection that meets the requirement of a search tree rules out the tree's candidate, with whatever
policy the tree was built. With a tree that was searched on below every pruned node the converse holds too:
the one tree for all assertions tells of every selection whether it rules the candidate out.
-/
namespace RunoffAudit

namespace Requirement
variable {ι : Type} [DecidableEq ι] {selected : List ι} {parts options : List (Requirement ι)}

theorem allMet_iff : allMet selected parts = true ↔ ∀ r ∈ parts, r.isMet selected = true := by
  induction parts with
  | nil => simp [allMet]
  | cons r rest ih => simp [allMet,ih]

theorem anyMet_iff : anyMet selected options = true ↔ ∃ r ∈ options, r.isMet selected = true := by
  induction options with
  | nil => simp [anyMet]
  | cons r rest ih => simp [anyMet,ih]

theorem isMet_choice_iff {i : ι} : (choice i).isMet selected = true ↔ i ∈ selected := by
  simp [isMet]

theorem isMet_all_iff :
    (all parts).isMet selected = true ↔ parts ≠ [] ∧ ∀ r ∈ parts, r.isMet selected = true := by
  simp [isMet,allMet_iff]

theorem isMet_any_iff : (any options).isMet selected = true ↔ ∃ r ∈ options, r.isMet selected = true := by
  rw [isMet,anyMet_iff]

theorem ofNodes_eq_map (xs : List Node) : ofNodes xs = xs.map ofNode := by
  induction xs with
  | nil => rfl
  | cons x rest ih => rw [ofNodes,ih,List.map_cons]

theorem isMet_ofNode_iff {c : Candidate} {after : Suffix} {p : List Nat} {v : Bool} {cs ds : List Node}
    {selected : List Nat} : (ofNode (.mk c after p v cs ds)).isMet selected = true ↔
      (∃ i ∈ p, i ∈ selected) ∨ (cs ≠ [] ∧ ∀ x ∈ cs, (ofNode x).isMet selected = true) := by
  have hbelow : (all (cs.map ofNode)).isMet selected = true ↔
      cs ≠ [] ∧ ∀ x ∈ cs, (ofNode x).isMet selected = true := by
    simp [isMet_all_iff]
  rw [ofNode,ofNodes_eq_map]
  cases p with
  | nil => simpa using hbelow
  | cons i rest =>
    dsimp only [List.isEmpty_cons]
    rw [if_neg Bool.false_ne_true,isMet_any_iff]
    cases cs with
    | nil => simp [isMet_choice_iff]
    | cons x xs =>
      rw [if_neg (by simp)]
      constructor
      · rintro ⟨o,ho,hmet⟩
        rcases List.mem_append.mp ho with ho | ho
        · obtain ⟨j,hj,rfl⟩ := List.mem_map.mp ho
          exact Or.inl ⟨j,hj,isMet_choice_iff.mp hmet⟩
        · rw [List.mem_singleton.mp ho] at hmet
          exact Or.inr (hbelow.mp hmet)
      · rintro (⟨j,hj,hsel⟩ | h)
        · exact ⟨choice j,List.mem_append_left _ (List.mem_map_of_mem hj),isMet_choice_iff.mpr hsel⟩
        · exact ⟨_,List.mem_append_right _ List.mem_cons_self,hbelow.mpr h⟩

theorem isMet_leaf_iff {c : Candidate} {after : Suffix} {p : List Nat} {v : Bool} {ds : List Node}
    {selected : List Nat} :
    (ofNode (.mk c after p v [] ds)).isMet selected = true ↔ ∃ i ∈ p, i ∈ selected := by
  simp [isMet_ofNode_iff]

end Requirement

/-- The selected ones among the numbered assertions rule out every order that ends in the suffix. -/
def RuledOutBy (n : Int) (carried : List Numbered) (selected : List Nat) (s : Suffix) : Prop :=
  ∀ order, IsOrder n order → s <:+ order → ∃ x ∈ carried, x.2 ∈ selected ∧ x.1.Violates order

theorem RuledOutBy.cons {n : Int} {carried : List Numbered} {selected : List Nat} {s : Suffix}
    (h : RuledOutBy n carried selected s) (d : Candidate) : RuledOutBy n carried selected (d :: s) :=
  fun order ho hs => h order ho ((List.suffix_cons d s).trans hs)

namespace SearchRule
variable {r : SearchRule} {p : Policy} {carried : List Numbered} {after : Suffix} {c : Candidate} {x : Node}
  {selected : List Nat}

theorem ruledOutBy_of_pruning (ha : ∀ x ∈ carried, x.1.WellFormed r.n)
    (h : ∃ i ∈ (r.pruningAt p carried (c :: after)).map (·.2), i ∈ selected) :
    RuledOutBy r.n carried selected (c :: after) := by
  obtain ⟨i,hi,hsel⟩ := h
  obtain ⟨x,hx,rfl⟩ := List.mem_map.mp hi
  obtain ⟨hx,he⟩ := mem_of_mem_pruningAt hx
  intro order ho hs
  exact ⟨x,hx,hsel,Assertion.violates_of_effect (ha x hx) ho hs he⟩

/-- The children account for all orders, as somebody must come next. -/
theorem ruledOutBy_of_children {child : Candidate → Node}
    (h : ∀ d ∈ unplaced r.n (c :: after), (Requirement.ofNode (child d)).isMet selected = true →
      RuledOutBy r.n (undecidedAt carried (c :: after)) selected (d :: c :: after))
    (hne : (unplaced r.n (c :: after)).map child ≠ [])
    (hmet : ∀ x ∈ (unplaced r.n (c :: after)).map child, (Requirement.ofNode x).isMet selected = true) :
    RuledOutBy r.n carried selected (c :: after) := by
  intro order ho hs
  obtain ⟨d,hd,hds⟩ := ho.exists_cons_suffix hs (fun hnil => hne (by rw [hnil]; rfl))
  obtain ⟨x,hx,hsel,hv⟩ := h d hd (hmet _ (List.mem_map_of_mem hd)) order ho hds
  exact ⟨x,(mem_undecidedAt.mp hx).1,hsel,hv⟩

/-- If no selected assertion contradicts a suffix, those left undetermined must do the work. -/
theorem ruledOutBy_undecided (hr : r.recordAll = true) (ha : ∀ x ∈ carried, x.1.WellFormed r.n)
    (hnone : ¬ ∃ i ∈ (r.pruningAt p carried (c :: after)).map (·.2), i ∈ selected)
    (h : RuledOutBy r.n carried selected (c :: after)) :
    RuledOutBy r.n (undecidedAt carried (c :: after)) selected (c :: after) := by
  intro order ho hs
  obtain ⟨x,hx,hsel,hv⟩ := h order ho hs
  have hne : x.1.effect (c :: after) ≠ .contradiction := by
    intro he
    exact hnone ⟨x.2,List.mem_map_of_mem (mem_pruningAt_of_recordAll hr hx he),hsel⟩
  have he := Assertion.effect_eq_undetermined_of_violates (ha x hx) ho hs hv hne
  exact ⟨x,mem_undecidedAt.mpr ⟨hx,he⟩,hsel,hv⟩

/-- What meets the requirement of a tree rules its candidate out. -/
theorem Builds.ruledOutBy_of_isMet (h : r.Builds p carried after c x)
    (ha : ∀ x ∈ carried, x.1.WellFormed r.n) (hmet : (Requirement.ofNode x).isMet selected = true) :
    RuledOutBy r.n carried selected (c :: after) := by
  induction h with
  | decided hu => exact ruledOutBy_of_pruning ha (Requirement.isMet_leaf_iff.mp hmet)
  | stopped hp hu hc => exact ruledOutBy_of_pruning ha (Requirement.isMet_leaf_iff.mp hmet)
  | opened hp hu hchild ih =>
    rcases Requirement.isMet_ofNode_iff.mp hmet with ⟨i,hi,_⟩ | ⟨hcs,hall⟩
    · cases hi
    · exact ruledOutBy_of_children (fun d hd => ih d hd (wellFormed_undecidedAt ha)) hcs hall
  | passed hp hu hc hchild hv ih =>
    rcases Requirement.isMet_ofNode_iff.mp hmet with hp | ⟨hcs,hall⟩
    · exact ruledOutBy_of_pruning ha hp
    · exact ruledOutBy_of_children (fun d hd => ih d hd (wellFormed_undecidedAt ha)) hcs hall
  | dropped hp hu hc hchild hv ih => exact ruledOutBy_of_pruning ha (Requirement.isMet_leaf_iff.mp hmet)

/-- A valid tree has an order that the carried assertions do not rule out, whichever are selected. -/
theorem Builds.not_ruledOutBy_of_valid (h : r.Builds p carried after c x)
    (ha : ∀ x ∈ carried, x.1.WellFormed r.n) (hs : Placed r.n (c :: after)) (hv : x.valid = true) :
    ¬ RuledOutBy r.n carried selected (c :: after) := by
  have has : ∀ a ∈ carried.map (·.1), a.WellFormed r.n := by
    intro a hm
    obtain ⟨x,hx,rfl⟩ := List.mem_map.mp hm
    exact ha x hx
  obtain ⟨order,ho,hso,hnone⟩ := (survivors_ne_nil_iff has hs).mp ((h.valid_iff hs).mp hv)
  intro hruled
  obtain ⟨x,hx,_,hviolates⟩ := hruled order ho hso
  exact hnone x.1 (List.mem_map_of_mem hx) hviolates

/-- What rules the candidate out meets the requirement of a tree that is searched everywhere. -/
theorem Builds.isMet_of_ruledOutBy (h : r.Builds p carried after c x) (hr : r.recordAll = true)
    (hp : p = .forever) (ha : ∀ x ∈ carried, x.1.WellFormed r.n) (hs : Placed r.n (c :: after))
    (hruled : RuledOutBy r.n carried selected (c :: after)) :
    (Requirement.ofNode x).isMet selected = true := by
  induction h with
  | @decided p carried after c hu =>
    apply Requirement.isMet_ofNode_iff.mpr
    by_contra hnot
    obtain ⟨order,ho,hso⟩ := hs.exists_order
    obtain ⟨x,hx,_⟩ := ruledOutBy_undecided hr ha (fun h => hnot (Or.inl h)) hruled order ho hso
    rw [hu] at hx
    cases hx
  | stopped hpruned hu hc =>
    subst hp
    cases hc
  | opened hpruned hu hchild ih =>
    apply Requirement.isMet_ofNode_iff.mpr
    right
    refine ⟨by simpa using unplaced_ne_nil ha hu hs,?_⟩
    intro x hx
    obtain ⟨d,hd,rfl⟩ := List.mem_map.mp hx
    have hbelow := ruledOutBy_undecided hr ha (by rw [hpruned]; simp) hruled
    exact ih d hd hp (wellFormed_undecidedAt ha) (hs.cons hd) (hbelow.cons d)
  | passed hpruned hu hc hchild hv ih =>
    subst hp
    apply Requirement.isMet_ofNode_iff.mpr
    by_contra hnot
    have hbelow := ruledOutBy_undecided hr ha (fun h => hnot (Or.inl h)) hruled
    refine hnot (Or.inr ⟨by simpa using unplaced_ne_nil ha hu hs,?_⟩)
    intro x hx
    obtain ⟨d,hd,rfl⟩ := List.mem_map.mp hx
    exact ih d hd rfl (wellFormed_undecidedAt ha) (hs.cons hd) (hbelow.cons d)
  | dropped hpruned hu hc hchild hv ih =>
    apply Requirement.isMet_ofNode_iff.mpr
    by_contra hnot
    have hbelow := ruledOutBy_undecided hr ha (fun h => hnot (Or.inl h)) hruled
    obtain ⟨d,hd,hvalid⟩ := hv
    exact (hchild d hd).not_ruledOutBy_of_valid (wellFormed_undecidedAt ha) (hs.cons hd) hvalid
      (hbelow.cons d)

end SearchRule

/-! ## Requirements of whole search trees -/

def RulesOut (n : Int) (assertions : List Assertion) (selected : List Nat) (c : Candidate) : Prop :=
  ∀ order, IsOrder n order → order.getLast? = some c →
    ∃ i ∈ selected, ∃ a, assertions[i]? = some a ∧ a.Violates order

variable {n : Int} {assertions : List Assertion} {selected : List Nat} {c : Candidate}

theorem rulesOut_iff : RulesOut n assertions selected c ↔ RuledOutBy n (numbered assertions) selected [c] := by
  constructor
  · intro h order ho hs
    obtain ⟨i,hi,a,ha,hv⟩ := h order ho (getLast?_eq_some_iff_suffix.mpr hs)
    exact ⟨(a,i),mem_numbered.mpr ha,hi,hv⟩
  · intro h order ho hs
    obtain ⟨⟨a,i⟩,ha,hi,hv⟩ := h order ho (getLast?_eq_some_iff_suffix.mp hs)
    exact ⟨i,hi,a,mem_numbered.mp ha,hv⟩

/-- The requirement of a candidate's tree, built without a limit and with all pruning recorded, is met only
by selections that rule the candidate out, and by all of them if the search never stops at pruned nodes. -/
theorem isMet_searchTree_rulesOut (hsearch : WellFormedSearch n c assertions) (p : Policy) :
    ∃ tree, (searchTree ⟨n,true⟩ p (numbered assertions) c).Gives tree ∧
      ∀ selected : List Nat,
        ((Requirement.ofNode tree).isMet selected = true → RulesOut n assertions selected c) ∧
        (p = .forever → RulesOut n assertions selected c →
          (Requirement.ofNode tree).isMet selected = true) := by
  obtain ⟨hc,ha⟩ := hsearch
  have hbuilds := SearchRule.rootTree_builds ⟨n,true⟩ p (numbered assertions) hc
  have hwf := wellFormed_numbered ha
  refine ⟨_,(searchTree_takes ⟨n,true⟩ p (numbered assertions) c).gives,?_⟩
  intro selected
  constructor
  · intro hmet
    exact rulesOut_iff.mpr (hbuilds.ruledOutBy_of_isMet hwf hmet)
  · intro hp hruled
    exact hbuilds.isMet_of_ruledOutBy rfl hp hwf (placed_singleton hc) (rulesOut_iff.mp hruled)

theorem isMet_searchTree_three :
    WellFormedSearch 3 2 [.nen 0 2 ⟨[0,2],by decide⟩,.neb 0 2,.neb 1 2] ∧
    ∃ tree, (searchTree ⟨3,true⟩ .forever
        (numbered [.nen 0 2 ⟨[0,2],by decide⟩,.neb 0 2,.neb 1 2]) 2).Gives tree ∧
      ∀ selected : List Nat,
        ((Requirement.ofNode tree).isMet selected = true →
          RulesOut 3 [.nen 0 2 ⟨[0,2],by decide⟩,.neb 0 2,.neb 1 2] selected 2) ∧
        (Policy.forever = .forever → RulesOut 3 [.nen 0 2 ⟨[0,2],by decide⟩,.neb 0 2,.neb 1 2] selected 2 →
          (Requirement.ofNode tree).isMet selected = true) :=
  ⟨by decide,isMet_searchTree_rulesOut (by decide) .forever⟩

end RunoffAudit
