import RunoffAudit.Proofs.PossibleWinners
import RunoffAudit.Proofs.Selection

/-! # Assertions that cannot be left out

The first pass of the selection looks for a pattern only: a disjunction whose one option is a choice, reached
through conjunctions. In the trees of losing candidates that are searched everywhere, the pattern occurs
exactly for the assertions without which some losing candidate could win. Trees that are searched less
far show the pattern for these and possibly for others.
-/
namespace RunoffAudit
open Metered

namespace Requirement
variable {ι : Type} [DecidableEq ι] {r : Requirement ι} {parts : List (Requirement ι)} {selected : List ι}
  {i j : ι}

/-- The requirement shows that it cannot be met without the choice. -/
inductive Forces : Requirement ι → ι → Prop
  | choice (i : ι) : Forces (.choice i) i
  | all {r : Requirement ι} {parts : List (Requirement ι)} {i : ι} (hr : r ∈ parts) (h : Forces r i) :
    Forces (.all parts) i
  | only (i : ι) : Forces (.any [.choice i]) i

theorem Forces.mem_of_isMet (h : r.Forces i) (hmet : r.isMet selected = true) : i ∈ selected := by
  induction h with
  | choice i => exact isMet_choice_iff.mp hmet
  | all hr _ ih =>
    obtain ⟨_,hparts⟩ := isMet_all_iff.mp hmet
    exact ih (hparts _ hr)
  | only i =>
    obtain ⟨r,hr,hmet⟩ := isMet_any_iff.mp hmet
    obtain rfl := List.mem_singleton.mp hr
    exact isMet_choice_iff.mp hmet

/-- Visiting several requirements in turn adds what each of them forces. -/
theorem mem_selectForcedAll_of
    (h : ∀ r ∈ parts, ∀ selected, j ∈ selectForced r selected ↔ j ∈ selected ∨ r.Forces j) :
    j ∈ selectForcedAll parts selected ↔ j ∈ selected ∨ ∃ r ∈ parts, r.Forces j := by
  induction parts generalizing selected with
  | nil => simp [selectForcedAll]
  | cons r rest ih =>
    have hrest := fun r' hr' => h r' (List.mem_cons_of_mem r hr')
    rw [selectForcedAll,ih hrest,h r List.mem_cons_self,or_assoc]
    simp

omit [DecidableEq ι] in
theorem forces_any_iff {options : List (Requirement ι)} :
    (any options).Forces j ↔ options = [.choice j] := by
  constructor
  · intro h
    cases h
    rfl
  · rintro rfl
    exact .only j

theorem mem_selectForced_iff : j ∈ selectForced r selected ↔ j ∈ selected ∨ r.Forces j := by
  induction r using part_induction generalizing selected with
  | choice i =>
    have hforces : (choice i).Forces j ↔ j = i := by
      constructor
      · intro h
        cases h
        rfl
      · rintro rfl
        exact .choice j
    rw [selectForced,List.mem_insert_iff,hforces,or_comm]
  | all parts ih =>
    have hforces : (all parts).Forces j ↔ ∃ r ∈ parts, r.Forces j := by
      constructor
      · rintro (_ | ⟨hr,h⟩)
        exact ⟨_,hr,h⟩
      · rintro ⟨r,hr,h⟩
        exact .all hr h
    rw [selectForced,mem_selectForcedAll_of fun r hr selected => ih r hr,hforces]
  | any options _ =>
    rw [forces_any_iff]
    by_cases hsingle : ∃ i, options = [.choice i]
    · obtain ⟨i,rfl⟩ := hsingle
      rw [selectForced,List.mem_insert_iff]
      simp [or_comm,eq_comm]
    · have hkeep : selectForced (any options) selected = selected := by
        rw [selectForced]
        exact fun i hi => hsingle ⟨i,hi⟩
      rw [hkeep]
      exact (or_iff_left fun h => hsingle ⟨j,h⟩).symm

theorem mem_selectForcedAll_iff :
    j ∈ selectForcedAll parts selected ↔ j ∈ selected ∨ ∃ r ∈ parts, r.Forces j :=
  mem_selectForcedAll_of fun _ _ _ => mem_selectForced_iff

end Requirement

open Requirement

/-- Of the carried assertions the order violates at most the one at position `i`. -/
def ViolatesOnly (carried : List Numbered) (i : Nat) (order : Suffix) : Prop :=
  ∀ x ∈ carried, x.1.Violates order → x.2 = i

theorem forces_ofNode_leaf {c : Candidate} {after : Suffix} {v : Bool} {ds : List Node} {i : Nat} :
    (ofNode (.mk c after [i] v [] ds)).Forces i := .only i

theorem eq_singleton_of_nodup {l : List Nat} {i : Nat} (hd : l.Nodup) (hne : l ≠ []) (h : ∀ j ∈ l, j = i) :
    l = [i] := by
  obtain ⟨j,rest,rfl⟩ := List.exists_cons_of_ne_nil hne
  obtain rfl := h j List.mem_cons_self
  have hrest : rest = [] := by
    apply List.eq_nil_iff_forall_not_mem.mpr
    intro k hk
    obtain rfl := h k (List.mem_cons_of_mem j hk)
    exact (List.nodup_cons.mp hd).1 hk
  rw [hrest]

namespace SearchRule
variable {r : SearchRule} {p : Policy} {carried : List Numbered} {after order s : Suffix} {c : Candidate}
  {x : Node} {i : Nat}

theorem pruningAt_sublist : (r.pruningAt p carried s).Sublist carried := by
  unfold pruningAt
  split
  · exact (List.take_sublist _ _).trans List.filter_sublist
  · exact List.filter_sublist

/-- What prunes a suffix of an order that violates only one assertion is that assertion. -/
theorem pruningAt_positions_eq (ha : ∀ x ∈ carried, x.1.WellFormed r.n) (hd : (carried.map (·.2)).Nodup)
    (hpruned : r.pruningAt p carried s ≠ []) (ho : IsOrder r.n order) (hso : s <:+ order)
    (hi : ViolatesOnly carried i order) : (r.pruningAt p carried s).map (·.2) = [i] := by
  have hnodup : ((r.pruningAt p carried s).map (·.2)).Nodup := hd.sublist (pruningAt_sublist.map _)
  apply eq_singleton_of_nodup hnodup (by simpa using hpruned)
  intro j hj
  obtain ⟨x,hx,rfl⟩ := List.mem_map.mp hj
  obtain ⟨hx,he⟩ := mem_of_mem_pruningAt hx
  exact hi x hx (Assertion.violates_of_effect (ha x hx) ho hso he)

/-- Once the only violated assertion has pruned a suffix, nothing carried on is violated. -/
theorem undecidedAt_not_violates (ha : ∀ x ∈ carried, x.1.WellFormed r.n) (hd : (carried.map (·.2)).Nodup)
    (hpruned : r.pruningAt p carried s ≠ []) (ho : IsOrder r.n order) (hso : s <:+ order)
    (hi : ViolatesOnly carried i order) : ∀ x ∈ undecidedAt carried s, ¬ x.1.Violates order := by
  intro x hx hv
  obtain ⟨hx,he⟩ := mem_undecidedAt.mp hx
  obtain ⟨y,hy⟩ := List.exists_mem_of_ne_nil _ hpruned
  obtain ⟨hy,hey⟩ := mem_of_mem_pruningAt hy
  have hyi : y.2 = i := hi y hy (Assertion.violates_of_effect (ha y hy) ho hso hey)
  obtain rfl : x = y := List.inj_on_of_nodup_map hd hx hy ((hi x hx hv).trans hyi.symm)
  rw [hey] at he
  cases he

/-- A tree through which an order leads that violates only one assertion forces this assertion, unless it is
valid. The order is followed until the assertion prunes a node; below it the order would be found valid. -/
theorem Builds.forces_of_violatesOnly (h : r.Builds p carried after c x)
    (ha : ∀ x ∈ carried, x.1.WellFormed r.n) (hd : (carried.map (·.2)).Nodup) (hs : Placed r.n (c :: after))
    (hv : x.valid = false) (ho : IsOrder r.n order) (hso : c :: after <:+ order)
    (hi : ViolatesOnly carried i order) : (ofNode x).Forces i := by
  induction h with
  | @decided p carried after c hu =>
    have hpruned : r.pruningAt p carried (c :: after) ≠ [] := by simpa [Node.valid] using hv
    rw [pruningAt_positions_eq ha hd hpruned ho hso hi]
    exact forces_ofNode_leaf
  | stopped hpruned hu hc =>
    rw [pruningAt_positions_eq ha hd hpruned ho hso hi]
    exact forces_ofNode_leaf
  | @opened p carried after c hpruned hu child hchild ih =>
    obtain ⟨d,hd',hdo⟩ := ho.exists_cons_suffix hso (unplaced_ne_nil ha hu hs)
    have hvalid : (child d).valid = false := by
      have hall : ∀ d ∈ unplaced r.n (c :: after), (child d).valid = false := by simpa [Node.valid] using hv
      exact hall d hd'
    have hbelow : ViolatesOnly (undecidedAt carried (c :: after)) i order :=
      fun x hx => hi x (mem_undecidedAt.mp hx).1
    have hnodup : ((undecidedAt carried (c :: after)).map (·.2)).Nodup :=
      hd.sublist (List.filter_sublist.map _)
    have hforces := ih d hd' (wellFormed_undecidedAt ha) hnodup (hs.cons hd') hvalid hdo hbelow
    rw [ofNode,ofNodes_eq_map]
    exact .all (List.mem_map_of_mem (List.mem_map_of_mem hd')) hforces
  | @passed p carried after c hpruned hu hc child hchild hinvalid ih =>
    obtain ⟨d,hd',hdo⟩ := ho.exists_cons_suffix hso (unplaced_ne_nil ha hu hs)
    have hnone := undecidedAt_not_violates ha hd hpruned ho hso hi
    have hwf : ∀ a ∈ (undecidedAt carried (c :: after)).map (·.1), a.WellFormed r.n :=
      List.forall_mem_map.mpr (wellFormed_undecidedAt ha)
    have hsurvives := (survivors_ne_nil_iff hwf (hs.cons hd')).mpr ⟨order,ho,hdo,List.forall_mem_map.mpr hnone⟩
    have hvalid := ((hchild d hd').valid_iff (hs.cons hd')).mpr hsurvives
    rw [hinvalid d hd'] at hvalid
    cases hvalid
  | dropped hpruned hu hc hchild hvalid ih =>
    rw [pruningAt_positions_eq ha hd hpruned ho hso hi]
    exact forces_ofNode_leaf

end SearchRule

/-! ## Leaving one assertion out -/

variable {n : Int} {w : Candidate} {assertions : List Assertion} {i : Nat}

theorem nodup_numbered_positions : ((numbered assertions).map (·.2)).Nodup := by
  rw [numbered_map_snd]
  exact List.nodup_range

def forcedPositions (n : Int) (winner : Option Candidate) (tree : Candidate → Node) : List Nat :=
  selectForcedAll ((searched n winner).map fun c => ofNode (tree c)) []

theorem mem_forcedPositions_iff {winner : Option Candidate} {tree : Candidate → Node} :
    i ∈ forcedPositions n winner tree ↔ ∃ c ∈ searched n winner, (ofNode (tree c)).Forces i := by
  rw [forcedPositions,mem_selectForcedAll_iff]
  simp

theorem mem_eraseIdx_of_numbered {x : Numbered} (hx : x ∈ numbered assertions) (hi : x.2 ≠ i) :
    x.1 ∈ assertions.eraseIdx i :=
  List.mem_eraseIdx_iff_getElem?.mpr ⟨x.2,hi,mem_numbered.mp hx⟩

/-- If the assertions suffice only together with the one at position `i`, some order won by a losing candidate
violates that one alone. -/
theorem exists_violatesOnly (h : ¬ Sufficient n (some w) (assertions.eraseIdx i)) :
    ∃ order, IsOrder n order ∧ order.getLast? ≠ some w ∧ ViolatesOnly (numbered assertions) i order := by
  unfold Sufficient at h
  push Not at h
  obtain ⟨order,ho,hlast,hnone⟩ := h
  refine ⟨order,ho,hlast,?_⟩
  intro x hx hv
  by_contra hi
  exact hnone x.1 (mem_eraseIdx_of_numbered hx hi) hv

/-- What suffices without the assertion at position `i` rules out each losing candidate by other positions. -/
theorem ruledOutBy_others (h : Sufficient n (some w) (assertions.eraseIdx i)) {c : Candidate} (hc : c ≠ w) :
    RuledOutBy n (numbered assertions) ((List.range assertions.length).filter (· ≠ i)) [c] := by
  intro order ho hso
  have hlast := getLast?_eq_some_iff_suffix.mpr hso
  have hother : order.getLast? ≠ some w := fun h => hc (Option.some.inj (hlast.symm.trans h))
  obtain ⟨a,ha,hv⟩ := h order ho hother
  obtain ⟨j,hj,haj⟩ := List.mem_eraseIdx_iff_getElem?.mp ha
  have hlen : j < assertions.length := (List.getElem?_eq_some_iff.mp haj).1
  have hselected : j ∈ (List.range assertions.length).filter (· ≠ i) :=
    List.mem_filter.mpr ⟨List.mem_range.mpr hlen,by simpa using hj⟩
  exact ⟨(a,j),mem_numbered.mpr haj,hselected,hv⟩

/-- Let the assertions rule out every losing candidate. Whatever the policy, the first pass of the selection
finds in the trees of the losing candidates all assertions without which the others would not suffice. If
the search never stops at pruned nodes it finds no other. -/
theorem mem_forcedPositions_of_indispensable (hcontest : WellFormedContest n (some w) assertions)
    (hsufficient : Sufficient n (some w) assertions) (p : Policy) :
    ∃ tree : Candidate → Node,
      (∀ c ∈ searched n (some w), (searchTree ⟨n,true⟩ p (numbered assertions) c).Gives (tree c)) ∧
      ∀ i, (¬ Sufficient n (some w) (assertions.eraseIdx i) → i ∈ forcedPositions n (some w) tree) ∧
        (p = .forever → i ∈ forcedPositions n (some w) tree →
          ¬ Sufficient n (some w) (assertions.eraseIdx i)) := by
  obtain ⟨hn,_,ha⟩ := hcontest
  have hwf := wellFormed_numbered ha
  refine ⟨(⟨n,true⟩ : SearchRule).rootTree p (numbered assertions),?_,?_⟩
  · intro c _
    exact (searchTree_takes ⟨n,true⟩ p (numbered assertions) c).gives
  intro i
  constructor
  · intro hindispensable
    obtain ⟨order,ho,hother,hi⟩ := exists_violatesOnly hindispensable
    obtain ⟨c,hc,hlast⟩ := ho.exists_last hn
    have hsearched : c ∈ searched n (some w) := mem_searched_iff.mpr ⟨hc,hlast ▸ hother⟩
    have hrange := mem_candidates.mp hc
    have hvalid : ((⟨n,true⟩ : SearchRule).rootTree p (numbered assertions) c).valid = false := by
      apply Bool.eq_false_iff.mpr
      intro hv
      have hcan := (rootTree_valid_iff_canWin true p ha hrange).mp hv
      exact hother (hlast.trans ((sufficient_iff_canWin hn).mp hsufficient c hcan))
    have hbuilds := SearchRule.rootTree_builds ⟨n,true⟩ p (numbered assertions) hrange
    have hforces := hbuilds.forces_of_violatesOnly hwf nodup_numbered_positions (placed_singleton hrange)
      hvalid ho (getLast?_eq_some_iff_suffix.mp hlast) hi
    exact mem_forcedPositions_iff.mpr ⟨c,hsearched,hforces⟩
  · intro hp hforced hdispensable
    obtain ⟨c,hc,hforces⟩ := mem_forcedPositions_iff.mp hforced
    obtain ⟨hc,hcw⟩ := mem_searched_iff.mp hc
    have hrange := mem_candidates.mp hc
    have hruled := ruledOutBy_others hdispensable fun e => hcw (congrArg some e)
    have hbuilds := SearchRule.rootTree_builds ⟨n,true⟩ p (numbered assertions) hrange
    have hmet := hbuilds.isMet_of_ruledOutBy rfl hp hwf (placed_singleton hrange) hruled
    have hi := hforces.mem_of_isMet hmet
    simp at hi

/-- Assertions for the winner 0 of three candidates. Each of the first and the last makes the other one
superfluous. -/
def eitherWithSecond : List Assertion := [.nen 2 1 (.ofList [0,1,2]),.neb 0 2,.neb 0 1]

theorem mem_forcedPositions_eitherWithSecond :
    WellFormedContest 3 (some 0) eitherWithSecond ∧ Sufficient 3 (some 0) eitherWithSecond ∧
    ∃ tree : Candidate → Node,
      (∀ c ∈ searched 3 (some 0),
        (searchTree ⟨3,true⟩ .forever (numbered eitherWithSecond) c).Gives (tree c)) ∧
      forcedPositions 3 (some 0) tree = [1] ∧
      ∀ i, (¬ Sufficient 3 (some 0) (eitherWithSecond.eraseIdx i) → i ∈ forcedPositions 3 (some 0) tree) ∧
        (Policy.forever = .forever → i ∈ forcedPositions 3 (some 0) tree →
          ¬ Sufficient 3 (some 0) (eitherWithSecond.eraseIdx i)) := by
  have hcontest : WellFormedContest 3 (some 0) eitherWithSecond := by decide
  have hsufficient : Sufficient 3 (some 0) eitherWithSecond :=
    (verifyContest_proven_iff (b := .unlimited) ⟨rfl,rfl⟩ hcontest).mp rfl
  obtain ⟨tree,htree,h⟩ := mem_forcedPositions_of_indispensable hcontest hsufficient .forever
  have hfirst := Except.ok.inj (htree 1 (by decide) .unlimited ⟨rfl,rfl⟩)
  have hsecond := Except.ok.inj (htree 2 (by decide) .unlimited ⟨rfl,rfl⟩)
  refine ⟨hcontest,hsufficient,tree,htree,?_,h⟩
  show Requirement.selectForcedAll [ofNode (tree 1),ofNode (tree 2)] [] = [1]
  rw [← hfirst,← hsecond]
  rfl

end RunoffAudit
