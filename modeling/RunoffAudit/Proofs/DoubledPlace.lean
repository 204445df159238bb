import RunoffAudit.Proofs.Outline
import RunoffAudit.Proofs.Selection

/-! # Doubling a place

Let an assertion be followed by a copy of itself. Both contradict the same suffixes, so the trees stay as they are,
but for a second place in each node that records the first. A node that could not do without the assertion
now has the choice, and the first pass of the selection passes it over. Otherwise both passes decide as
before, and neither ever selects the second place.
-/
namespace RunoffAudit
open Metered

variable {k i : Nat} {places selected : List Nat} {carried : List Numbered}

/-! ## Places and lists -/

/-- Where a place moves when the one at `k` is doubled. -/
def movedBehind (k i : Nat) : Nat := if i ≤ k then i else i + 1

def doubledAt (k i : Nat) : List Nat := movedBehind k i :: if i = k then [k + 1] else []

theorem movedBehind_injective (k : Nat) : Function.Injective (movedBehind k) := by
  intro i j h
  unfold movedBehind at h
  split_ifs at h <;> omega

theorem movedBehind_self (k : Nat) : movedBehind k k = k := if_pos (Nat.le_refl k)

theorem movedBehind_ne (k i : Nat) : movedBehind k i ≠ k + 1 := by
  unfold movedBehind
  split_ifs <;> omega

theorem doubledAt_self (k : Nat) : doubledAt k k = [k,k + 1] := by
  simp [doubledAt,movedBehind_self]

theorem doubledAt_of_ne (h : i ≠ k) : doubledAt k i = [movedBehind k i] := by
  simp [doubledAt,h]

theorem flatMap_doubledAt_cons (k i : Nat) (rest : List Nat) :
    ∃ others, (i :: rest).flatMap (doubledAt k) = movedBehind k i :: others :=
  ⟨_,rfl⟩

theorem movedBehind_mem_iff : movedBehind k i ∈ selected.map (movedBehind k) ↔ i ∈ selected :=
  List.mem_map_of_injective (movedBehind_injective k)

theorem second_not_mem : k + 1 ∉ selected.map (movedBehind k) := by
  intro h
  obtain ⟨i,_,hi⟩ := List.mem_map.mp h
  exact movedBehind_ne k i hi

theorem exists_doubledAt_mem_iff : (∃ j ∈ places.flatMap (doubledAt k), j ∈ selected.map (movedBehind k)) ↔
    ∃ i ∈ places, i ∈ selected := by
  constructor
  · rintro ⟨j,hj,hsel⟩
    obtain ⟨i,hi,hj⟩ := List.mem_flatMap.mp hj
    rcases List.mem_cons.mp hj with rfl | hj
    · exact ⟨i,hi,movedBehind_mem_iff.mp hsel⟩
    · -- the second place is never selected
      split_ifs at hj
      · exact absurd (List.mem_singleton.mp hj ▸ hsel) second_not_mem
      · cases hj
  · rintro ⟨i,hi,hsel⟩
    exact ⟨movedBehind k i,List.mem_flatMap.mpr ⟨i,hi,List.mem_cons_self⟩,movedBehind_mem_iff.mpr hsel⟩

/-- The numbered assertions that stand for one when the place `k` is doubled. -/
def copiesOf (k : Nat) (x : Numbered) : List Numbered := (doubledAt k x.2).map fun i => (x.1,i)

theorem copiesOf_of_lt {x : Numbered} (h : x.2 < k) : copiesOf k x = [x] := by
  simp [copiesOf,doubledAt_of_ne (Nat.ne_of_lt h),movedBehind,Nat.le_of_lt h]

theorem copiesOf_of_gt {x : Numbered} (h : k < x.2) : copiesOf k x = [(x.1,x.2 + 1)] := by
  simp [copiesOf,doubledAt_of_ne (Nat.ne_of_gt h),movedBehind,Nat.not_le_of_lt h]

/-- In a list with the copy right behind its assertion, the other assertions behind it are moved by one place. -/
theorem numbered_doubled (before after : List Assertion) (a : Assertion) :
    numbered (before ++ a :: a :: after) = (numbered (before ++ a :: after)).flatMap (copiesOf before.length) := by
  have hbefore : before.zipIdx.flatMap (copiesOf before.length) = before.zipIdx := by
    rw [List.flatMap_congr fun x hx => copiesOf_of_lt (by simpa using List.snd_lt_of_mem_zipIdx hx)]
    simp
  have hafter : (after.zipIdx (before.length + 1)).flatMap (copiesOf before.length) =
      after.zipIdx (before.length + 1 + 1) := by
    rw [List.flatMap_congr fun x hx => copiesOf_of_gt (List.le_snd_of_mem_zipIdx hx),← List.map_eq_flatMap]
    exact List.zipIdx_succ.symm
  have hself : copiesOf before.length (a,before.length) = [(a,before.length),(a,before.length + 1)] := by
    simp [copiesOf,doubledAt_self]
  rw [numbered,numbered,List.zipIdx_append,List.zipIdx_append,List.flatMap_append,Nat.zero_add,hbefore,
    List.zipIdx_cons,List.zipIdx_cons,List.zipIdx_cons,List.flatMap_cons,hself,hafter]
  rfl

theorem filter_flatMap_copiesOf (q : Assertion → Bool) (carried : List Numbered) :
    (carried.flatMap (copiesOf k)).filter (fun x => q x.1) =
      (carried.filter fun x => q x.1).flatMap (copiesOf k) := by
  induction carried with
  | nil => rfl
  | cons x rest ih =>
    rw [List.flatMap_cons,List.filter_append,ih]
    cases hq : q x.1 with
    | true => simp [copiesOf,List.filter_map,Function.comp_def,hq]
    | false => simp [copiesOf,List.filter_map,Function.comp_def,hq]

theorem map_flatMap_copiesOf (carried : List Numbered) :
    (carried.flatMap (copiesOf k)).map (·.2) = (carried.map (·.2)).flatMap (doubledAt k) := by
  rw [List.map_flatMap,List.flatMap_map]
  apply List.flatMap_congr
  intro x _
  simp [copiesOf,Function.comp_def]

/-- Of the copies at most the first is selected. -/
theorem filter_copiesOf (k : Nat) (selected : List Nat) (x : Numbered) :
    (copiesOf k x).filter (·.2 ∈ selected.map (movedBehind k)) =
      if x.2 ∈ selected then [(x.1,movedBehind k x.2)] else [] := by
  have hsecond : ((if x.2 = k then [k + 1] else []).map fun i => (x.1,i)).filter
      (·.2 ∈ selected.map (movedBehind k)) = [] := by
    apply List.filter_eq_nil_iff.mpr
    intro y hy
    obtain ⟨i,hi,rfl⟩ := List.mem_map.mp hy
    split_ifs at hi
    · rw [List.mem_singleton.mp hi,decide_eq_true_eq]
      exact second_not_mem
    · cases hi
  rw [copiesOf,doubledAt,List.map_cons,List.filter_cons,hsecond]
  simp only [decide_eq_true_eq,movedBehind_mem_iff]

theorem isEmpty_flatMap_copiesOf (carried : List Numbered) :
    (carried.flatMap (copiesOf k)).isEmpty = carried.isEmpty := by
  cases carried <;> rfl

theorem any_flatMap_copiesOf (q : Assertion → Bool) (carried : List Numbered) :
    (carried.flatMap (copiesOf k)).any (fun x => q x.1) = carried.any fun x => q x.1 := by
  rw [List.any_flatMap]
  congr 1
  funext x
  unfold copiesOf doubledAt
  split_ifs <;> simp

/-! ## Trees -/

/-- The tree with the place `k` doubled in every node. -/
def Node.doubled (k : Nat) (x : Node) : Node := x.mapPruning (·.flatMap (doubledAt k))

theorem pruningAt_doubled (n : Int) (p : Policy) (s : Suffix) :
    SearchRule.pruningAt ⟨n,true⟩ p (carried.flatMap (copiesOf k)) s =
      (SearchRule.pruningAt ⟨n,true⟩ p carried s).flatMap (copiesOf k) :=
  filter_flatMap_copiesOf (fun a => a.effect s = .contradiction) carried

theorem undecidedAt_doubled (s : Suffix) : SearchRule.undecidedAt (carried.flatMap (copiesOf k)) s =
    (SearchRule.undecidedAt carried s).flatMap (copiesOf k) :=
  filter_flatMap_copiesOf (fun a => a.effect s = .undetermined) carried

theorem join_doubled (pruning undecided : List Numbered) (after : Suffix) (c : Candidate) (xs : List Node) :
    Node.join c after (pruning.flatMap (copiesOf k)) (undecided.flatMap (copiesOf k)) (xs.map (Node.doubled k)) =
      (Node.join c after pruning undecided xs).doubled k :=
  Node.join_mapPruning _ (map_flatMap_copiesOf pruning) (isEmpty_flatMap_copiesOf pruning)
    (isEmpty_flatMap_copiesOf undecided) c after xs

theorem valid_doubled (x : Node) : (x.doubled k).valid = x.valid := Node.valid_mapPruning _ x

/-- The search goes the same way, whatever the policy: the copy is an NEB or NEN as its assertion is. -/
theorem tree_doubled (n : Int) (k room : Nat) (p : Policy) (carried : List Numbered) (after : Suffix) (c : Candidate) :
    SearchRule.tree ⟨n,true⟩ room p (carried.flatMap (copiesOf k)) after c =
      (SearchRule.tree ⟨n,true⟩ room p carried after c).doubled k := by
  induction room generalizing p carried after c with
  | zero =>
    rw [SearchRule.tree,SearchRule.tree,pruningAt_doubled,undecidedAt_doubled]
    exact join_doubled _ _ after c []
  | succ room ih =>
    have hchild (q : Policy) (carried : List Numbered) (after : Suffix) :
        SearchRule.tree ⟨n,true⟩ room q (carried.flatMap (copiesOf k)) after =
          fun d => (SearchRule.tree ⟨n,true⟩ room q carried after d).doubled k := funext fun d => ih q carried after d
    rw [SearchRule.tree,SearchRule.tree,pruningAt_doubled,undecidedAt_doubled,← join_doubled]
    simp only [isEmpty_flatMap_copiesOf,any_flatMap_copiesOf Assertion.isNEB,hchild]
    congr 1
    split_ifs
    · rfl
    · rw [map_visitedChildren valid_doubled]
    · rw [map_visitedChildren valid_doubled]
    · rfl

/-! ## The selection -/

theorem insert_map_movedBehind (k i : Nat) (selected : List Nat) :
    (selected.map (movedBehind k)).insert (movedBehind k i) = (selected.insert i).map (movedBehind k) := by
  by_cases hi : i ∈ selected
  · rw [List.insert_of_mem hi,List.insert_of_mem (movedBehind_mem_iff.mpr hi)]
  · rw [List.insert_of_not_mem hi,List.insert_of_not_mem (movedBehind_mem_iff.not.mpr hi)]
    rfl

/-- What is left of a selection without the place `k`, when this is doubled. -/
def sparedBehind (k : Nat) (selected : List Nat) : List Nat := (selected.filter (· ≠ k)).map (movedBehind k)

theorem sparedBehind_insert_self (k : Nat) (selected : List Nat) :
    sparedBehind k (selected.insert k) = sparedBehind k selected := by
  by_cases hk : k ∈ selected
  · rw [List.insert_of_mem hk]
  · rw [List.insert_of_not_mem hk,sparedBehind,List.filter_cons_of_neg (by simp)]
    rfl

theorem sparedBehind_insert_of_ne (h : i ≠ k) (selected : List Nat) :
    sparedBehind k (selected.insert i) = (sparedBehind k selected).insert (movedBehind k i) := by
  rw [sparedBehind,sparedBehind,insert_map_movedBehind]
  by_cases hi : i ∈ selected
  · have hi' : i ∈ selected.filter (· ≠ k) := List.mem_filter.mpr ⟨hi,by simpa using h⟩
    rw [List.insert_of_mem hi,List.insert_of_mem hi']
  · have hi' : i ∉ selected.filter (· ≠ k) := fun hm => hi (List.mem_filter.mp hm).1
    rw [List.insert_of_not_mem hi,List.insert_of_not_mem hi',List.filter_cons_of_pos (by simpa using h)]

theorem not_mem_sparedBehind : k ∉ sparedBehind k selected := by
  intro hk
  obtain ⟨i,hi,hik⟩ := List.mem_map.mp hk
  have hne : i ≠ k := of_decide_eq_true (List.mem_filter.mp hi).2
  exact hne (movedBehind_injective k (hik.trans (movedBehind_self k).symm))

namespace Requirement

theorem ofNode_doubled (k : Nat) (c : Candidate) (after : Suffix) (p : List Nat) (v : Bool) (cs ds : List Node) :
    ofNode ((Node.mk c after p v cs ds).doubled k) =
      ofNode (.mk c after (p.flatMap (doubledAt k)) v (cs.map (Node.doubled k)) []) := by
  rw [Node.doubled,Node.mapPruning,Node.mapPruningAll_eq_map,ofNode,ofNode]
  rfl

theorem isMet_doubled (k : Nat) (selected : List Nat) (x : Node) :
    (ofNode (x.doubled k)).isMet (selected.map (movedBehind k)) = (ofNode x).isMet selected := by
  induction x using Node.children_induction with
  | h c after p v cs ds ih =>
    rw [Bool.eq_iff_iff,ofNode_doubled,isMet_ofNode_iff,isMet_ofNode_iff,exists_doubledAt_mem_iff,
      List.forall_mem_map,ne_eq,List.map_eq_nil_iff]
    simp only [ne_eq]
    refine or_congr Iff.rfl (and_congr Iff.rfl (forall₂_congr fun y hy => ?_))
    rw [ih y hy]

theorem selectForcedAll_doubled (selected : List Nat) {xs : List Node} (h : ∀ x ∈ xs, ∀ selected,
      selectForced (ofNode (x.doubled k)) (sparedBehind k selected) =
        sparedBehind k (selectForced (ofNode x) selected)) :
    selectForcedAll (ofNodes (xs.map (Node.doubled k))) (sparedBehind k selected) =
      sparedBehind k (selectForcedAll (ofNodes xs) selected) := by
  induction xs generalizing selected with
  | nil => rfl
  | cons x rest ih =>
    rw [List.map_cons,ofNodes,ofNodes,selectForcedAll,selectForcedAll,h x List.mem_cons_self]
    exact ih _ fun y hy => h y (List.mem_cons_of_mem x hy)

theorem selectForced_doubled (x : Node) (selected : List Nat) :
    selectForced (ofNode (x.doubled k)) (sparedBehind k selected) =
      sparedBehind k (selectForced (ofNode x) selected) := by
  induction x using Node.children_induction generalizing selected with
  | h c after p v cs ds ih =>
    rw [ofNode_doubled]
    -- a node forces a place only if it has this one contradiction and no children
    match p, cs with
    | [], cs => exact selectForcedAll_doubled selected ih
    | [i], [] =>
      by_cases hi : i = k
      · subst hi
        rw [List.flatMap_singleton,doubledAt_self]
        exact (sparedBehind_insert_self i selected).symm
      · rw [List.flatMap_singleton,doubledAt_of_ne hi]
        exact (sparedBehind_insert_of_ne hi selected).symm
    | [i], y :: cs =>
      by_cases hi : i = k
      · subst hi
        rw [List.flatMap_singleton,doubledAt_self]
        rfl
      · rw [List.flatMap_singleton,doubledAt_of_ne hi]
        rfl
    | i :: j :: rest, cs =>
      by_cases hi : i = k
      · subst hi
        rw [List.flatMap_cons,doubledAt_self]
        rfl
      · rw [List.flatMap_cons,doubledAt_of_ne hi,List.flatMap_cons]
        rfl

theorem selectRemaining_ofNode_open (c : Candidate) (after : Suffix) (v : Bool) (cs ds : List Node)
    (selected : List Nat) : selectRemaining (ofNode (.mk c after [] v cs ds)) selected =
      (do tick; selectRemainingAll (ofNodes cs) selected) := by
  rw [ofNode,List.isEmpty_nil,if_pos rfl,selectRemaining]

/-- At a pruned node the second pass selects the first contradiction unless the node is met. -/
theorem selectRemaining_ofNode_pruned (c : Candidate) (after : Suffix) (i : Nat) (rest : List Nat) (v : Bool)
    (cs ds : List Node) (selected : List Nat) :
    selectRemaining (ofNode (.mk c after (i :: rest) v cs ds)) selected = do
      tick
      return some (if (ofNode (.mk c after (i :: rest) v cs ds)).isMet selected = true then selected
        else selected.insert i) := by
  rw [ofNode,List.isEmpty_cons,if_neg Bool.false_ne_true,selectRemaining,isMet]
  congr 1
  funext _
  split_ifs <;> rfl

theorem selectRemainingAll_doubled {xs : List Node} (h : ∀ x ∈ xs, ∀ selected,
      selectRemaining (ofNode (x.doubled k)) (selected.map (movedBehind k)) = do
        return (← selectRemaining (ofNode x) selected).map (List.map (movedBehind k))) :
    selectRemainingAll (ofNodes (xs.map (Node.doubled k))) (selected.map (movedBehind k)) = do
      return (← selectRemainingAll (ofNodes xs) selected).map (List.map (movedBehind k)) := by
  induction xs generalizing selected with
  | nil => rfl
  | cons x rest ih =>
    have hrest := fun y hy => h y (List.mem_cons_of_mem x hy)
    rw [List.map_cons,ofNodes,ofNodes,selectRemainingAll,selectRemainingAll,h x List.mem_cons_self]
    simp only [bind_assoc,pure_bind]
    congr 1
    funext chosen
    cases chosen with
    | none => rfl
    | some middle => exact ih hrest

theorem selectRemaining_doubled (x : Node) (selected : List Nat) :
    selectRemaining (ofNode (x.doubled k)) (selected.map (movedBehind k)) = do
      return (← selectRemaining (ofNode x) selected).map (List.map (movedBehind k)) := by
  induction x using Node.children_induction generalizing selected with
  | h c after p v cs ds ih =>
    cases p with
    | nil =>
      rw [ofNode_doubled,List.flatMap_nil,selectRemaining_ofNode_open,selectRemaining_ofNode_open,
        selectRemainingAll_doubled ih,bind_assoc]
    | cons i rest =>
      have hmet := isMet_doubled k selected (.mk c after (i :: rest) v cs ds)
      obtain ⟨others,hothers⟩ := flatMap_doubledAt_cons k i rest
      rw [ofNode_doubled,hothers] at hmet ⊢
      rw [selectRemaining_ofNode_pruned,selectRemaining_ofNode_pruned,hmet,insert_map_movedBehind,bind_assoc]
      congr 1
      funext _
      rw [pure_bind]
      split_ifs <;> rfl

end Requirement
end RunoffAudit
