import RunoffAudit.Proofs.Verification

/-! # The search tree as a certificate

The tree of a verification can be checked by itself. Its leaves are the places where a suffix is cut as
soon as the assertions settle it, so every order won by the candidate ends in exactly one of them. A
pruned leaf names assertions that all orders below it violate; below a valid leaf no order violates any.
-/
namespace RunoffAudit
open Metered

namespace Node

theorem leaves_of_childless (c : Candidate) (after : Suffix) (p : List Nat) (v : Bool) (ds : List Node) :
    (mk c after p v [] ds).leaves = [mk c after p v [] ds] := rfl

theorem leaves_of_children (c : Candidate) (after : Suffix) (p : List Nat) (v : Bool) {cs : List Node}
    (ds : List Node) (h : cs ≠ []) : (mk c after p v cs ds).leaves = cs.flatMap leaves := by
  have hroot : (mk c after p v cs ds).children.isEmpty = false := by simpa [children] using h
  rw [leaves,walk,walkAll_eq_flatMap,List.filter_cons,hroot,List.filter_flatMap]
  rfl

theorem prunedNodes_mk (c : Candidate) (after : Suffix) (p : List Nat) (v : Bool) (cs ds : List Node) :
    (mk c after p v cs ds).prunedNodes =
      (if p = [] then [] else [mk c after p v cs ds]) ++ cs.flatMap prunedNodes := by
  rw [prunedNodes,walk,walkAll_eq_flatMap,List.filter_cons,List.filter_flatMap]
  cases p <;> rfl

end Node

namespace SearchRule
variable {r : SearchRule} {carried : List Numbered} {after s : Suffix} {c : Candidate} {x y : Node}

/-- In a search that stops at pruned nodes there are two kinds of nodes: leaves, where the assertions settle
the suffix, and unpruned nodes with a child for every open candidate. -/
theorem Builds.stop_induction {motive : List Numbered → Suffix → Candidate → Node → Prop}
    (leaf : ∀ carried after c, settled (carried.map (·.1)) (c :: after) = true →
      motive carried after c (.mk c after ((r.pruningAt .stopImmediately carried (c :: after)).map (·.2))
        (r.pruningAt .stopImmediately carried (c :: after)).isEmpty [] []))
    (opened : ∀ carried after c (child : Candidate → Node),
      r.pruningAt .stopImmediately carried (c :: after) = [] → undecidedAt carried (c :: after) ≠ [] →
      (∀ d ∈ unplaced r.n (c :: after),
        r.Builds .stopImmediately (undecidedAt carried (c :: after)) (c :: after) d (child d) ∧
        motive (undecidedAt carried (c :: after)) (c :: after) d (child d)) →
      motive carried after c (.mk c after [] ((unplaced r.n (c :: after)).any fun d => (child d).valid)
        ((unplaced r.n (c :: after)).map child) []))
    (h : r.Builds .stopImmediately carried after c x) : motive carried after c x := by
  generalize hp : Policy.stopImmediately = p at h
  induction h with
  | decided hu =>
    subst hp
    exact leaf _ _ _ ((settled_map_iff (r := r) (p := .stopImmediately)).mpr (Or.inr hu))
  | @stopped p carried after c hpruned hu hc =>
    subst hp
    have hvalid : (r.pruningAt .stopImmediately carried (c :: after)).isEmpty = false := by simpa using hpruned
    rw [← hvalid]
    exact leaf _ _ _ (settled_map_iff.mpr (Or.inl hpruned))
  | opened hpruned hu hchild ih =>
    subst hp
    exact opened _ _ _ _ hpruned hu fun d hd => ⟨hchild d hd,ih d hd rfl⟩
  | passed hpruned hu hc =>
    subst hp
    cases hc
  | dropped hpruned hu hc =>
    subst hp
    cases hc

/-- A search that stops at pruned nodes has its leaves where the assertions settle a suffix. -/
theorem Builds.leaves_map_suffix (h : r.Builds .stopImmediately carried after c x)
    (ha : ∀ x ∈ carried, x.1.WellFormed r.n) (hs : Placed r.n (c :: after)) :
    x.leaves.map Node.suffix = cut r.n (settled (carried.map (·.1))) (c :: after) := by
  refine h.stop_induction (motive := fun carried after c x => (∀ x ∈ carried, x.1.WellFormed r.n) →
    Placed r.n (c :: after) →
      x.leaves.map Node.suffix = cut r.n (settled (carried.map (·.1))) (c :: after)) ?leaf ?opened ha hs
  case leaf =>
    intro carried after c hstop _ _
    rw [cut_of_stop hstop,Node.leaves_of_childless]
    rfl
  case opened =>
    intro carried after c child hpruned hu ih ha hs
    have hr : refuted (carried.map (·.1)) (c :: after) = false := pruningAt_eq_nil_iff.mp hpruned
    have hchildren : (unplaced r.n (c :: after)).map child ≠ [] := by
      simpa using unplaced_ne_nil ha hu hs
    rw [cut_of_not_stop (settled_open hpruned hu),Node.leaves_of_children _ _ _ _ _ hchildren]
    rw [List.flatMap_map,List.map_flatMap]
    apply List.flatMap_congr
    intro d hd
    rw [(ih d hd).2 (wellFormed_undecidedAt ha) (hs.cons hd),undecidedAt_map]
    apply cut_congr (hs.cons hd)
    intro t ht hdt
    -- whatever settles a longer suffix is among the assertions carried on
    obtain ⟨hrefuted,hgranted⟩ := agree_undecided hr ht ((List.suffix_cons d _).trans hdt)
    rw [settled,settled,hrefuted,hgranted]

/-- What is recorded at a leaf is true of its suffix. -/
def Justified (carried : List Numbered) (y : Node) : Prop :=
  (y.pruning ≠ [] ∧ y.valid = false ∧
    ∀ i ∈ y.pruning, ∃ a, (a,i) ∈ carried ∧ a.effect y.suffix = .contradiction) ∨
  (y.pruning = [] ∧ y.valid = true ∧ granted (carried.map (·.1)) y.suffix = true)

theorem justified_leaf (hstop : settled (carried.map (·.1)) (c :: after) = true) :
    Justified carried (.mk c after ((r.pruningAt .stopImmediately carried (c :: after)).map (·.2))
      (r.pruningAt .stopImmediately carried (c :: after)).isEmpty [] []) := by
  by_cases hpruned : r.pruningAt .stopImmediately carried (c :: after) = []
  · rw [hpruned]
    refine Or.inr ⟨rfl,rfl,?_⟩
    rcases Bool.or_eq_true_iff.mp hstop with hr | hg
    · rw [pruningAt_eq_nil_iff.mp hpruned] at hr
      cases hr
    · exact hg
  · refine Or.inl ⟨by simpa [Node.pruning] using hpruned,by simpa [Node.valid] using hpruned,?_⟩
    intro i hi
    obtain ⟨⟨a,_⟩,hx,rfl⟩ := List.mem_map.mp hi
    obtain ⟨hx,he⟩ := mem_of_mem_pruningAt hx
    exact ⟨a,hx,he⟩

theorem Builds.justified (h : r.Builds .stopImmediately carried after c x)
    (ha : ∀ x ∈ carried, x.1.WellFormed r.n) (hs : Placed r.n (c :: after)) :
    ∀ y ∈ x.leaves, Justified carried y := by
  refine h.stop_induction (motive := fun carried after c x => (∀ x ∈ carried, x.1.WellFormed r.n) →
    Placed r.n (c :: after) → ∀ y ∈ x.leaves, Justified carried y) ?leaf ?opened ha hs
  case leaf =>
    intro carried after c hstop _ _ y hy
    rw [Node.leaves_of_childless,List.mem_singleton] at hy
    exact hy ▸ justified_leaf hstop
  case opened =>
    intro carried after c child hpruned hu ih ha hs y hy
    have hr : refuted (carried.map (·.1)) (c :: after) = false := pruningAt_eq_nil_iff.mp hpruned
    have hchildren : (unplaced r.n (c :: after)).map child ≠ [] := by
      simpa using unplaced_ne_nil ha hu hs
    rw [Node.leaves_of_children _ _ _ _ _ hchildren,List.flatMap_map] at hy
    obtain ⟨d,hd,hy⟩ := List.mem_flatMap.mp hy
    obtain ⟨hbuilds,hjustified⟩ := ih d hd
    have hbelow := wellFormed_undecidedAt (s := c :: after) ha
    rcases hjustified hbelow (hs.cons hd) y hy with ⟨hne,hv,hall⟩ | ⟨hnil,hv,hg⟩
    · refine Or.inl ⟨hne,hv,?_⟩
      intro i hi
      obtain ⟨a,hx,he⟩ := hall i hi
      exact ⟨a,(mem_undecidedAt.mp hx).1,he⟩
    · have hcut : y.suffix ∈ (child d).leaves.map Node.suffix := List.mem_map_of_mem hy
      rw [hbuilds.leaves_map_suffix hbelow (hs.cons hd)] at hcut
      obtain ⟨hplaced,hsuffix,_⟩ := of_mem_cut (hs.cons hd) hcut
      obtain ⟨_,hgranted⟩ := agree_undecided hr hplaced ((List.suffix_cons d _).trans hsuffix)
      rw [undecidedAt_map,← hgranted] at hg
      exact Or.inr ⟨hnil,hv,hg⟩

theorem Builds.prunedNodes_eq (h : r.Builds .stopImmediately carried after c x) :
    x.prunedNodes = x.leaves.filter Node.pruned := by
  refine h.stop_induction (motive := fun _ _ _ x => x.prunedNodes = x.leaves.filter Node.pruned)
    ?leaf ?opened
  case leaf =>
    intro carried after c _
    rw [Node.prunedNodes_mk,Node.leaves_of_childless,List.filter_singleton]
    cases r.pruningAt .stopImmediately carried (c :: after) <;> rfl
  case opened =>
    intro carried after c child _ _ ih
    rw [Node.prunedNodes_mk,if_pos rfl,List.nil_append,List.flatMap_map]
    by_cases hnil : unplaced r.n (c :: after) = []
    · rw [hnil]
      rfl
    · rw [Node.leaves_of_children _ _ _ _ _ (by simpa using hnil),List.flatMap_map,List.filter_flatMap]
      apply List.flatMap_congr
      intro d hd
      exact (ih d hd).2

end SearchRule

variable {n : Int} {assertions : List Assertion} {c : Candidate} {y : Node}

/-- The leaves of the tree account for every order won by the candidate. -/
structure Node.Certifies (x : Node) (n : Int) (assertions : List Assertion) (c : Candidate) : Prop where
  leaves_distinct : (x.leaves.map Node.suffix).Nodup
  exists_leaf : ∀ order, IsOrder n order → order.getLast? = some c →
    ∃! s, s ∈ x.leaves.map Node.suffix ∧ s <:+ order
  pruned_or_valid : ∀ y ∈ x.leaves,
    (y.pruned = true ∧ y.valid = false ∧ y.pruning ≠ [] ∧ ∀ i ∈ y.pruning, ∃ a, assertions[i]? = some a ∧
      ∀ order, IsOrder n order → y.suffix <:+ order → a.Violates order) ∨
    (y.pruned = false ∧ y.valid = true ∧
      ∀ order, IsOrder n order → y.suffix <:+ order → ∀ a ∈ assertions, ¬ a.Violates order)

def verdictTree (n : Int) (assertions : List Assertion) (c : Candidate) : Node :=
  (⟨n,false⟩ : SearchRule).rootTree .stopImmediately (numbered assertions) c

theorem verdictTree_builds (hc : 0 ≤ c ∧ c < n) :
    (⟨n,false⟩ : SearchRule).Builds .stopImmediately (numbered assertions) [] c (verdictTree n assertions c) :=
  SearchRule.rootTree_builds _ _ _ hc

theorem verdictTree_leaves_map_suffix (ha : ∀ a ∈ assertions, a.WellFormed n) (hc : 0 ≤ c ∧ c < n) :
    (verdictTree n assertions c).leaves.map Node.suffix = cut n (settled assertions) [c] := by
  have h := (verdictTree_builds hc).leaves_map_suffix (wellFormed_numbered ha) (placed_singleton hc)
  rwa [numbered_map_fst] at h

theorem verdictTree_justified (ha : ∀ a ∈ assertions, a.WellFormed n) (hc : 0 ≤ c ∧ c < n) :
    ∀ y ∈ (verdictTree n assertions c).leaves, SearchRule.Justified (numbered assertions) y :=
  (verdictTree_builds hc).justified (wellFormed_numbered ha) (placed_singleton hc)

theorem verdictTree_certifies (ha : ∀ a ∈ assertions, a.WellFormed n) (hc : 0 ≤ c ∧ c < n) :
    (verdictTree n assertions c).Certifies n assertions c := by
  have hleaves := verdictTree_leaves_map_suffix ha hc
  constructor
  case leaves_distinct =>
    rw [hleaves]
    exact nodup_cut (placed_singleton hc)
  case exists_leaf =>
    intro order ho hlast
    rw [hleaves]
    exact existsUnique_mem_cut ho (getLast?_eq_some_iff_suffix.mp hlast) (settled_of_isOrder ha ho)
  case pruned_or_valid =>
    intro y hy
    rcases verdictTree_justified ha hc y hy with ⟨hne,hv,hall⟩ | ⟨hnil,hv,hg⟩
    · refine Or.inl ⟨by simpa [Node.pruned] using hne,hv,hne,?_⟩
      intro i hi
      obtain ⟨a,hx,he⟩ := hall i hi
      have hai := mem_numbered.mp hx
      have hwf := ha a (List.mem_of_getElem? hai)
      exact ⟨a,hai,fun order ho hso => Assertion.violates_of_effect hwf ho hso he⟩
    · rw [numbered_map_fst] at hg
      refine Or.inr ⟨by simp [Node.pruned,hnil],hv,?_⟩
      exact fun order ho hso => not_violates_of_granted ha hg ho hso

theorem prunedBy_map_fst (n : Int) (assertions : List Assertion) (c : Candidate) :
    (searchVerdict n assertions c).prunedBy.map (·.1) =
      (verdictTree n assertions c).prunedNodes.map Node.suffix := by
  simp only [Verdict.prunedBy,List.map_map]
  rfl

theorem nodup_prunedBy_map_fst (ha : ∀ a ∈ assertions, a.WellFormed n) (hc : 0 ≤ c ∧ c < n) :
    ((searchVerdict n assertions c).prunedBy.map (·.1)).Nodup := by
  rw [prunedBy_map_fst,(verdictTree_builds hc).prunedNodes_eq]
  exact (verdictTree_certifies ha hc).leaves_distinct.sublist (List.filter_sublist.map _)

/-- The tree of a candidate that is ruled out has no other leaves than pruned ones. -/
theorem prunedNodes_eq_leaves (ha : ∀ a ∈ assertions, a.WellFormed n) (hc : 0 ≤ c ∧ c < n)
    (hv : (searchVerdict n assertions c).valid = false) :
    (verdictTree n assertions c).prunedNodes = (verdictTree n assertions c).leaves := by
  rw [(verdictTree_builds hc).prunedNodes_eq]
  apply List.filter_eq_self.mpr
  intro y hy
  rcases verdictTree_justified ha hc y hy with ⟨hne,_⟩ | ⟨_,_,hg⟩
  · simpa [Node.pruned] using hne
  · have hcut : y.suffix ∈ (verdictTree n assertions c).leaves.map Node.suffix := List.mem_map_of_mem hy
    rw [verdictTree_leaves_map_suffix ha hc] at hcut
    rw [numbered_map_fst] at hg
    have hsurvives : y.suffix ∈ survivors n assertions [c] := List.mem_filter.mpr ⟨hcut,hg⟩
    have hvalid := (searchVerdict_valid_iff hc).mpr (List.ne_nil_of_mem hsurvives)
    rw [hv] at hvalid
    cases hvalid

theorem existsUnique_prunedBy_iff (ha : ∀ a ∈ assertions, a.WellFormed n) (hc : 0 ≤ c ∧ c < n)
    (hv : (searchVerdict n assertions c).valid = false) {order : Suffix} (ho : IsOrder n order) :
    order.getLast? = some c ↔
      ∃! s, s ∈ (searchVerdict n assertions c).prunedBy.map (·.1) ∧ s <:+ order := by
  rw [prunedBy_map_fst,prunedNodes_eq_leaves ha hc hv]
  constructor
  · exact (verdictTree_certifies ha hc).exists_leaf order ho
  · rintro ⟨s,⟨hs,hso⟩,_⟩
    rw [verdictTree_leaves_map_suffix ha hc] at hs
    exact getLast?_eq_some_iff_suffix.mpr ((of_mem_cut (placed_singleton hc) hs).2.1.trans hso)

/-- The tree of every verification is a certificate. The pruned suffixes are the keys of a dictionary in which
no pruned node is lost, and if the candidate is ruled out each order belongs to one key exactly if the
candidate wins it. -/
theorem verify_tree_certifies (hsearch : WellFormedSearch n c assertions) :
    ∃ v tree, (verify n assertions c).Gives v ∧ v.tree = some tree ∧
      tree.Certifies n assertions c ∧
      (v.prunedBy.map (·.1)).Nodup ∧
      (Std.HashMap.ofList v.prunedBy).size = tree.prunedNodes.length ∧
      (∀ y ∈ tree.prunedNodes, (Std.HashMap.ofList v.prunedBy)[y.suffix]? = some y.pruning) ∧
      (v.ruledOut = true → ∀ order, IsOrder n order →
        (order.getLast? = some c ↔ ∃! s, s ∈ v.prunedBy.map (·.1) ∧ s <:+ order)) := by
  obtain ⟨hc,ha⟩ := hsearch
  have hnodup := nodup_prunedBy_map_fst ha hc
  have hdistinct : (searchVerdict n assertions c).prunedBy.Pairwise fun e f => (e.1 == f.1) = false :=
    (List.pairwise_map.mp hnodup).imp fun h => beq_false_of_ne h
  refine ⟨searchVerdict n assertions c,verdictTree n assertions c,(verify_takes ha hc).gives,rfl,
    verdictTree_certifies ha hc,hnodup,?_,?_,?_⟩
  · rw [Std.HashMap.size_ofList hdistinct]
    exact List.length_map _
  · intro y hy
    apply Std.HashMap.getElem?_ofList_of_mem (beq_self_eq_true y.suffix) hdistinct
    exact List.mem_map_of_mem hy
  · intro hruled order ho
    have hv : (searchVerdict n assertions c).valid = false := by
      simpa [Verdict.ruledOut,searchVerdict] using hruled
    exact existsUnique_prunedBy_iff ha hc hv ho

/-- Assertions that rule out the last of three candidates at different depths. -/
def shortAndLong : List Assertion := [.nen 0 2 (.ofList [0,2]),.nen 0 1 (.ofList [0,1,2])]

theorem verify_shortAndLong_certifies :
    WellFormedSearch 3 2 shortAndLong ∧
    ∃ v tree, (verify 3 shortAndLong 2).Gives v ∧ v.tree = some tree ∧
      v.ruledOut = true ∧ v.prunedBy = [([0,2],[0]),([0,1,2],[1])] ∧
      tree.Certifies 3 shortAndLong 2 ∧
      (v.prunedBy.map (·.1)).Nodup ∧
      (Std.HashMap.ofList v.prunedBy).size = tree.prunedNodes.length ∧
      (∀ y ∈ tree.prunedNodes, (Std.HashMap.ofList v.prunedBy)[y.suffix]? = some y.pruning) ∧
      (v.ruledOut = true → ∀ order, IsOrder 3 order →
        (order.getLast? = some 2 ↔ ∃! s, s ∈ v.prunedBy.map (·.1) ∧ s <:+ order)) := by
  have hsearch : WellFormedSearch 3 2 shortAndLong := by decide
  obtain ⟨v,tree,hv,htree,h⟩ := verify_tree_certifies hsearch
  have hrun := hv .unlimited ⟨rfl,rfl⟩
  obtain rfl : searchVerdict 3 shortAndLong 2 = v := Except.ok.inj hrun
  exact ⟨hsearch,_,tree,hv,htree,rfl,rfl,h⟩

end RunoffAudit
