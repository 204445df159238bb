import RunoffAudit.Proofs.Outline
import RunoffAudit.Proofs.Trimming

/-! # Trimming by pruned nodes preserves the trees

If the searches of a trimming stop at pruned nodes, the selection takes an assertion from every pruned leaf,
one that prunes it. So the kept assertions refute every suffix that all assertions refute, and as the
candidate is ruled out, neither list ever grants a suffix. Nothing else shapes a search that stops at
pruned nodes: the candidate's tree for the kept assertions has the outline of the tree for all.
-/
namespace RunoffAudit

namespace SearchRule
variable {r : SearchRule} {carried : List Numbered} {after t : Suffix} {c : Candidate} {x : Node}
  {selected : List Nat}

/-- Whatever is refuted below the root of a tree is refuted by an assertion that was selected for the tree. -/
theorem Builds.exists_selected_of_refuted (h : r.Builds .stopImmediately carried after c x)
    (hmet : (Requirement.ofNode x).isMet selected = true) (ht : Placed r.n t) (hs : c :: after <:+ t)
    (hrefuted : refuted (carried.map (·.1)) t = true) :
    ∃ y ∈ carried, y.2 ∈ selected ∧ y.1.effect t = .contradiction := by
  refine h.stop_induction (motive := fun carried after c x =>
    (Requirement.ofNode x).isMet selected = true → c :: after <:+ t →
    refuted (carried.map (·.1)) t = true →
    ∃ y ∈ carried, y.2 ∈ selected ∧ y.1.effect t = .contradiction) ?leaf ?opened hmet hs hrefuted
  case leaf =>
    intro carried after c _ hmet hs _
    obtain ⟨i,hi,hsel⟩ := Requirement.isMet_leaf_iff.mp hmet
    obtain ⟨y,hy,rfl⟩ := List.mem_map.mp hi
    obtain ⟨hy,he⟩ := mem_of_mem_pruningAt hy
    -- whatever refutes the longer suffix, the assertion selected for the leaf does so too
    exact ⟨y,hy,hsel,by rw [Assertion.effect_of_suffix ht.nodup hs (by simp [he]),he]⟩
  case opened =>
    intro carried after c child hpruned _ ih hmet hs hrefuted
    have hr : refuted (carried.map (·.1)) (c :: after) = false := pruningAt_eq_nil_iff.mp hpruned
    rcases ht.eq_or_cons_suffix hs with rfl | ⟨d,hd,hds⟩
    · rw [hr] at hrefuted
      cases hrefuted
    · rw [(agree_undecided hr ht hs).1,← undecidedAt_map] at hrefuted
      rcases Requirement.isMet_ofNode_iff.mp hmet with ⟨i,hi,_⟩ | ⟨_,hall⟩
      · cases hi
      · obtain ⟨y,hy,hsel,he⟩ := (ih d hd).2 (hall _ (List.mem_map_of_mem hd)) hds hrefuted
        exact ⟨y,(mem_undecidedAt.mp hy).1,hsel,he⟩

end SearchRule

variable {n : Int} {as bs assertions : List Assertion} {s t : Suffix} {winner : Option Candidate} {c : Candidate}
  {b b' : Budget} {result : TrimResult} {sort : Bool} {order : List Nat}

/-- Assertions that rule out everything grant nothing. -/
theorem granted_of_violated (hb : ∀ a ∈ bs, a.WellFormed n)
    (hviolated : ∀ order, IsOrder n order → s <:+ order → ∃ a ∈ bs, a.Violates order) (ht : Placed n t)
    (hs : s <:+ t) : granted bs t = false := by
  apply Bool.eq_false_iff.mpr
  intro hg
  obtain ⟨order,ho,hto⟩ := ht.exists_order
  obtain ⟨a,ha,hv⟩ := hviolated order ho (hs.trans hto)
  exact not_violates_of_granted hb hg ho hto a ha hv

/-- Of some assertions that rule out everything, fewer judge alike if they refute whatever all of them refute. -/
theorem JudgeAlike.of_subset (hb : ∀ a ∈ bs, a.WellFormed n) (hsub : ∀ a ∈ bs, a ∈ as)
    (hviolated : ∀ order, IsOrder n order → s <:+ order → ∃ a ∈ bs, a.Violates order)
    (hrefuted : ∀ t, Placed n t → s <:+ t → refuted as t = true → refuted bs t = true) :
    JudgeAlike n as bs s := by
  intro t ht hs
  have hrefuted_iff : refuted as t = true ↔ refuted bs t = true := by
    refine ⟨hrefuted t ht hs,?_⟩
    intro h
    obtain ⟨a,ha,he⟩ := refuted_eq_true_iff.mp h
    exact refuted_eq_true_iff.mpr ⟨a,hsub a ha,he⟩
  have hgranted := granted_of_violated hb hviolated ht hs
  have hgranted' : granted as t = false := by
    apply Bool.eq_false_iff.mpr
    intro hg
    have h : granted bs t = true := granted_eq_true_iff.mpr fun a ha => granted_eq_true_iff.mp hg a (hsub a ha)
    rw [hgranted] at h
    cases h
  exact ⟨Bool.eq_iff_iff.mpr hrefuted_iff,hgranted'.trans hgranted.symm⟩

/-- The assertions kept by a trimming whose searches stop at pruned nodes judge the suffixes of a losing candidate
as all assertions do. -/
theorem judgeAlike_kept {algorithm : TrimAlgorithm} (ha : ∀ a ∈ assertions, a.WellFormed n)
    (hperm : order.Perm (List.range assertions.length))
    (hresult : trimOrdered n winner assertions algorithm .stopImmediately order b = (.ok result,b'))
    (htrimmed : result.outcome = .trimmed) (hc : c ∈ searched n winner) :
    JudgeAlike n assertions result.assertions [c] := by
  obtain ⟨horiginal,_,selected,hkept,hmet⟩ := trimOrdered_meets ha hresult htrimmed
  have hbuilds := SearchRule.rootTree_builds ⟨n,true⟩ .stopImmediately
    (numbered (order.filterMap (assertions[·]?))) (mem_candidates.mp (mem_searched_iff.mp hc).1)
  have hsub : ∀ a ∈ result.assertions, a ∈ assertions := fun a hm => horiginal ▸ mem_original_of_mem_assertions hm
  refine JudgeAlike.of_subset (fun a hm => ha a (hsub a hm)) hsub
    (exists_kept_violates ha hperm hresult htrimmed hc) ?_
  intro t ht hs hr
  have hcarried : refuted ((numbered (order.filterMap (assertions[·]?))).map (·.1)) t = refuted assertions t := by
    rw [numbered_map_fst]
    exact refuted_congr fun _ => mem_filterMap_order_iff hperm
  obtain ⟨y,hy,hsel,he⟩ := hbuilds.exists_selected_of_refuted (hmet c hc) ht hs (hcarried.trans hr)
  have hy' := mem_assertions_of_selected horiginal hkept (lt_length_of_mem_order hperm) hy hsel
  exact refuted_eq_true_iff.mpr ⟨y.1,hy',he⟩

/-- If the assertions of a contest are trimmed by the trees, with the algorithm's own policy, the search tree of
each losing candidate stays what it was: entry by entry the tree for the kept assertions is alike the
tree for all. -/
theorem minimizeTree_preserves_arena
    (hresult : (trim n winner assertions ⟨.minimizeTree,none,sort⟩ b).1 = .ok result)
    (htrimmed : result.outcome = .trimmed) (hc : 0 ≤ c ∧ c < n) (hloser : some c ≠ winner) :
    ∃ tree kept, (searchTree ⟨n,false⟩ .stopImmediately (numbered assertions) c).Gives tree ∧
      (searchTree ⟨n,false⟩ .stopImmediately (numbered result.assertions) c).Gives kept ∧
      List.Forall₂ ArenaEntry.Alike tree.arena kept.arena := by
  have hfaults := contestFaults_of_trimmed hresult htrimmed
  obtain ⟨_,_,ha⟩ := contestFaults_eq_nil_iff.mp hfaults
  have hown : (⟨.minimizeTree,none,sort⟩ : TrimRequest).algorithm.policy? = some .stopImmediately := rfl
  rw [trim_eq_of_policy hfaults hown] at hresult
  have halike := judgeAlike_kept ha (searchOrder_perm sort assertions) (Prod.ext hresult rfl) htrimmed
    (mem_searched_iff.mpr ⟨mem_candidates.mpr hc,hloser⟩)
  refine ⟨_,_,(searchTree_takes ⟨n,false⟩ .stopImmediately _ c).gives,
    (searchTree_takes ⟨n,false⟩ .stopImmediately _ c).gives,?_⟩
  apply arena_alike_of_outline_eq
  apply (SearchRule.rootTree_builds ⟨n,false⟩ _ _ hc).outline_eq (SearchRule.rootTree_builds ⟨n,false⟩ _ _ hc)
    (placed_singleton hc)
  rw [numbered_map_fst,numbered_map_fst]
  exact halike

/-- Of the second candidate's tree two leaves are pruned, one of them by an assertion that has another position
among the kept ones. -/
theorem minimizeTree_preserves_fourForThree : ∃ result,
    (trim 3 (some 0) fourForThree ⟨.minimizeTree,none,false⟩ .unlimited).1 = .ok result ∧
    result.outcome = .trimmed ∧ ((0 : Int) ≤ 1 ∧ (1 : Int) < 3) ∧ some (1 : Candidate) ≠ some 0 ∧
    ∃ tree kept, (searchTree ⟨3,false⟩ .stopImmediately (numbered fourForThree) 1).Gives tree ∧
      (searchTree ⟨3,false⟩ .stopImmediately (numbered result.assertions) 1).Gives kept ∧
      tree.arena.map ArenaEntry.pruning = [[],[0],[],[3]] ∧ kept.arena.map ArenaEntry.pruning = [[],[0],[],[2]] ∧
      List.Forall₂ ArenaEntry.Alike tree.arena kept.arena := by
  have hresult : (trim 3 (some 0) fourForThree ⟨.minimizeTree,none,false⟩ .unlimited).1 = .ok _ := rfl
  have hc : (0 : Int) ≤ 1 ∧ (1 : Int) < 3 := by decide
  have hloser : some (1 : Candidate) ≠ some 0 := by decide
  obtain ⟨tree,kept,htree,hkept,halike⟩ := minimizeTree_preserves_arena hresult rfl hc hloser
  have htree' := Except.ok.inj (htree .unlimited ⟨rfl,rfl⟩)
  have hkept' := Except.ok.inj (hkept .unlimited ⟨rfl,rfl⟩)
  refine ⟨_,hresult,rfl,hc,hloser,tree,kept,htree,hkept,?_,?_,halike⟩
  · rw [← htree']
    rfl
  · rw [← hkept']
    rfl

end RunoffAudit
