import RunoffAudit.Proofs.Agreement

/-! # The order by pruning power is a shortest run of itself

After each round the frontier is what the assertions listed so far leave, whichever they are. Another round
is played only while something is left. So if nothing is left in the end, no shorter run of the same
order leaves nothing, and if something is left, all assertions are listed.
-/
namespace RunoffAudit
open Metered

variable {n : Int} {w : Candidate} {winner : Option Candidate} {as : List Assertion} {carried : List Numbered}
  {frontier : List Suffix} {order : PruningOrder} {k : Nat}

namespace Lists

/-- Each assertion is either listed or not, but none is lost or listed twice. -/
theorem perm (h : Lists n carried frontier order) : (order.ordered ++ order.unused).Perm (carried.map (·.2)) := by
  induction h with
  | exhausted => rfl
  | emptied => rfl
  | @next carried _ best rest _ hbest _ ih =>
    have hcarried : (carried.map (·.2)).Perm (best.2 :: (carried.erase best).map (·.2)) :=
      (List.perm_cons_erase hbest).map (·.2)
    exact (ih.cons best.2).trans hcarried.symm

theorem unused_sublist (h : Lists n carried frontier order) : order.unused.Sublist (carried.map (·.2)) := by
  induction h with
  | exhausted => exact List.Sublist.refl _
  | emptied => exact List.Sublist.refl _
  | next _ _ _ ih => exact ih.trans (List.erase_sublist.map _)

theorem unused_eq_nil (h : Lists n carried frontier order) (hleft : order.remaining ≠ []) : order.unused = [] := by
  induction h with
  | exhausted => rfl
  | emptied => exact absurd rfl hleft
  | next _ _ _ ih => exact ih hleft

/-- The assertions listed leave as much as all assertions do. -/
theorem remaining_eq_listed (h : Lists n carried frontier order) (hf : ∀ s ∈ frontier, Placed n s)
    (hcarried : ∀ x ∈ carried, as[x.2]? = some x.1) :
    order.remaining = frontier.flatMap (survivors n (order.ordered.filterMap (as[·]?))) := by
  induction h with
  | exhausted => exact (flatMap_survivors_nil _).symm
  | emptied => rfl
  | @next carried frontier best rest _ hbest _ ih =>
    rw [ih (placed_flatMap_survivors hf) fun x hx => hcarried x (List.mem_of_mem_erase hx),
      flatMap_frontier_survivors hf,List.filterMap_cons_some (hcarried best hbest)]

/-- As long as another assertion is listed, something is left. -/
theorem left_of_lt_length (h : Lists n carried frontier order) (hf : ∀ s ∈ frontier, Placed n s)
    (hcarried : ∀ x ∈ carried, as[x.2]? = some x.1) (hk : k < order.ordered.length) :
    frontier.flatMap (survivors n ((order.ordered.take k).filterMap (as[·]?))) ≠ [] := by
  induction h generalizing k with
  | exhausted => cases hk
  | emptied => cases hk
  | @next carried frontier best rest hleft hbest _ ih =>
    cases k with
    | zero => rwa [List.take_zero,List.filterMap_nil,flatMap_survivors_nil]
    | succ k =>
      have hrest := ih (placed_flatMap_survivors hf) (fun x hx => hcarried x (List.mem_of_mem_erase hx))
        (Nat.lt_of_succ_lt_succ hk)
      rwa [flatMap_frontier_survivors hf,← List.filterMap_cons_some (hcarried best hbest),← List.take_succ_cons]
        at hrest

end Lists

theorem losingSurvivors_eq_nil_iff_sufficient (hn : 0 < n) (ha : ∀ a ∈ as, a.WellFormed n) :
    losingSurvivors n winner as = [] ↔ Sufficient n winner as :=
  losingSurvivors_eq_nil_iff.trans (sufficient_iff_openLosers hn ha).symm

/-- The order is a shortest run of itself. If it rules out all other winners, the assertions listed do, but not without
the last one. If it does not, nothing is unused, and each suffix that remains is the tail of orders, all of which are
won by a losing candidate and violate no assertion. -/
structure PruningOrder.ShortestRun (n : Int) (w : Candidate) (as : List Assertion) (order : PruningOrder) : Prop where
  perm : (order.ordered ++ order.unused).Perm (List.range as.length)
  ascending : order.unused.Pairwise (· < ·)
  listedSuffice : order.sufficient = true → Sufficient n (some w) (order.ordered.filterMap (as[·]?))
  nonePrior : order.sufficient = true → ∀ k < order.ordered.length,
    ¬ Sufficient n (some w) ((order.ordered.take k).filterMap (as[·]?))
  allListed : order.sufficient = false → order.unused = []
  remainingPlaced : ∀ s ∈ order.remaining, ∃ o, IsOrder n o ∧ s <:+ o
  remainingAllowed : ∀ s ∈ order.remaining, ∀ o, IsOrder n o → s <:+ o →
    (∃ c ∈ searched n (some w), o.getLast? = some c) ∧ ∀ a ∈ as, ¬ a.Violates o

theorem Lists.shortestRun (hw : 0 ≤ w ∧ w < n) (ha : ∀ a ∈ as, a.WellFormed n)
    (h : Lists n (numbered as) (losingSuffixes n (some w)) order) : order.ShortestRun n w as := by
  have hn : 0 < n := Int.lt_of_le_of_lt hw.1 hw.2
  have hplaced : ∀ s ∈ losingSuffixes n (some w), Placed n s := fun s hs => placed_of_mem_losingSuffixes hs
  have hnumbered : ∀ x ∈ numbered as, as[x.2]? = some x.1 := fun x hx => mem_numbered.mp hx
  have hlisted : ∀ is : List Nat, ∀ a ∈ is.filterMap (as[·]?), a.WellFormed n := by
    intro is a hmem
    obtain ⟨i,_,hi⟩ := List.mem_filterMap.mp hmem
    exact ha a (List.mem_of_getElem? hi)
  have hempty : order.sufficient = true ↔ order.remaining = [] := List.isEmpty_iff
  have hremaining := h.remaining_eq hplaced
  rw [numbered_map_fst,flatMap_losingSuffixes] at hremaining
  refine ⟨numbered_map_snd as ▸ h.perm,?ascending,?listedSuffice,?nonePrior,?allListed,?remainingPlaced,
    ?remainingAllowed⟩
  case ascending => exact (numbered_map_snd as ▸ List.pairwise_lt_range).sublist h.unused_sublist
  case listedSuffice =>
    intro hsufficient
    rw [← losingSurvivors_eq_nil_iff_sufficient hn (hlisted _),← flatMap_losingSuffixes,
      ← h.remaining_eq_listed hplaced hnumbered]
    exact hempty.mp hsufficient
  case nonePrior =>
    intro _ k hk
    rw [← losingSurvivors_eq_nil_iff_sufficient hn (hlisted _),← flatMap_losingSuffixes]
    exact h.left_of_lt_length hplaced hnumbered hk
  case allListed =>
    intro hinsufficient
    apply h.unused_eq_nil
    intro hnil
    rw [hempty.mpr hnil] at hinsufficient
    cases hinsufficient
  case remainingPlaced =>
    intro s hs
    rw [hremaining] at hs
    obtain ⟨c,hc,hs⟩ := List.mem_flatMap.mp hs
    have hcplaced := placed_singleton (mem_candidates.mp (mem_searched_iff.mp hc).1)
    exact (of_mem_survivors hcplaced hs).1.exists_order
  case remainingAllowed =>
    intro s hs o ho hso
    rw [hremaining] at hs
    obtain ⟨c,hc,hs⟩ := List.mem_flatMap.mp hs
    have hcplaced := placed_singleton (mem_candidates.mp (mem_searched_iff.mp hc).1)
    obtain ⟨_,hcs,hgranted⟩ := of_mem_survivors hcplaced hs
    exact ⟨⟨c,hc,getLast?_eq_some_iff_suffix.mpr (hcs.trans hso)⟩,not_violates_of_granted ha hgranted ho hso⟩

/-- Without a limit the order by pruning power ends, however its gains are weighed: also in doubles that round, overflow
or are no numbers. It is a shortest run of itself. -/
theorem pruningOrderBy_shortestRun {W : Type} (u : Weighing W) (hcontest : WellFormedContest n (some w) as) :
    ∃ order, (pruningOrderBy u n (some w) as).Gives (.ok order) ∧ order.ShortestRun n w as := by
  obtain ⟨order,horder,hlists⟩ := pruningOrderBy_returns_lists (contestFaults_eq_nil_iff.mpr hcontest) u
  exact ⟨order,horder.gives,hlists.shortestRun hcontest.declared hcontest.assertions⟩

/-- The two assertions that rule out a candidate altogether are listed, and nothing is left for the first one. -/
theorem pruningOrderBy_shortestRun_first_unused :
    WellFormedContest 3 (some 0) [.nen 2 1 (.ofList [1,2]),.neb 0 1,.neb 0 2] ∧
    ∃ order, (pruningOrder 3 (some 0) [.nen 2 1 (.ofList [1,2]),.neb 0 1,.neb 0 2]).Gives (.ok order) ∧
      order.ordered = [1,2] ∧ order.unused = [0] ∧ order.remaining = [] ∧
      order.ShortestRun 3 0 [.nen 2 1 (.ofList [1,2]),.neb 0 1,.neb 0 2] := by
  have hcontest : WellFormedContest 3 (some 0) [.nen 2 1 (.ofList [1,2]),.neb 0 1,.neb 0 2] := by decide
  obtain ⟨order,horder,hshortest⟩ := pruningOrderBy_shortestRun .doubles hcontest
  have hlists : (((pruningOrderBy .doubles 3 (some 0) [.nen 2 1 (.ofList [1,2]),.neb 0 1,.neb 0 2]).runOn
      .unlimited).1.toOption.bind fun r => r.toOption.map fun o => (o.ordered,o.unused,o.remaining)) =
      some ([1,2],[0],[]) := by decide +kernel
  rw [horder .unlimited ⟨rfl,rfl⟩] at hlists
  have hlists : (order.ordered,order.unused,order.remaining) = ([1,2],[0],[]) := Option.some.inj hlists
  rw [Prod.mk.injEq,Prod.mk.injEq] at hlists
  exact ⟨hcontest,order,horder,hlists.1,hlists.2.1,hlists.2.2,hshortest⟩

end RunoffAudit
