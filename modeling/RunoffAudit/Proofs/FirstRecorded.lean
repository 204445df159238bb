import RunoffAudit.Proofs.StackSearch

/-! # Recording the first contradiction alone

A search that stops at pruned nodes may end the evaluation of a node's assertions at the first contradiction.
What it carries on from such a node is incomplete, but a pruned node has no children here, so the search
comes to the same nodes as one that records every contradiction. Only the recorded positions differ: they
are cut off after the first.
-/
namespace RunoffAudit
open Metered

namespace SearchRule
variable (n : Int) (carried : List Numbered) (after s : Suffix) (c : Candidate)

theorem pruningAt_first : pruningAt ⟨n,false⟩ .stopImmediately carried s =
    (pruningAt ⟨n,true⟩ .stopImmediately carried s).take 1 := rfl

theorem isEmpty_take_one {α : Type} (xs : List α) : (xs.take 1).isEmpty = xs.isEmpty := by
  cases xs <;> rfl

theorem join_first (pruning undecided : List Numbered) (xs : List Node) :
    Node.join c after (pruning.take 1) undecided (xs.map (Node.mapPruning (·.take 1))) =
      (Node.join c after pruning undecided xs).mapPruning (·.take 1) :=
  Node.join_mapPruning _ List.map_take (isEmpty_take_one pruning) rfl c after xs

theorem tree_first (room : Nat) : tree ⟨n,false⟩ room .stopImmediately carried after c =
    (tree ⟨n,true⟩ room .stopImmediately carried after c).mapPruning (·.take 1) := by
  induction room generalizing carried after c with
  | zero =>
    rw [tree,tree,pruningAt_first]
    exact join_first after c _ _ []
  | succ room ih =>
    rw [tree,tree,pruningAt_first,← join_first]
    simp only [isEmpty_take_one,Policy.continues,Bool.false_eq_true,if_false]
    congr 1
    split_ifs with hundecided hpruned
    · rfl
    · rw [visitedChildren_false,visitedChildren_false,List.map_map]
      exact List.map_congr_left fun d _ => ih _ _ d
    · rfl

end SearchRule

/-- Whether its nodes record every contradiction or the first alone, a search that stops at pruned nodes builds
lists of the same length, whose entries agree in everything but the recorded positions. An entry of the
second kind has at most one, the first of those that are recorded otherwise. -/
theorem buildArenaChecked_records_first {assertions : List Assertion} {positions : List Nat}
    (hround : ∀ a ∈ assertions, a.hasRound) (hpositions : ∀ i ∈ positions, i < assertions.length)
    (n : Int) (c : Candidate) :
    ∃ full first, (buildArenaChecked ⟨n,true⟩ .stopImmediately assertions positions c).Gives (.ok full) ∧
      (buildArenaChecked ⟨n,false⟩ .stopImmediately assertions positions c).Gives (.ok first) ∧
      first.length = full.length ∧
      List.Forall₂ (fun e f => e.Alike f ∧ e.pruning = f.pruning.take 1) first full := by
  have hgives (r : SearchRule) := ((buildArena_takes r .stopImmediately (numberedAt assertions positions) c).map
    fun arena => (Except.ok arena : Except ContestError (List ArenaEntry))).gives
  have htree : (SearchRule.rootTree ⟨n,false⟩ .stopImmediately (numberedAt assertions positions) c).arena =
      (SearchRule.rootTree ⟨n,true⟩ .stopImmediately (numberedAt assertions positions) c).arena.map
        (ArenaEntry.mapPruning (·.take 1)) := by
    rw [SearchRule.rootTree,SearchRule.tree_first,Node.arena,Node.arenaFrom_mapPruning]
    rfl
  rw [buildArenaChecked,buildArenaChecked,checkAt_eq_ok hround hpositions,checkAt_eq_ok hround hpositions]
  refine ⟨_,_,hgives ⟨n,true⟩,hgives ⟨n,false⟩,?length,?entries⟩
  case length => rw [htree,List.length_map]
  case entries =>
    rw [htree,List.forall₂_map_left_iff,List.forall₂_same]
    intro e _
    refine ⟨⟨rfl,rfl,rfl,rfl,rfl,?_⟩,rfl⟩
    rw [← List.isEmpty_iff,← List.isEmpty_iff]
    show (e.pruning.take 1).isEmpty = true ↔ _
    rw [SearchRule.isEmpty_take_one]

/-- Two assertions contradict the suffix `[1,2]`, and a third that is behind them is left undetermined there. -/
theorem buildArenaChecked_records_first_of_two :
    (∀ a ∈ [Assertion.neb 0 1,.neb 3 1,.nen 0 1 (.ofList [0,1,2])], a.hasRound) ∧ (∀ i ∈ [0,1,2], i < 3) ∧
    ∃ full first,
      (buildArenaChecked ⟨4,true⟩ .stopImmediately [.neb 0 1,.neb 3 1,.nen 0 1 (.ofList [0,1,2])] [0,1,2] 2).Gives
        (.ok full) ∧
      (buildArenaChecked ⟨4,false⟩ .stopImmediately [.neb 0 1,.neb 3 1,.nen 0 1 (.ofList [0,1,2])] [0,1,2] 2).Gives
        (.ok first) ∧
      full.map (fun e => (e.suffix,e.pruning)) = [([2],[]),([0,2],[]),([1,0,2],[1]),([3,0,2],[]),([1,2],[0,1]),
        ([3,2],[]),([0,3,2],[]),([1,3,2],[0])] ∧
      first.map (fun e => (e.suffix,e.pruning)) = [([2],[]),([0,2],[]),([1,0,2],[1]),([3,0,2],[]),([1,2],[0]),
        ([3,2],[]),([0,3,2],[]),([1,3,2],[0])] ∧
      List.Forall₂ (fun e f => e.Alike f ∧ e.pruning = f.pruning.take 1) first full := by
  have hround : ∀ a ∈ [Assertion.neb 0 1,.neb 3 1,.nen 0 1 (.ofList [0,1,2])], a.hasRound := by decide
  have hpositions : ∀ i ∈ [0,1,2], i < 3 := by decide
  obtain ⟨full,first,hfull,hfirst,_,hentries⟩ := buildArenaChecked_records_first hround hpositions 4 2
  have hfull' := Except.ok.inj (Except.ok.inj (hfull .unlimited ⟨rfl,rfl⟩))
  have hfirst' := Except.ok.inj (Except.ok.inj (hfirst .unlimited ⟨rfl,rfl⟩))
  refine ⟨hround,hpositions,full,first,hfull,hfirst,?_,?_,hentries⟩
  · rw [← hfull']
    rfl
  · rw [← hfirst']
    rfl

end RunoffAudit
