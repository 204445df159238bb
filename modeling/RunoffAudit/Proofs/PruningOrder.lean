import RunoffAudit.Ordering.PruningPower
import RunoffAudit.Proofs.ContestStatus
import RunoffAudit.Proofs.Explanation

/-! # What the order by pruning power leaves

Which assertion comes next depends on weights that round, overflow or are no numbers at all. What is
left at the end does not: whatever is picked in each round, the orders that survive all assertions remain.
-/
namespace RunoffAudit
open Metered

section Greedy
variable {W : Type} (u : Weighing W) (weights : List W) {n : Int} {a : Assertion} {carried : List Numbered}
  {frontier : List Suffix}

theorem weighRemoved_returns (ha : a.WellFormed n) (hf : ∀ s ∈ frontier, Placed n s) (gain : W) :
    ∃ g, (weighRemoved u weights n a frontier gain).Returns g := by
  induction frontier generalizing gain with
  | nil => exact ⟨gain,returns_pure gain⟩
  | cons s rest ih =>
    have hleft := expand_returns false ha (hf s List.mem_cons_self)
    obtain ⟨g,hg⟩ := ih (fun t ht => hf t (List.mem_cons_of_mem s ht)) _
    exact ⟨g,hleft.bind hg⟩

theorem strongest_returns (ha : ∀ x ∈ carried, x.1.WellFormed n) (hf : ∀ s ∈ frontier, Placed n s)
    (best : Numbered) (bestGain : W) : ∃ y ∈ best :: carried, (strongest u weights n frontier carried best bestGain).Returns y := by
  induction carried generalizing best bestGain with
  | nil => exact ⟨best,List.mem_cons_self,returns_pure best⟩
  | cons x rest ih =>
    obtain ⟨gain,hgain⟩ := weighRemoved_returns u weights (ha x List.mem_cons_self) hf u.zero
    have hrest := fun best => ih (fun y hy => ha y (List.mem_cons_of_mem x hy)) best
    cases hexceeds : u.exceeds gain bestGain with
    | true =>
      obtain ⟨y,hy,hreturns⟩ := hrest x gain
      refine ⟨y,List.mem_cons_of_mem best hy,hgain.bind ?_⟩
      simpa [hexceeds] using hreturns
    | false =>
      obtain ⟨y,hy,hreturns⟩ := hrest best bestGain
      refine ⟨y,?_,hgain.bind ?_⟩
      · rcases List.mem_cons.mp hy with rfl | hy
        · exact List.mem_cons_self
        · exact List.mem_cons_of_mem best (List.mem_cons_of_mem x hy)
      · simpa [hexceeds] using hreturns

/-- The order lists assertions of `carried` one by one, each applied to what the earlier ones left, until
nothing is left to list or to rule out. -/
inductive Lists (n : Int) : List Numbered → List Suffix → PruningOrder → Prop
  | exhausted (frontier : List Suffix) : Lists n [] frontier ⟨[],[],frontier⟩
  | emptied (carried : List Numbered) : Lists n carried [] ⟨[],carried.map (·.2),[]⟩
  | next {carried : List Numbered} {frontier : List Suffix} {best : Numbered} {rest : PruningOrder}
    (hleft : frontier ≠ []) (hbest : best ∈ carried)
    (hrest : Lists n (carried.erase best) (frontier.flatMap (survivors n [best.1])) rest) :
    Lists n carried frontier { rest with ordered := best.2 :: rest.ordered }

theorem listStrongest_returns {rounds : Nat} (hrounds : carried.length ≤ rounds)
    (ha : ∀ x ∈ carried, x.1.WellFormed n) (hf : ∀ s ∈ frontier, Placed n s) :
    ∃ order, (listStrongest u weights n rounds carried frontier).Returns order ∧
      Lists n carried frontier order := by
  induction rounds generalizing carried frontier with
  | zero =>
    obtain rfl := List.length_eq_zero_iff.mp (Nat.le_zero.mp hrounds)
    exact ⟨_,returns_pure _,.exhausted frontier⟩
  | succ rounds ih =>
    cases carried with
    | nil => exact ⟨_,returns_pure _,.exhausted frontier⟩
    | cons first others =>
      rw [listStrongest]
      cases frontier with
      | nil => exact ⟨_,returns_pure _,.emptied (first :: others)⟩
      | cons s rest =>
        obtain ⟨best,hbest,hpicked⟩ := strongest_returns u weights ha hf first u.zero
        have hbest : best ∈ first :: others := by simpa using hbest
        have hexpanded := expandAll_false_returns (ha best hbest) hf
        have hlength : ((first :: others).erase best).length ≤ rounds := by
          rw [List.length_erase_of_mem hbest]
          exact Nat.sub_le_of_le_add hrounds
        obtain ⟨order,horder,hlists⟩ := ih hlength (fun x hx => ha x (List.mem_of_mem_erase hx))
          (placed_flatMap_survivors hf)
        exact ⟨_,hpicked.bind (hexpanded.bind (horder.bind (returns_pure _))),
          .next (List.cons_ne_nil s rest) hbest hlists⟩

end Greedy

variable {n : Int} {carried : List Numbered} {frontier : List Suffix} {order : PruningOrder}

/-- Every listing leaves what survives all assertions, in the same order. -/
theorem Lists.remaining_eq (h : Lists n carried frontier order) (hf : ∀ s ∈ frontier, Placed n s) :
    order.remaining = frontier.flatMap (survivors n (carried.map (·.1))) := by
  induction h with
  | exhausted frontier => rw [List.map_nil,flatMap_survivors_nil]
  | emptied carried => rfl
  | @next carried frontier best rest _ hbest hrest ih =>
    have hmem : ∀ a, a ∈ best.1 :: (carried.erase best).map (·.1) ↔ a ∈ carried.map (·.1) :=
      fun a => ((List.perm_cons_erase hbest).map (·.1)).mem_iff.symm
    -- the assertion picked and those still to pick are the ones there were, in another order
    rw [ih (placed_flatMap_survivors hf),flatMap_frontier_survivors hf]
    apply List.flatMap_congr
    intro s hs
    exact survivors_congr_of_mem_iff (hf s hs) hmem

/-! ## The orders that a losing candidate wins -/

variable {w : Candidate} {winner : Option Candidate} {assertions : List Assertion}

/-- The suffixes that survive all assertions and are won by others than the winner, candidate by candidate. -/
def losingSurvivors (n : Int) (winner : Option Candidate) (assertions : List Assertion) : List Suffix :=
  (searched n winner).flatMap fun c => survivors n assertions [c]

theorem flatMap_filter_singleSuffixes {p : Suffix → Bool} (hp : ∀ c, p [c] = decide (some c ≠ winner)) :
    ((singleSuffixes n).filter p).flatMap (survivors n assertions) = losingSurvivors n winner assertions := by
  have htest : p ∘ (fun c : Candidate => [c]) = fun c => decide (some c ≠ winner) := funext hp
  rw [singleSuffixes,List.filter_map,List.flatMap_map,htest]
  rfl

def losingSuffixes (n : Int) (winner : Option Candidate) : List Suffix :=
  (singleSuffixes n).filter fun s => winner.all (· ∉ s)

theorem placed_of_mem_losingSuffixes {s : Suffix} (hs : s ∈ losingSuffixes n winner) : Placed n s :=
  placed_of_mem_singleSuffixes (List.mem_of_mem_filter hs)

theorem flatMap_losingSuffixes :
    (losingSuffixes n winner).flatMap (survivors n assertions) = losingSurvivors n winner assertions :=
  flatMap_filter_singleSuffixes fun c => by cases winner <;> simp [eq_comm]

/-- Of a contest without faults the loop over all assertions gives the order. -/
theorem pruningOrderBy_returns_of_listStrongest {W : Type} {u : Weighing W} {order : PruningOrder}
    (hfaults : contestFaults n winner assertions = [])
    (h : (listStrongest u (suffixWeights u n.toNat) n assertions.length (numbered assertions)
      (losingSuffixes n winner)).Returns order) :
    (pruningOrderBy u n winner assertions).Returns (.ok order) := by
  unfold pruningOrderBy
  rw [hfaults]
  exact h.bind (returns_pure _)

/-- However the gains are weighed, the order by pruning power lists the assertions one by one. -/
theorem pruningOrderBy_returns_lists {W : Type} (hfaults : contestFaults n winner assertions = []) (u : Weighing W) :
    ∃ order, (pruningOrderBy u n winner assertions).Returns (.ok order) ∧
      Lists n (numbered assertions) (losingSuffixes n winner) order := by
  have ha : ∀ a ∈ assertions, a.WellFormed n := (contestFaults_eq_nil_iff.mp hfaults).assertions
  have hlength : (numbered assertions).length ≤ assertions.length := by simp [numbered]
  obtain ⟨order,horder,hlists⟩ := listStrongest_returns u (suffixWeights u n.toNat) hlength
    (wellFormed_numbered ha) fun s hs => placed_of_mem_losingSuffixes hs
  exact ⟨order,pruningOrderBy_returns_of_listStrongest hfaults horder,hlists⟩

/-- In the order by pruning power, however the gains are weighed, what the losing candidates can still win
remains. Without a winner that is everything. -/
theorem pruningOrderBy_returns_losing (hcontest : WellFormedContest n winner assertions) (u : Weighing W) :
    ∃ order, (pruningOrderBy u n winner assertions).Returns (.ok order) ∧
      order.remaining = losingSurvivors n winner assertions := by
  obtain ⟨order,horder,hlists⟩ := pruningOrderBy_returns_lists (contestFaults_eq_nil_iff.mpr hcontest) u
  refine ⟨order,horder,?_⟩
  rw [hlists.remaining_eq fun s hs => placed_of_mem_losingSuffixes hs,numbered_map_fst,flatMap_losingSuffixes]

/-- An explanation that hides the winner is left with the same suffixes. -/
theorem explain_hidden_returns (cumulative : Bool) (hcontest : WellFormedContest n (some w) assertions) :
    ∃ e, (explain n (some w) assertions ⟨false,true,cumulative⟩).Returns (.ok e) ∧
      e.remaining = losingSurvivors n (some w) assertions := by
  have hplaced : ∀ s ∈ explanationStart n (some w) ⟨false,true,cumulative⟩, Placed n s :=
    fun s hs => placed_of_mem_singleSuffixes (List.mem_of_mem_filter hs)
  obtain ⟨steps,hsteps⟩ := explain_returns_of_placed hcontest (fun _ => Option.some_ne_none w) hplaced
  exact ⟨_,hsteps,flatMap_filter_singleSuffixes fun _ => rfl⟩

end RunoffAudit
