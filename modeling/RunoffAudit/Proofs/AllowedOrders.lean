import RunoffAudit.Proofs.Frontier
import RunoffAudit.Proofs.Partition

/-! # The allowed orders, listed and covered

Filtering all elimination orders and applying the assertions to a frontier come to the same: the orders that
end in the suffixes of the frontier are the allowed ones, each of them once. So the allowed orders can
be counted by the lengths of the suffixes.
-/
namespace RunoffAudit
open Metered
open scoped Nat

variable {n : Int} {as : List Assertion} {s order : Suffix}

theorem mem_allowedOrders_iff (ha : ∀ a ∈ as, a.WellFormed n) :
    order ∈ allowedOrders n as ↔ IsOrder n order ∧ ∀ a ∈ as, ¬ a.Violates order := by
  have hgranted : order ∈ allowedOrders n as ↔ order ∈ allOrders n ∧ granted as order = true := List.mem_filter
  rw [hgranted,mem_allOrders_iff]
  apply and_congr_right
  intro ho
  constructor
  · intro hg
    exact not_violates_of_granted ha hg ho (List.suffix_refl order)
  · exact granted_of_isOrder ha ho

theorem nodup_allowedOrders (n : Int) (as : List Assertion) : (allowedOrders n as).Nodup :=
  (nodup_allOrders n).filter _

theorem pairwise_apart_survivors (hs : Placed n s) : (survivors n as s).Pairwise Apart :=
  (pairwise_apart_cut hs).filter _

theorem mem_allowedOrders_of_suffix (ha : ∀ a ∈ as, a.WellFormed n) (hs : s ∈ survivors n as [])
    (ho : IsOrder n order) (hso : s <:+ order) : order ∈ allowedOrders n as := by
  obtain ⟨_,_,hg⟩ := of_mem_survivors (placed_nil n) hs
  exact (mem_allowedOrders_iff ha).mpr ⟨ho,not_violates_of_granted ha hg ho hso⟩

theorem existsUnique_survivor (ha : ∀ a ∈ as, a.WellFormed n) (h : order ∈ allowedOrders n as) :
    ∃! s, s ∈ survivors n as [] ∧ s <:+ order := by
  obtain ⟨ho,hallowed⟩ := (mem_allowedOrders_iff ha).mp h
  obtain ⟨s,hs,hso⟩ := exists_mem_survivors ha ho List.nil_suffix hallowed
  refine ⟨s,⟨hs,hso⟩,?_⟩
  rintro t ⟨ht,hto⟩
  by_contra hne
  exact (pairwise_apart_survivors (placed_nil n)).forall ht hs hne order hto hso

theorem mem_allowedOrders_iff_survivor (ha : ∀ a ∈ as, a.WellFormed n) :
    order ∈ allowedOrders n as ↔ IsOrder n order ∧ ∃ s ∈ survivors n as [], s <:+ order := by
  constructor
  · intro h
    obtain ⟨s,⟨hs,hso⟩,_⟩ := existsUnique_survivor ha h
    exact ⟨((mem_allowedOrders_iff ha).mp h).1,s,hs,hso⟩
  · rintro ⟨ho,s,hs,hso⟩
    exact mem_allowedOrders_of_suffix ha hs ho hso

/-- The completions of the surviving suffixes are the allowed orders, so these are counted by the lengths. -/
theorem sum_factorial_survivors (ha : ∀ a ∈ as, a.WellFormed n) :
    ((survivors n as []).map fun s => (n.toNat - s.length)!).sum = (allowedOrders n as).length :=
  sum_factorial_of_apart (fun _ hs => (of_mem_survivors (placed_nil n) hs).1)
    (pairwise_apart_survivors (placed_nil n)) (nodup_allowedOrders n as) fun _ => mem_allowedOrders_iff_survivor ha

/-- The suffixes that the assertions leave, without a limit on the work, stand for exactly the allowed orders.
An order is allowed exactly if it ends in some suffix of the frontier, and then in just one. What ends in
a suffix of the frontier is allowed, so the suffixes tell by their lengths how many orders are allowed. -/
theorem allowedSuffixes_cover_allowedOrders (ha : ∀ a ∈ as, a.WellFormed n) :
    ∃ frontier, (allowedSuffixes n as).Gives frontier ∧
      (∀ order, IsOrder n order → (order ∈ allowedOrders n as ↔ ∃ s ∈ frontier, s <:+ order)) ∧
      frontier.Nodup ∧ (∀ order ∈ allowedOrders n as, ∃! s, s ∈ frontier ∧ s <:+ order) ∧
      (∀ s ∈ frontier, ∀ order, IsOrder n order → s <:+ order → order ∈ allowedOrders n as) ∧
      (allowedOrders n as).Nodup ∧
      (frontier.map fun s => (n.toNat - s.length)!).sum = (allowedOrders n as).length := by
  refine ⟨survivors n as [],(allowedSuffixes_returns ha).gives,?_,(nodup_cut (placed_nil n)).filter _,
    fun order => existsUnique_survivor ha,fun s hs order => mem_allowedOrders_of_suffix ha hs,
    nodup_allowedOrders n as,sum_factorial_survivors ha⟩
  intro order ho
  constructor
  · intro h
    obtain ⟨s,hs,_⟩ := existsUnique_survivor ha h
    exact ⟨s,hs⟩
  · rintro ⟨s,hs,hso⟩
    exact mem_allowedOrders_of_suffix ha hs ho hso

/-- Assertions that leave ten orders of four candidates, in suffixes of different lengths. -/
def leavesTenOrders : List Assertion := [.neb 0 1,.nen 0 2 (.ofList [0,2])]

theorem allowedSuffixes_cover_ten :
    (∀ a ∈ leavesTenOrders, a.WellFormed 4) ∧
    ∃ frontier, (allowedSuffixes 4 leavesTenOrders).Gives frontier ∧
      frontier = [[0],[0,3,2],[0,3],[0,2,3]] ∧
      (allowedOrders 4 leavesTenOrders).length = 3! + 1! + 2! + 1! ∧
      (∀ order, IsOrder 4 order → (order ∈ allowedOrders 4 leavesTenOrders ↔ ∃ s ∈ frontier, s <:+ order)) ∧
      frontier.Nodup ∧ (∀ order ∈ allowedOrders 4 leavesTenOrders, ∃! s, s ∈ frontier ∧ s <:+ order) ∧
      (∀ s ∈ frontier, ∀ order, IsOrder 4 order → s <:+ order → order ∈ allowedOrders 4 leavesTenOrders) ∧
      (allowedOrders 4 leavesTenOrders).Nodup ∧
      (frontier.map fun s => ((4 : Int).toNat - s.length)!).sum =
        (allowedOrders 4 leavesTenOrders).length := by
  have ha : ∀ a ∈ leavesTenOrders, a.WellFormed 4 := by decide
  obtain ⟨frontier,hfrontier,hcover⟩ := allowedSuffixes_cover_allowedOrders ha
  obtain rfl : [[0],[0,3,2],[0,3],[0,2,3]] = frontier := Except.ok.inj (hfrontier .unlimited ⟨rfl,rfl⟩)
  exact ⟨ha,_,hfrontier,rfl,by decide,hcover⟩

end RunoffAudit
