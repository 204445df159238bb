import Mathlib.Data.List.Permutation
import RunoffAudit.Proofs.Order

/-! # The orders that end in a suffix

Putting the newest candidate into every slot lists each elimination order once. The orders that end in a
given suffix are the arrangements of the candidates left open, put in front of it, so there are as many of
them as arrangements.
-/
namespace RunoffAudit
open scoped Nat

variable {n : Int} {s order : Suffix} {c : Candidate}

theorem slots_eq_permutations'Aux (c : Candidate) (s : Suffix) : slots c s = s.permutations'Aux c := by
  induction s with
  | nil => rfl
  | cons d rest ih => rw [slots,List.permutations'Aux,ih]

theorem ordersOf_eq_permutations' (k : Nat) :
    ordersOf k = ((List.range k).map Int.ofNat).reverse.permutations' := by
  induction k with
  | zero => rfl
  | succ k ih =>
    have hnewest : ((List.range (k + 1)).map Int.ofNat).reverse =
        Int.ofNat k :: ((List.range k).map Int.ofNat).reverse := by
      rw [List.range_succ,List.map_append,List.reverse_append]
      rfl
    rw [ordersOf,ih,hnewest,List.permutations']
    apply List.flatMap_congr
    intro shorter _
    exact slots_eq_permutations'Aux _ shorter

theorem allOrders_eq_permutations' (n : Int) : allOrders n = (candidates n).reverse.permutations' :=
  ordersOf_eq_permutations' n.toNat

theorem mem_allOrders_iff : order ∈ allOrders n ↔ IsOrder n order := by
  have hall : (candidates n).reverse.Perm (candidates n) := List.reverse_perm _
  rw [allOrders_eq_permutations',List.mem_permutations']
  exact ⟨fun h => h.trans hall,fun h => h.trans hall.symm⟩

theorem nodup_permutations' {l : List Candidate} (h : l.Nodup) : l.permutations'.Nodup :=
  (List.permutations_perm_permutations' l).nodup_iff.mp (List.nodup_permutations l h)

theorem nodup_allOrders (n : Int) : (allOrders n).Nodup := by
  rw [allOrders_eq_permutations']
  exact nodup_permutations' (List.nodup_reverse.mpr (nodup_candidates n))

theorem length_permutations' (l : List Candidate) : l.permutations'.length = l.length ! := by
  rw [← (List.permutations_perm_permutations' l).length_eq,List.length_permutations]

theorem length_allOrders (n : Int) : (allOrders n).length = n.toNat ! := by
  rw [allOrders_eq_permutations',length_permutations',List.length_reverse,length_candidates]

/-- Every arrangement of the candidates is listed exactly once and nothing else is listed, so there are as many
elimination orders as arrangements. -/
theorem allOrders_enumerates (n : Int) :
    (∀ order, (allOrders n).count order = if order.Perm (candidates n) then 1 else 0) ∧
      (allOrders n).length = n.toNat ! := by
  refine ⟨?_,length_allOrders n⟩
  intro order
  by_cases ho : order.Perm (candidates n)
  · rw [if_pos ho]
    exact List.count_eq_one_of_mem (nodup_allOrders n) (mem_allOrders_iff.mpr ho)
  · rw [if_neg ho]
    exact List.count_eq_zero.mpr fun h => ho (mem_allOrders_iff.mp h)

def completions (n : Int) (s : Suffix) : List Suffix := (unplaced n s).permutations'.map (· ++ s)

theorem mem_completions_iff (hs : Placed n s) : order ∈ completions n s ↔ IsOrder n order ∧ s <:+ order := by
  have hends : ∀ front : Suffix, front.Perm (unplaced n s) ↔ IsOrder n (front ++ s) := by
    intro front
    have hall := hs.isOrder_append
    constructor
    · intro h
      exact (h.append_right s).trans hall
    · intro h
      exact (List.perm_append_right_iff s).mp (h.trans hall.symm)
  simp only [completions,List.mem_map,List.mem_permutations']
  constructor
  · rintro ⟨front,hfront,rfl⟩
    exact ⟨(hends front).mp hfront,List.suffix_append front s⟩
  · rintro ⟨ho,front,rfl⟩
    exact ⟨front,(hends front).mpr ho,rfl⟩

theorem nodup_completions (n : Int) (s : Suffix) : (completions n s).Nodup :=
  (nodup_permutations' (nodup_unplaced n s)).map fun _ _ h => List.append_cancel_right h

theorem length_completions (hs : Placed n s) : (completions n s).length = (n.toNat - s.length)! := by
  rw [completions,List.length_map,length_permutations',length_unplaced hs]

end RunoffAudit
