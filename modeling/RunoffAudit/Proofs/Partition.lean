import Mathlib.Algebra.GroupWithZero.Nat
import RunoffAudit.Proofs.Completion
import RunoffAudit.Proofs.Expansion
import RunoffAudit.Proofs.Faults

/-! # Suffixes that divide the orders among them

Suffixes of which no order ends in two stand each for the orders that end in it, so these are counted by the
lengths of the suffixes. The expansion of a suffix is such a list: every order that ends in the suffix
ends in exactly one element, and no element is longer than its assertion asks for.
-/
namespace RunoffAudit
open Metered
open scoped Nat

variable {n : Int} {a : Assertion} {stop : Suffix → Bool} {s t : Suffix} {l orders : List Suffix}

/-- The orders that end in one of the suffixes are the completions of the suffixes, in another order. -/
theorem flatMap_completions_perm_of_apart (hplaced : ∀ t ∈ l, Placed n t) (hapart : l.Pairwise Apart)
    (horders : orders.Nodup) (hmem : ∀ order, order ∈ orders ↔ IsOrder n order ∧ ∃ t ∈ l, t <:+ order) :
    (l.flatMap (completions n)).Perm orders := by
  have hnodup : (l.flatMap (completions n)).Nodup := by
    apply List.nodup_flatMap.mpr
    refine ⟨fun s _ => nodup_completions n s,?_⟩
    apply hapart.imp_of_mem
    intro s t hs ht hapart order hso hto
    exact hapart order ((mem_completions_iff (hplaced s hs)).mp hso).2 ((mem_completions_iff (hplaced t ht)).mp hto).2
  apply (List.perm_ext_iff_of_nodup hnodup horders).mpr
  intro order
  rw [List.mem_flatMap,hmem]
  constructor
  · rintro ⟨t,ht,hto⟩
    obtain ⟨ho,hto⟩ := (mem_completions_iff (hplaced t ht)).mp hto
    exact ⟨ho,t,ht,hto⟩
  · rintro ⟨ho,t,ht,hto⟩
    exact ⟨t,ht,(mem_completions_iff (hplaced t ht)).mpr ⟨ho,hto⟩⟩

theorem sum_factorial_of_apart (hplaced : ∀ t ∈ l, Placed n t) (hapart : l.Pairwise Apart)
    (horders : orders.Nodup) (hmem : ∀ order, order ∈ orders ↔ IsOrder n order ∧ ∃ t ∈ l, t <:+ order) :
    (l.map fun t => (n.toNat - t.length)!).sum = orders.length := by
  have hlengths : l.map (fun t => (n.toNat - t.length)!) = l.map fun t => (completions n t).length :=
    List.map_congr_left fun t ht => (length_completions (hplaced t ht)).symm
  rw [hlengths,← List.length_flatMap,(flatMap_completions_perm_of_apart hplaced hapart horders hmem).length_eq]

/-! ## Cutting where a test holds -/

/-- A suffix of the cut that is longer than the given one fails the test without its first candidate. -/
theorem eq_or_tail_of_mem_cut (ht : t ∈ cut n stop s) : t = s ∨ s <:+ t.tail ∧ stop t.tail = false := by
  induction s using extend_induction (n := n) with
  | step s ih =>
    cases h : stop s with
    | true =>
      rw [cut_of_stop h] at ht
      exact Or.inl (List.mem_singleton.mp ht)
    | false =>
      rw [cut_of_not_stop h] at ht
      obtain ⟨c,hc,ht⟩ := List.mem_flatMap.mp ht
      right
      rcases ih c hc ht with rfl | ⟨hsuffix,hstop⟩
      · exact ⟨List.suffix_refl s,h⟩
      · exact ⟨(List.suffix_cons c s).trans hsuffix,hstop⟩

/-- The suffixes of a cut stand for all orders that end in the given one, if every order passes the test. -/
theorem sum_factorial_cut (hs : Placed n s) (horder : ∀ order, IsOrder n order → stop order = true) :
    ((cut n stop s).map fun t => (n.toNat - t.length)!).sum = (n.toNat - s.length)! := by
  rw [← length_completions hs]
  apply sum_factorial_of_apart (fun t ht => (of_mem_cut hs ht).1) (pairwise_apart_cut hs) (nodup_completions n s)
  intro order
  rw [mem_completions_iff hs]
  apply and_congr_right
  intro ho
  constructor
  · exact fun hso => exists_mem_cut ho hso (horder order ho)
  · rintro ⟨t,ht,hto⟩
    exact (of_mem_cut hs ht).2.1.trans hto

/-! ## Expansions -/

theorem settled_singleton_eq_true_iff : settled [a] t = true ↔ a.effect t ≠ .undetermined := by
  rw [settled_singleton,decide_eq_true_iff]

theorem settled_singleton_of_isOrder (ha : a.WellFormed n) {order : Suffix} (ho : IsOrder n order) :
    settled [a] order = true :=
  settled_singleton_eq_true_iff.mpr (Assertion.effect_ne_undetermined_of_isOrder ha ho)

theorem expansion_true (n : Int) (a : Assertion) (s : Suffix) : expansion n a true s = cut n (settled [a]) s :=
  List.filter_eq_self.mpr fun _ _ => rfl

theorem expansion_false_eq_filter (hs : Placed n s) :
    expansion n a false s = (expansion n a true s).filter fun t => a.effect t ≠ .contradiction := by
  rw [expansion_true,expansion]
  apply List.filter_congr
  intro t ht
  have hdecided := settled_singleton_eq_true_iff.mp (of_mem_cut hs ht).2.2
  cases he : a.effect t with
  | contradiction => simp [granted,he]
  | satisfied => simp [granted,he]
  | undetermined => exact absurd he hdecided

/-- Without a limit, the expansion of a suffix by an assertion divides the orders that end in the suffix. Its elements
are decided and as short as can be, every such order ends in exactly one of them, and their weights add up to
the weight of the suffix. If contradicted suffixes are not kept, the others stay as they are. -/
theorem expand_divides_orders (ha : a.WellFormed n) (hs : Placed n s) :
    ∃ all, (expand a n true s).Gives all ∧
      (∀ t ∈ all, Placed n t ∧ s <:+ t ∧ a.effect t ≠ .undetermined) ∧
      all.Nodup ∧ (∀ order, IsOrder n order → s <:+ order → ∃! t, t ∈ all ∧ t <:+ order) ∧
      (∀ t ∈ all, s.length < t.length → a.effect t.tail = .undetermined) ∧
      (all.map fun t => (n.toNat - t.length)!).sum = (n.toNat - s.length)! ∧
      (expand a n false s).Gives (all.filter fun t => a.effect t ≠ .contradiction) := by
  refine ⟨cut n (settled [a]) s,?all,?decided,nodup_cut hs,?covers,?shortest,?weights,?kept⟩
  case all => exact expansion_true n a s ▸ (expand_returns true ha hs).gives
  case decided =>
    intro t ht
    obtain ⟨hplaced,hsuffix,hstop⟩ := of_mem_cut hs ht
    exact ⟨hplaced,hsuffix,settled_singleton_eq_true_iff.mp hstop⟩
  case covers =>
    intro order ho hso
    exact existsUnique_mem_cut ho hso (settled_singleton_of_isOrder ha ho)
  case shortest =>
    intro t ht hlonger
    rcases eq_or_tail_of_mem_cut ht with rfl | ⟨_,hstop⟩
    · exact absurd hlonger (Nat.lt_irrefl _)
    · by_contra hdecided
      rw [settled_singleton_eq_true_iff.mpr hdecided] at hstop
      cases hstop
  case weights => exact sum_factorial_cut hs fun _ => settled_singleton_of_isOrder ha
  case kept =>
    rw [← expansion_true,← expansion_false_eq_filter hs]
    exact (expand_returns false ha hs).gives

/-- Of four candidates one is placed. The expansion ends at two depths, and one element is contradicted. -/
theorem expand_divides_orders_four :
    (Assertion.nen 1 0 (.ofList [0,1,2])).WellFormed 4 ∧ Placed 4 [0] ∧
    ∃ all, (expand (.nen 1 0 (.ofList [0,1,2])) 4 true [0]).Gives all ∧
      all = [[1,0],[1,2,0],[3,2,0],[3,0]] ∧
      (∀ order, IsOrder 4 order → [0] <:+ order → ∃! t, t ∈ all ∧ t <:+ order) ∧
      (all.map fun t => ((4 : Int).toNat - t.length)!).sum = 3! ∧
      (expand (.nen 1 0 (.ofList [0,1,2])) 4 false [0]).Gives [[1,0],[3,2,0],[3,0]] := by
  have ha : (Assertion.nen 1 0 (.ofList [0,1,2])).WellFormed 4 := by decide
  have hs : Placed 4 [0] := ⟨by decide,by decide⟩
  obtain ⟨all,hall,_,_,hcovers,_,hweights,hkept⟩ := expand_divides_orders ha hs
  obtain rfl : [[1,0],[1,2,0],[3,2,0],[3,0]] = all := Except.ok.inj (hall .unlimited ⟨rfl,rfl⟩)
  exact ⟨ha,hs,_,hall,rfl,hcovers,hweights,hkept⟩

end RunoffAudit
