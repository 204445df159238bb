import RunoffAudit.Elimination.Frontier
import RunoffAudit.Proofs.Survivors
import RunoffAudit.Proofs.Work

/-! # The expansion of a frontier

Expanding a suffix by one assertion cuts its orders at the point where the assertion is settled. Applied
to a frontier one after the other, assertions leave what survives all of them at once.
-/
namespace RunoffAudit
open Metered

variable {α : Type} {n : Int} {a : Assertion} {as : List Assertion} {keep : Bool} {s : Suffix}

def expansion (n : Int) (a : Assertion) (keep : Bool) (s : Suffix) : List Suffix :=
  (cut n (settled [a]) s).filter fun t => keep || granted [a] t

theorem settled_singleton : settled [a] s = decide (a.effect s ≠ .undetermined) := by
  cases h : a.effect s <;> simp [settled,refuted,granted,h]

theorem gatherUnplaced_returns {f : Candidate → Metered (List α)} {g : Candidate → List α} {left : Nat}
    {c : Candidate} (h : ∀ d ∈ candidatesFrom c left, d ∉ s → (f d).Returns (g d)) :
    (gatherUnplaced s f left c).Returns (((candidatesFrom c left).filter (· ∉ s)).flatMap g) := by
  induction left generalizing c with
  | zero => exact returns_pure []
  | succ left ih =>
    have hrest := ih (c := c + 1) fun d hd => h d (List.mem_cons_of_mem c hd)
    rw [gatherUnplaced]
    by_cases hc : c ∈ s
    · simpa [candidatesFrom,hc] using hrest
    · rw [if_neg hc,candidatesFrom,List.filter_cons_of_pos (by simpa using hc),List.flatMap_cons]
      have hhere := h c List.mem_cons_self hc
      exact hhere.bind (hrest.bind (returns_pure _))

theorem expansion_of_satisfied (h : a.effect s = .satisfied) : expansion n a keep s = [s] := by
  rw [expansion,cut_of_stop (by simp [settled_singleton,h])]
  simp [granted,h]

theorem expansion_of_contradiction (h : a.effect s = .contradiction) :
    expansion n a keep s = if keep then [s] else [] := by
  rw [expansion,cut_of_stop (by simp [settled_singleton,h])]
  cases keep <;> simp [granted,h]

theorem expansion_of_undetermined (h : a.effect s = .undetermined) :
    expansion n a keep s = (unplaced n s).flatMap fun c => expansion n a keep (c :: s) := by
  rw [expansion,cut_of_not_stop (by simp [settled_singleton,h]),List.filter_flatMap]
  rfl

/-- The bound on the candidates yet to be placed never ends an expansion: an order is always decided. -/
theorem expandWithin_returns (ha : a.WellFormed n) {room : Nat} (hs : Placed n s)
    (hroom : n.toNat ≤ s.length + room) : (expandWithin a n keep room s).Returns (expansion n a keep s) := by
  induction room generalizing s with
  | zero =>
    have hdecided := Assertion.effect_ne_undetermined_of_isOrder ha (hs.isOrder_of_length hroom)
    rw [expandWithin]
    apply Returns.tick_bind
    cases he : a.effect s with
    | satisfied => exact expansion_of_satisfied he ▸ returns_pure [s]
    | contradiction => exact expansion_of_contradiction he ▸ returns_pure _
    | undetermined => exact absurd he hdecided
  | succ room ih =>
    rw [expandWithin]
    apply Returns.tick_bind
    cases he : a.effect s with
    | satisfied => exact expansion_of_satisfied he ▸ returns_pure [s]
    | contradiction => exact expansion_of_contradiction he ▸ returns_pure _
    | undetermined =>
      rw [expansion_of_undetermined he]
      have hbelow : ∀ c ∈ candidatesFrom 0 n.toNat, c ∉ s →
          (expandWithin a n keep room (c :: s)).Returns (expansion n a keep (c :: s)) := by
        intro c hc hcs
        rw [candidatesFrom_zero] at hc
        have hu : c ∈ unplaced n s := mem_unplaced.mpr ⟨mem_candidates.mp hc,hcs⟩
        exact ih (hs.cons hu) (by rw [List.length_cons]; omega)
      have h := gatherUnplaced_returns hbelow
      rw [candidatesFrom_zero] at h
      exact h

theorem expand_returns (keep : Bool) (ha : a.WellFormed n) (hs : Placed n s) :
    (expand a n keep s).Returns (expansion n a keep s) :=
  expandWithin_returns ha hs (Nat.le_add_left _ _)

theorem expandAll_returns (keep : Bool) (ha : a.WellFormed n) {frontier : List Suffix}
    (hf : ∀ s ∈ frontier, Placed n s) :
    (expandAll a n keep frontier).Returns (frontier.flatMap (expansion n a keep)) := by
  induction frontier with
  | nil => exact returns_pure []
  | cons s rest ih =>
    have hhere := expand_returns keep ha (hf s List.mem_cons_self)
    have hrest := ih fun t ht => hf t (List.mem_cons_of_mem s ht)
    rw [expandAll,List.flatMap_cons]
    exact hhere.bind (hrest.bind (returns_pure _))

theorem flatMap_survivors_nil (frontier : List Suffix) : frontier.flatMap (survivors n []) = frontier := by
  have hnil : survivors n [] = fun s => [s] := funext fun s => survivors_of_granted rfl
  rw [hnil,List.flatMap_singleton']

theorem expansion_false : expansion n a false = survivors n [a] := by
  funext s
  simp [expansion,survivors]

theorem expandAll_false_returns (ha : a.WellFormed n) {frontier : List Suffix} (hf : ∀ s ∈ frontier, Placed n s) :
    (expandAll a n false frontier).Returns (frontier.flatMap (survivors n [a])) := by
  rw [← expansion_false]
  exact expandAll_returns false ha hf

theorem placed_flatMap_survivors {frontier : List Suffix} (hf : ∀ s ∈ frontier, Placed n s) :
    ∀ t ∈ frontier.flatMap (survivors n as), Placed n t := by
  intro t ht
  obtain ⟨s,hs,ht⟩ := List.mem_flatMap.mp ht
  exact (of_mem_survivors (hf s hs) ht).1

/-- The contradicted suffixes can also be left out afterwards. -/
theorem filter_expansion : (expansion n a true s).filter (granted [a]) = survivors n [a] s := by
  simp [expansion,survivors]

/-- What one assertion leaves of a suffix, the others whittle down to what survives all. -/
theorem flatMap_survivors (hs : Placed n s) :
    (survivors n [a] s).flatMap (survivors n as) = survivors n (a :: as) s := by
  induction s using extend_induction (n := n) with
  | step s ih =>
    cases he : a.effect s with
    | contradiction =>
      rw [survivors_of_refuted (by simp [refuted,he]),survivors_of_refuted (by simp [refuted,he])]
      rfl
    | satisfied =>
      have hagree : ∀ t, Placed n t → s <:+ t →
          refuted as t = refuted (a :: as) t ∧ granted as t = granted (a :: as) t := by
        intro t hp hsuffix
        have ht : a.effect t = .satisfied := by
          rw [Assertion.effect_of_suffix hp.nodup hsuffix (by simp [he]),he]
        simp [refuted,granted,ht]
      rw [survivors_of_granted (by simp [granted,he]),List.flatMap_singleton]
      exact survivors_congr hs hagree
    | undetermined =>
      rw [survivors_of_open (by simp [refuted,he]) (by simp [granted,he]),List.flatMap_assoc]
      rw [survivors_of_not_granted hs (by simp [granted,he])]
      apply List.flatMap_congr
      intro c hc
      exact ih c hc (hs.cons hc)

theorem flatMap_frontier_survivors {frontier : List Suffix} (hf : ∀ s ∈ frontier, Placed n s) :
    (frontier.flatMap (survivors n [a])).flatMap (survivors n as) = frontier.flatMap (survivors n (a :: as)) := by
  rw [List.flatMap_assoc]
  apply List.flatMap_congr
  intro s hs
  exact flatMap_survivors (hf s hs)

end RunoffAudit
