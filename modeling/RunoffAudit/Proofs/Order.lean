import Mathlib.Data.List.Nodup
import Mathlib.Data.List.Perm.Subperm
import RunoffAudit.Elimination.Order

/-! # Elimination orders and their tails

An elimination order places every candidate of the contest once. Whatever distinct candidates have
been placed, the others can be put in front in some way, so every such suffix is the tail of an order.
An order that ends in a proper suffix of itself tells which candidate is placed next.
-/
namespace RunoffAudit

/-- The order places every candidate once. -/
def IsOrder (n : Int) (order : Suffix) : Prop := order.Perm (candidates n)

/-- The suffix places distinct candidates of the contest. -/
structure Placed (n : Int) (s : Suffix) : Prop where
  nodup : s.Nodup
  inContest : ∀ c ∈ s, 0 ≤ c ∧ c < n

variable {n : Int} {s t order : Suffix} {c : Candidate}

theorem nodup_candidates (n : Int) : (candidates n).Nodup :=
  List.nodup_range.map (fun _ _ h => Int.ofNat.inj h)

theorem length_candidates (n : Int) : (candidates n).length = n.toNat := by
  simp [candidates]

theorem nodup_unplaced (n : Int) (s : Suffix) : (unplaced n s).Nodup := (nodup_candidates n).filter _

theorem unplaced_cons (n : Int) (s : Suffix) (c : Candidate) :
    unplaced n (c :: s) = (unplaced n s).filter (· ≠ c) := by
  simp only [unplaced, List.filter_filter]
  apply List.filter_congr
  intro d _
  simp [not_or]

theorem length_unplaced_le (n : Int) (s : Suffix) : (unplaced n s).length ≤ n.toNat := by
  rw [← length_candidates]
  exact List.length_filter_le _ _

theorem length_unplaced_cons (hc : c ∈ unplaced n s) :
    (unplaced n (c :: s)).length = (unplaced n s).length - 1 := by
  have herase := (nodup_unplaced n s).erase_eq_filter c
  rw [unplaced_cons,← List.length_erase_of_mem hc,herase]
  simp only [ne_eq,decide_not,bne,beq_eq_decide]

theorem length_unplaced_cons_lt (hc : c ∈ unplaced n s) :
    (unplaced n (c :: s)).length < (unplaced n s).length := by
  rw [length_unplaced_cons hc]
  exact Nat.sub_lt (List.length_pos_of_mem hc) Nat.one_pos

theorem IsOrder.nodup (ho : IsOrder n order) : order.Nodup :=
  ho.nodup_iff.mpr (nodup_candidates n)

theorem IsOrder.mem_iff (ho : IsOrder n order) : c ∈ order ↔ 0 ≤ c ∧ c < n :=
  (List.Perm.mem_iff ho).trans mem_candidates

theorem IsOrder.placed (ho : IsOrder n order) : Placed n order :=
  ⟨ho.nodup,fun _ hc => ho.mem_iff.mp hc⟩

theorem IsOrder.unplaced_eq_nil (ho : IsOrder n order) : unplaced n order = [] := by
  apply List.filter_eq_nil_iff.mpr
  intro c hc
  simpa using ho.mem_iff.mpr (mem_candidates.mp hc)

theorem Placed.of_suffix (ht : Placed n t) (hs : s <:+ t) : Placed n s :=
  ⟨ht.nodup.sublist hs.sublist,fun c hc => ht.inContest c (hs.subset hc)⟩

theorem Placed.cons (hs : Placed n s) (hc : c ∈ unplaced n s) : Placed n (c :: s) := by
  obtain ⟨hr,hn⟩ := mem_unplaced.mp hc
  refine ⟨List.nodup_cons.mpr ⟨hn,hs.nodup⟩,?_⟩
  intro d hd
  rcases List.mem_cons.mp hd with rfl | hd
  · exact hr
  · exact hs.inContest d hd

theorem placed_singleton (hc : 0 ≤ c ∧ c < n) : Placed n [c] :=
  ⟨List.nodup_singleton c,fun _ hd => List.mem_singleton.mp hd ▸ hc⟩

theorem Placed.length_le (hs : Placed n s) : s.length ≤ n.toNat := by
  have hsub : s ⊆ candidates n := fun c hc => mem_candidates.mpr (hs.inContest c hc)
  have h := (hs.nodup.subperm hsub).length_le
  rwa [length_candidates] at h

/-- The open candidates in front complete any suffix. -/
theorem Placed.isOrder_append (hs : Placed n s) : IsOrder n (unplaced n s ++ s) := by
  have hd : List.Disjoint (unplaced n s) s := fun c hc => (mem_unplaced.mp hc).2
  apply (List.perm_ext_iff_of_nodup ((nodup_unplaced n s).append hs.nodup hd) (nodup_candidates n)).mpr
  intro c
  rw [List.mem_append,mem_unplaced,mem_candidates]
  constructor
  · rintro (h | h)
    · exact h.1
    · exact hs.inContest c h
  · intro h
    by_cases hc : c ∈ s
    · exact Or.inr hc
    · exact Or.inl ⟨h,hc⟩

theorem length_unplaced (hs : Placed n s) : (unplaced n s).length = n.toNat - s.length := by
  have h := hs.isOrder_append.length_eq
  rw [List.length_append,length_candidates] at h
  omega

theorem Placed.exists_order (hs : Placed n s) : ∃ order, IsOrder n order ∧ s <:+ order :=
  ⟨unplaced n s ++ s,hs.isOrder_append,List.suffix_append _ _⟩

theorem Placed.isOrder_of_unplaced (hs : Placed n s) (hu : unplaced n s = []) : IsOrder n s := by
  simpa [hu] using hs.isOrder_append

theorem Placed.isOrder_of_length (hs : Placed n s) (hl : n.toNat ≤ s.length) : IsOrder n s := by
  have hsub : s ⊆ candidates n := fun c hc => mem_candidates.mpr (hs.inContest c hc)
  exact (hs.nodup.subperm hsub).perm_of_length_le (by rwa [length_candidates])

theorem Placed.eq_or_cons_suffix (ht : Placed n t) (hs : s <:+ t) :
    t = s ∨ ∃ c ∈ unplaced n s, c :: s <:+ t := by
  obtain ⟨front,rfl⟩ := hs
  rcases List.eq_nil_or_concat front with rfl | ⟨init,c,rfl⟩
  · exact Or.inl rfl
  · right
    have hsuffix : c :: s <:+ init.concat c ++ s := ⟨init,by simp⟩
    have hp := ht.of_suffix hsuffix
    refine ⟨c,mem_unplaced.mpr ⟨hp.inContest c List.mem_cons_self,?_⟩,hsuffix⟩
    exact (List.nodup_cons.mp hp.nodup).1

theorem IsOrder.eq_or_cons_suffix (ho : IsOrder n order) (hs : s <:+ order) :
    order = s ∨ ∃ c ∈ unplaced n s, c :: s <:+ order := ho.placed.eq_or_cons_suffix hs

theorem IsOrder.exists_cons_suffix (ho : IsOrder n order) (hs : s <:+ order) (hu : unplaced n s ≠ []) :
    ∃ c ∈ unplaced n s, c :: s <:+ order := by
  rcases ho.eq_or_cons_suffix hs with rfl | h
  · exact absurd ho.unplaced_eq_nil hu
  · exact h

theorem getLast?_eq_some_iff_suffix : order.getLast? = some c ↔ [c] <:+ order := by
  rw [List.getLast?_eq_some_iff]
  exact ⟨fun ⟨front,h⟩ => ⟨front,h.symm⟩,fun ⟨front,h⟩ => ⟨front,h.symm⟩⟩

/-- The `k` candidates from `c` on, as the loops of the searches run through them. -/
def candidatesFrom (c : Candidate) : (k : Nat) → List Candidate
  | 0 => []
  | k + 1 => c :: candidatesFrom (c + 1) k

theorem candidatesFrom_eq_map (c : Int) (k : Nat) :
    candidatesFrom c k = (List.range k).map fun i => c + Int.ofNat i := by
  induction k generalizing c with
  | zero => rfl
  | succ k ih =>
    rw [candidatesFrom,ih,List.range_succ_eq_map,List.map_cons,List.map_map]
    congr 1
    · simp
    · apply List.map_congr_left
      intro i _
      show c + 1 + (i : Int) = c + (i + 1 : Nat)
      omega

theorem candidatesFrom_zero (n : Int) : candidatesFrom 0 n.toNat = candidates n := by
  simp [candidatesFrom_eq_map,candidates]

theorem candidatesFrom_inContest (n : Int) : ∀ d ∈ candidatesFrom 0 n.toNat, 0 ≤ d ∧ d < n :=
  fun _ hd => mem_candidates.mp (candidatesFrom_zero n ▸ hd)

/-- To prove something of a suffix it may be assumed of all suffixes with one more candidate. -/
theorem extend_induction {motive : Suffix → Prop}
    (step : ∀ s, (∀ c ∈ unplaced n s, motive (c :: s)) → motive s) (s : Suffix) : motive s :=
  step s fun c _ => extend_induction step (c :: s)
termination_by (unplaced n s).length
decreasing_by exact length_unplaced_cons_lt ‹_›

end RunoffAudit
