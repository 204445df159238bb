import Mathlib.Data.List.Basic
import RunoffAudit.Ordering.Canonical
import RunoffAudit.Proofs.Faults

/-! # The canonical order is determined by the assertions

Keys are compared as words, and no two assertions have the same key: it spells the assertion out. So the
sorted list does not depend on how the assertions were listed, only on how often each of them was.
-/
namespace RunoffAudit

variable {as bs : List Assertion}

section Words
variable {x y : Int} {k l m : List Int}

theorem atOrBefore_cons_iff : atOrBefore (x :: k) (y :: l) = true ↔ x < y ∨ (x = y ∧ atOrBefore k l = true) := by
  simp [atOrBefore]

theorem atOrBefore_total (k l : List Int) : (atOrBefore k l || atOrBefore l k) = true := by
  rw [Bool.or_eq_true]
  induction k generalizing l with
  | nil => exact Or.inl rfl
  | cons x k ih =>
    cases l with
    | nil => exact Or.inr rfl
    | cons y l =>
      rw [atOrBefore_cons_iff,atOrBefore_cons_iff]
      rcases Int.lt_trichotomy x y with h | rfl | h
      · exact Or.inl (Or.inl h)
      · exact (ih l).imp (fun h => Or.inr ⟨rfl,h⟩) fun h => Or.inr ⟨rfl,h⟩
      · exact Or.inr (Or.inl h)

theorem atOrBefore_trans (hkl : atOrBefore k l = true) (hlm : atOrBefore l m = true) : atOrBefore k m = true := by
  induction k generalizing l m with
  | nil => rfl
  | cons x k ih =>
    cases l with
    | nil => cases hkl
    | cons y l =>
      cases m with
      | nil => cases hlm
      | cons z m =>
        rw [atOrBefore_cons_iff] at hkl hlm ⊢
        rcases hkl with hxy | ⟨rfl,hkl⟩
        · rcases hlm with hyz | ⟨rfl,_⟩
          · exact Or.inl (Int.lt_trans hxy hyz)
          · exact Or.inl hxy
        · exact hlm.imp_right fun h => ⟨h.1,ih hkl h.2⟩

theorem atOrBefore_antisymm (hkl : atOrBefore k l = true) (hlk : atOrBefore l k = true) : k = l := by
  induction k generalizing l with
  | nil =>
    cases l with
    | nil => rfl
    | cons y l => cases hlk
  | cons x k ih =>
    cases l with
    | nil => cases hkl
    | cons y l =>
      rw [atOrBefore_cons_iff] at hkl hlk
      have hxy : x = y := by omega
      rw [hxy,ih (hkl.resolve_left (by omega)).2 (hlk.resolve_left (by omega)).2]

end Words

theorem canonicalKey_injective : Function.Injective Assertion.canonicalKey := by
  intro a b h
  cases a with
  | neb w l =>
    cases b with
    | neb w' l' => simpa [Assertion.canonicalKey,Assertion.rank,Assertion.tieBreak] using h
    | nen w' l' k' => simp [Assertion.canonicalKey,Assertion.rank] at h
  | nen w l k =>
    cases b with
    | neb w' l' => simp [Assertion.canonicalKey,Assertion.rank] at h
    | nen w' l' k' =>
      simp only [Assertion.canonicalKey,Assertion.rank,Assertion.tieBreak,List.cons_append,List.nil_append,
        List.cons.injEq] at h
      obtain ⟨_,_,hw,hl,hmembers⟩ := h
      have hk : k = k' := by
        cases k
        cases k'
        cases hmembers
        rfl
      rw [hw,hl,hk]

def canonicallySorted (assertions : List Assertion) : List Assertion :=
  ((numbered assertions).mergeSort fun x y => atOrBefore x.1.canonicalKey y.1.canonicalKey).map (·.1)

theorem filterMap_canonicalOrder : (canonicalOrder as).filterMap (as[·]?) = canonicallySorted as := by
  have hat : ∀ x ∈ (numbered as).mergeSort (fun x y => atOrBefore x.1.canonicalKey y.1.canonicalKey),
      as[x.2]? = some x.1 := fun x hx => mem_numbered.mp (List.mem_mergeSort.mp hx)
  rw [canonicalOrder,canonicallySorted,List.filterMap_map,← List.filterMap_eq_map]
  exact List.filterMap_congr hat

theorem canonicallySorted_perm (as : List Assertion) : (canonicallySorted as).Perm as := by
  have h := (List.mergeSort_perm (numbered as)
    fun x y => atOrBefore x.1.canonicalKey y.1.canonicalKey).map (·.1)
  rwa [numbered_map_fst] at h

theorem pairwise_canonicallySorted (as : List Assertion) :
    (canonicallySorted as).Pairwise fun a b => atOrBefore a.canonicalKey b.canonicalKey = true := by
  apply List.pairwise_map.mpr
  apply List.pairwise_mergeSort
  · intro x y z
    exact atOrBefore_trans
  · intro x y
    exact atOrBefore_total _ _

/-- Sorting leaves elements that are all alike where they stand to each other. -/
theorem filter_mergeSort {α : Type} {le : α → α → Bool}
    (htrans : ∀ x y z, le x y = true → le y z = true → le x z = true) (htotal : ∀ x y, (le x y || le y x) = true)
    {p : α → Bool} (halike : ∀ x y, p x = true → p y = true → le x y = true) (l : List α) :
    (l.mergeSort le).filter p = l.filter p := by
  have hsorted : (l.filter p).Pairwise fun x y => le x y = true := by
    apply List.pairwise_of_forall_mem_list
    intro x hx y hy
    exact halike x y (List.mem_filter.mp hx).2 (List.mem_filter.mp hy).2
  have hsub : (l.filter p).Sublist (l.mergeSort le) := List.sublist_mergeSort htrans htotal hsorted List.filter_sublist
  have hsub := hsub.filter p
  rw [List.filter_filter] at hsub
  simp only [Bool.and_self] at hsub
  exact (hsub.eq_of_length ((List.mergeSort_perm l le).filter p).length_eq.symm).symm

theorem pairwise_mergeSort_numbered (as : List Assertion) :
    ((numbered as).mergeSort fun x y => atOrBefore x.1.canonicalKey y.1.canonicalKey).Pairwise fun x y =>
      atOrBefore x.1.canonicalKey y.1.canonicalKey = true ∧ (x.1.canonicalKey = y.1.canonicalKey → x.2 < y.2) := by
  have htrans : ∀ x y z : Numbered, atOrBefore x.1.canonicalKey y.1.canonicalKey = true →
      atOrBefore y.1.canonicalKey z.1.canonicalKey = true → atOrBefore x.1.canonicalKey z.1.canonicalKey = true :=
    fun _ _ _ => atOrBefore_trans
  have htotal : ∀ x y : Numbered, (atOrBefore x.1.canonicalKey y.1.canonicalKey ||
      atOrBefore y.1.canonicalKey x.1.canonicalKey) = true := fun _ _ => atOrBefore_total _ _
  apply List.pairwise_iff_forall_sublist.mpr
  intro x y hxy
  refine ⟨List.pairwise_iff_forall_sublist.mp (List.pairwise_mergeSort htrans htotal _) hxy,?_⟩
  intro hkey
  have halike := hxy.filter fun z => z.1.canonicalKey = y.1.canonicalKey
  rw [filter_mergeSort htrans htotal] at halike
  · simp only [hkey,decide_true,List.filter_cons_of_pos,List.filter_nil] at halike
    exact List.pairwise_iff_forall_sublist.mp (pairwise_numbered as) (halike.trans List.filter_sublist)
  · intro z z' hz hz'
    rw [of_decide_eq_true hz,of_decide_eq_true hz']
    exact (Bool.or_self _).symm.trans (atOrBefore_total _ _)

theorem canonicallySorted_eq_of_pairwise (hperm : bs.Perm as)
    (hsorted : bs.Pairwise fun a b => atOrBefore a.canonicalKey b.canonicalKey = true) : canonicallySorted as = bs := by
  refine List.Perm.eq_of_pairwise ?_ (pairwise_canonicallySorted as) hsorted
    ((canonicallySorted_perm as).trans hperm.symm)
  intro a b _ _ hab hba
  exact canonicalKey_injective (atOrBefore_antisymm hab hba)

/-- However the same assertions are listed, they are sorted into the same list. -/
theorem canonicallySorted_eq_of_perm (h : bs.Perm as) : canonicallySorted bs = canonicallySorted as :=
  canonicallySorted_eq_of_pairwise ((canonicallySorted_perm as).trans h.symm) (pairwise_canonicallySorted as)

/-- A copy of an assertion is put right behind it. -/
theorem canonicallySorted_repeated {before after : List Assertion} {a : Assertion}
    (hsorted : canonicallySorted as = before ++ a :: after) (h : bs.Perm (a :: as)) :
    canonicallySorted bs = before ++ a :: a :: after := by
  apply canonicallySorted_eq_of_pairwise
  · have hperm := canonicallySorted_perm as
    rw [hsorted] at hperm
    exact (List.perm_middle.trans (hperm.cons a)).trans h.symm
  · have hself : atOrBefore a.canonicalKey a.canonicalKey = true :=
      (Bool.or_self _).symm.trans (atOrBefore_total _ _)
    have hpairs := pairwise_canonicallySorted as
    rw [hsorted] at hpairs
    obtain ⟨hbefore,hafter,hacross⟩ := List.pairwise_append.mp hpairs
    refine List.pairwise_append.mpr ⟨hbefore,List.pairwise_cons.mpr ⟨?_,hafter⟩,?_⟩
    · intro x hx
      rcases List.mem_cons.mp hx with rfl | hx
      · exact hself
      · exact (List.pairwise_cons.mp hafter).1 x hx
    · intro x hx y hy
      rcases List.mem_cons.mp hy with rfl | hy
      · exact hacross x hx y List.mem_cons_self
      · exact hacross x hx y hy

end RunoffAudit
