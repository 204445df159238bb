import RunoffAudit.Proofs.Order
import RunoffAudit.WellFormed

/-! # Which orders an assertion rules out

What it means that an elimination order violates an assertion is said on the order as a whole. The effect
of an assertion on a suffix agrees: it never changes once it is decided, every order decides it, and an
order is contradicted exactly when it violates the assertion. So a contradicted suffix has only
orders that violate the assertion, and a satisfied one only orders that do not.
-/
namespace RunoffAudit
namespace Assertion

/-- The order is one that the assertion excludes. For an NEB, the loser comes later than the winner; for
an NEN, the winner is followed by the other continuing candidates and nobody else. -/
def Violates : Assertion → Suffix → Prop
  | neb w l, order => [w,l].Sublist order
  | nen w _ c, order => ∃ gone later, order = gone ++ w :: later ∧ (w :: later).Perm c.members

variable {n : Int} {a : Assertion} {w l c : Candidate} {k : CandidateSet} {s t order : Suffix}

/-! ## Decisions are kept -/

theorem nebEffect_cons (c : Candidate) (h : nebEffect w l s ≠ .undetermined) :
    nebEffect w l (c :: s) = nebEffect w l s := by
  unfold nebEffect at h ⊢
  rw [List.reverse_cons,List.find?_append]
  cases hf : s.reverse.find? fun c => c = w ∨ c = l with
  | none =>
    rw [hf] at h
    exact absurd rfl h
  | some d => rfl

theorem window_cons_of_le {j : Nat} (h : j ≤ s.length) : window j (c :: s) = window j s := by
  have hj : (c :: s).length - j = s.length - j + 1 := by
    rw [List.length_cons]
    omega
  rw [window,hj,List.drop_succ_cons,window]

theorem window_of_length_le {j : Nat} (h : s.length ≤ j) : window j s = s := by
  rw [window,Nat.sub_eq_zero_of_le h,List.drop_zero]

theorem nenEffect_cons (hc : c ∉ s) (h : nenEffect w k s ≠ .undetermined) :
    nenEffect w k (c :: s) = nenEffect w k s := by
  by_cases hlen : k.size ≤ s.length
  · simp only [nenEffect,window_cons_of_le hlen,hlen,List.length_cons,Nat.le_succ_of_le hlen,if_true]
  · have hs : window k.size s = s := window_of_length_le (by omega)
    have hcs : window k.size (c :: s) = c :: s := window_of_length_le (by rw [List.length_cons]; omega)
    simp only [nenEffect,hs,hcs,hlen,if_false] at h ⊢
    by_cases hstranger : ∃ x, x ∈ s ∧ x ∉ k
    · simp [hstranger]
    · have hw : w ∈ s := by
        by_contra hw
        simp [hstranger,hw] at h
      have hcw : c ≠ w := fun e => hc (e ▸ hw)
      simp [hw,hcw]

/-- An effect that is decided stays the same when somebody else is placed in front. -/
theorem effect_cons (hc : c ∉ s) (h : a.effect s ≠ .undetermined) : a.effect (c :: s) = a.effect s := by
  cases a with
  | neb w l => exact nebEffect_cons c h
  | nen w l k => exact nenEffect_cons hc h

theorem effect_append (hd : (t ++ s).Nodup) (h : a.effect s ≠ .undetermined) :
    a.effect (t ++ s) = a.effect s := by
  induction t with
  | nil => rfl
  | cons c t ih =>
    obtain ⟨hc,hd⟩ := List.nodup_cons.mp (List.cons_append ▸ hd)
    have he := ih hd
    rw [List.cons_append,effect_cons hc (he ▸ h),he]

/-- The orders that end in a decided suffix have its effect. -/
theorem effect_of_suffix (ho : order.Nodup) (hs : s <:+ order) (h : a.effect s ≠ .undetermined) :
    a.effect order = a.effect s := by
  obtain ⟨front,rfl⟩ := hs
  exact effect_append ho h

/-! ## Orders are decided -/

theorem nebEffect_ne_undetermined (hw : w ∈ order) : nebEffect w l order ≠ .undetermined := by
  unfold nebEffect
  cases hf : order.reverse.find? fun c => c = w ∨ c = l with
  | none => simpa using List.find?_eq_none.mp hf w (List.mem_reverse.mpr hw)
  | some c =>
    dsimp only
    split <;> simp

theorem nenEffect_ne_undetermined (hk : k.size ≤ order.length) : nenEffect w k order ≠ .undetermined := by
  simp only [nenEffect,hk,if_true]
  split
  · simp
  · split <;> simp

theorem nodup_members (k : CandidateSet) : k.members.Nodup := k.ascending.imp fun h => Int.ne_of_lt h

theorem size_le_length_of_isOrder (ho : IsOrder n order) (hk : ∀ c ∈ k.members, 0 ≤ c ∧ c < n) :
    k.size ≤ order.length :=
  ((nodup_members k).subperm fun c hc => ho.mem_iff.mpr (hk c hc)).length_le

theorem effect_ne_undetermined_of_isOrder (ha : a.WellFormed n) (ho : IsOrder n order) :
    a.effect order ≠ .undetermined := by
  obtain ⟨hr,_,_⟩ := ha
  cases a with
  | neb w l => exact nebEffect_ne_undetermined (ho.mem_iff.mpr (hr w (by simp [mentioned])))
  | nen w l k =>
    have hk : ∀ c ∈ k.members, 0 ≤ c ∧ c < n := fun c hc => hr c (by simp [mentioned,hc])
    exact nenEffect_ne_undetermined (size_le_length_of_isOrder ho hk)

/-! ## Contradicted orders are those that violate -/

/-- Of two entries of a list the one found first comes first. -/
theorem find?_eq_some_iff_sublist {r : List Candidate} (hr : r.Nodup) (hw : w ∈ r) (hwl : w ≠ l) :
    (r.find? fun c => c = w ∨ c = l) = some l ↔ [l,w].Sublist r := by
  induction r with
  | nil => cases hw
  | cons c r ih =>
    obtain ⟨hc,hr⟩ := List.nodup_cons.mp hr
    by_cases hcw : c = w
    · subst hcw
      have hsub : ¬ [l,c].Sublist (c :: r) := by
        intro h
        cases h with
        | cons _ h => exact hc (h.subset (by simp))
        | cons_cons _ _ => exact hwl rfl
      simp [hwl,hsub]
    · have hwr : w ∈ r := (List.mem_cons.mp hw).resolve_left fun e => hcw e.symm
      by_cases hcl : c = l
      · subst hcl
        simpa using hwr
      · have hcons : [l,w].Sublist (c :: r) ↔ [l,w].Sublist r := by
          refine ⟨?_,fun h => h.cons c⟩
          intro h
          cases h with
          | cons _ h => exact h
          | cons_cons _ _ => exact absurd rfl hcl
        rw [hcons,← ih hr hwr]
        simp [hcw,hcl]

theorem nebEffect_eq_contradiction_iff (ho : order.Nodup) (hw : w ∈ order) (hwl : w ≠ l) :
    nebEffect w l order = .contradiction ↔ (neb w l).Violates order := by
  have hfind := find?_eq_some_iff_sublist (l := l) (List.nodup_reverse.mpr ho) (List.mem_reverse.mpr hw) hwl
  have hrev : [l,w].Sublist order.reverse ↔ [w,l].Sublist order := by
    have h : [w,l].reverse.Sublist order.reverse ↔ [w,l].Sublist order := List.reverse_sublist
    simpa using h
  rw [Violates,← hrev,← hfind]
  unfold nebEffect
  cases hf : order.reverse.find? fun c => c = w ∨ c = l with
  | none => simp
  | some c =>
    have hc : c = w ∨ c = l := by simpa using List.find?_some hf
    rcases hc with rfl | rfl
    · simp [hwl]
    · simp [hwl.symm]

/-- A full window of a list without repetitions lists the continuing candidates unless it shows a stranger. -/
theorem perm_window (ho : order.Nodup) (hk : k.size ≤ order.length)
    (hsub : ∀ c ∈ window k.size order, c ∈ k) : (window k.size order).Perm k.members := by
  have hd : (window k.size order).Nodup := ho.sublist (List.drop_sublist _ _)
  have hlen : (window k.size order).length = k.size := by
    rw [window,List.length_drop]
    omega
  exact (hd.subperm hsub).perm_of_length_le (Nat.le_of_eq hlen.symm)

theorem window_append {gone later : Suffix} (h : later.Perm k.members) :
    window k.size (gone ++ later) = later := by
  have hl : (gone ++ later).length - k.size = gone.length := by
    rw [CandidateSet.size,← h.length_eq,List.length_append,Nat.add_sub_cancel]
  rw [window,hl,List.drop_left]

/-- With a full window the winner must not be the first of the continuing candidates. -/
theorem nenEffect_eq_contradiction_iff_window (hk : k.size ≤ order.length) :
    nenEffect w k order = .contradiction ↔
      (∀ c ∈ window k.size order, c ∈ k) ∧ (window k.size order).head? = some w := by
  simp only [nenEffect,hk,if_true]
  by_cases hall : ∀ c ∈ window k.size order, c ∈ k
  · rw [if_neg (by simpa using hall),and_iff_right hall]
    by_cases hhead : (window k.size order).head? = some w
    · simp [hhead]
    · simp [hhead]
  · rw [if_pos (by simpa using hall)]
    simp [hall]

theorem nenEffect_eq_contradiction_iff (ho : order.Nodup) (hk : k.size ≤ order.length) :
    nenEffect w k order = .contradiction ↔ (nen w l k).Violates order := by
  rw [nenEffect_eq_contradiction_iff_window hk,Violates]
  constructor
  · rintro ⟨hall,hhead⟩
    have hp := perm_window ho hk hall
    obtain ⟨later,hlater⟩ := List.head?_eq_some_iff.mp hhead
    rw [hlater] at hp
    refine ⟨order.take (order.length - k.size),later,?_,hp⟩
    rw [← hlater,window,List.take_append_drop]
  · rintro ⟨gone,later,rfl,hp⟩
    rw [window_append hp]
    exact ⟨fun c hc => hp.mem_iff.mp hc,rfl⟩

theorem effect_eq_contradiction_iff (ha : a.WellFormed n) (ho : IsOrder n order) :
    a.effect order = .contradiction ↔ a.Violates order := by
  obtain ⟨hr,hwl,_⟩ := ha
  cases a with
  | neb w l => exact nebEffect_eq_contradiction_iff ho.nodup (ho.mem_iff.mpr (hr w (by simp [mentioned]))) hwl
  | nen w l k =>
    have hk : ∀ c ∈ k.members, 0 ≤ c ∧ c < n := fun c hc => hr c (by simp [mentioned,hc])
    exact nenEffect_eq_contradiction_iff ho.nodup (size_le_length_of_isOrder ho hk)

/-! ## What a decided suffix says of its orders -/

theorem violates_of_effect (ha : a.WellFormed n) (ho : IsOrder n order) (hs : s <:+ order)
    (h : a.effect s = .contradiction) : a.Violates order := by
  apply (effect_eq_contradiction_iff ha ho).mp
  rw [effect_of_suffix ho.nodup hs (by simp [h]),h]

theorem not_violates_of_effect (ha : a.WellFormed n) (ho : IsOrder n order) (hs : s <:+ order)
    (h : a.effect s = .satisfied) : ¬ a.Violates order := by
  rw [← effect_eq_contradiction_iff ha ho,effect_of_suffix ho.nodup hs (by simp [h]),h]
  simp

/-- If a violated assertion does not contradict the tail of the order, it leaves the tail undetermined. -/
theorem effect_eq_undetermined_of_violates (ha : a.WellFormed n) (ho : IsOrder n order) (hs : s <:+ order)
    (hv : a.Violates order) (h : a.effect s ≠ .contradiction) : a.effect s = .undetermined := by
  cases he : a.effect s with
  | contradiction => exact absurd he h
  | satisfied => exact absurd hv (not_violates_of_effect ha ho hs he)
  | undetermined => rfl

end Assertion
end RunoffAudit
