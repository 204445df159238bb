import RunoffAudit.Proofs.Faults
import RunoffAudit.Proofs.Violation
import RunoffAudit.Search.Unchecked

/-! # The effect on a suffix tells what becomes of its orders

An undetermined assertion is violated by some order that ends in the suffix. Nearly always one more candidate
can be placed so that the assertion is satisfied. The exception is an NEN about the round of all candidates
when only its winner is left to place: there is one order, which violates it, but the effect looks at no
candidate that is not placed. Apart from this case the effect says exactly what holds of all orders. Once decided,
the effect of any assertion that speaks of a round stays the same on longer suffixes.
-/
namespace RunoffAudit
namespace Assertion

variable {n : Int} {a : Assertion} {w l c : Candidate} {k : CandidateSet} {s t order : Suffix}

/-- The assertion speaks of the round of all candidates, and all of them but its winner are placed. -/
def OnlyWinnerLeft (n : Int) (a : Assertion) (s : Suffix) : Prop :=
  ∃ w l k, a = nen w l k ∧ (∀ c, c ∈ k ↔ 0 ≤ c ∧ c < n) ∧ ∀ c, c ∈ s ↔ (0 ≤ c ∧ c < n) ∧ c ≠ w

/-! ## Undetermined suffixes -/

theorem nebEffect_eq_undetermined_iff : nebEffect w l s = .undetermined ↔ w ∉ s ∧ l ∉ s := by
  have hnone : (s.reverse.find? fun c => c = w ∨ c = l) = none ↔ w ∉ s ∧ l ∉ s := by
    rw [List.find?_eq_none]
    simp only [List.mem_reverse,decide_eq_true_eq,not_or]
    constructor
    · intro h
      exact ⟨fun hw => (h w hw).1 rfl,fun hl => (h l hl).2 rfl⟩
    · rintro ⟨hw,hl⟩ c hc
      exact ⟨fun e => hw (e ▸ hc),fun e => hl (e ▸ hc)⟩
  rw [← hnone,nebEffect]
  cases s.reverse.find? fun c => c = w ∨ c = l with
  | none => simp
  | some c =>
    dsimp only
    split <;> simp

theorem nebEffect_cons_of_undetermined (h : nebEffect w l s = .undetermined) (hc : c = w ∨ c = l) :
    nebEffect w l (c :: s) = if c = w then .satisfied else .contradiction := by
  have hnone : (s.reverse.find? fun c => c = w ∨ c = l) = none := by
    obtain ⟨hw,hl⟩ := nebEffect_eq_undetermined_iff.mp h
    apply List.find?_eq_none.mpr
    intro d hd
    have hd := List.mem_reverse.mp hd
    simp only [decide_eq_true_eq,not_or]
    exact ⟨fun e => hw (e ▸ hd),fun e => hl (e ▸ hd)⟩
  have hfirst : ([c].find? fun c => c = w ∨ c = l) = some c := by simp [hc]
  rw [nebEffect,List.reverse_cons,List.find?_append,hnone,Option.none_or,hfirst]

theorem nenEffect_eq_undetermined_iff :
    nenEffect w k s = .undetermined ↔ s.length < k.size ∧ (∀ c ∈ s, c ∈ k) ∧ w ∉ s := by
  by_cases hk : k.size ≤ s.length
  · have hne := nenEffect_ne_undetermined (w := w) hk
    exact iff_of_false hne fun h => Nat.not_lt.mpr hk h.1
  · have hs : window k.size s = s := window_of_length_le (Nat.le_of_not_le hk)
    simp only [nenEffect,hs,hk,if_false,Nat.lt_of_not_le hk,true_and]
    by_cases hall : ∀ c ∈ s, c ∈ k
    · rw [if_neg (by simpa using hall),and_iff_right hall]
      by_cases hw : w ∈ s <;> simp [hw]
    · rw [if_pos (by simpa using hall)]
      simp [hall]

theorem nenEffect_cons_stranger (hk : s.length < k.size) (hc : c ∉ k) : nenEffect w k (c :: s) = .satisfied := by
  have hwindow : window k.size (c :: s) = c :: s := window_of_length_le hk
  have hstranger : (c :: s).any (fun x => decide (x ∉ k)) = true := by simp [hc]
  rw [nenEffect,hwindow,if_pos hstranger]

theorem nenEffect_cons_winner (hk : s.length + 1 < k.size) : nenEffect w k (w :: s) = .satisfied := by
  have hshort : ¬ k.size ≤ (w :: s).length := Nat.not_le.mpr hk
  rw [nenEffect,if_neg hshort,if_pos List.mem_cons_self]
  split <;> rfl

/-! ## What an undetermined assertion leaves open -/

theorem WellFormed.continuing (ha : (nen w l k).WellFormed n) : ∀ c ∈ k, 0 ≤ c ∧ c < n :=
  fun c hc => ha.1 c (List.mem_cons_of_mem w (List.mem_cons_of_mem l hc))

/-- The other continuing candidates in front of the suffix, and the winner in front of them. -/
theorem nen_violates_of_undetermined (hs : Placed n s) (hk : ∀ c ∈ k, 0 ≤ c ∧ c < n) (hw : w ∈ k)
    (h : nenEffect w k s = .undetermined) :
    ∃ order, IsOrder n order ∧ s <:+ order ∧ (nen w l k).Violates order := by
  obtain ⟨_,hall,hws⟩ := nenEffect_eq_undetermined_iff.mp h
  let others := k.members.filter fun c => c ∉ s ∧ c ≠ w
  have hothers : ∀ c, c ∈ others ↔ c ∈ k ∧ c ∉ s ∧ c ≠ w := by
    intro c
    rw [List.mem_filter,decide_eq_true_iff]
    rfl
  have hnodup : (w :: (others ++ s)).Nodup := by
    have hdisjoint : List.Disjoint others s := fun c hc => ((hothers c).mp hc).2.1
    have hrest := ((nodup_members k).filter _).append hs.nodup hdisjoint
    refine List.nodup_cons.mpr ⟨?_,hrest⟩
    rw [List.mem_append]
    rintro (hw | hw)
    · exact ((hothers w).mp hw).2.2 rfl
    · exact hws hw
  have hmem : ∀ c, c ∈ w :: (others ++ s) ↔ c ∈ k := by
    intro c
    rw [List.mem_cons,List.mem_append,hothers]
    constructor
    · rintro (rfl | ⟨hc,_⟩ | hc)
      · exact hw
      · exact hc
      · exact hall c hc
    · intro hc
      by_cases hcw : c = w
      · exact Or.inl hcw
      · by_cases hcs : c ∈ s
        · exact Or.inr (Or.inr hcs)
        · exact Or.inr (Or.inl ⟨hc,hcs,hcw⟩)
  have hplaced : Placed n (w :: (others ++ s)) := ⟨hnodup,fun c hc => hk c ((hmem c).mp hc)⟩
  obtain ⟨_,ho,gone,rfl⟩ := hplaced.exists_order
  refine ⟨_,ho,?_,gone,others ++ s,rfl,?_⟩
  · exact (List.suffix_append others s).trans ((List.suffix_cons w _).trans (List.suffix_append gone _))
  · exact (List.perm_ext_iff_of_nodup hnodup (nodup_members k)).mpr hmem

/-- What is undetermined may come to a violation. -/
theorem exists_violates_of_undetermined (ha : a.WellFormed n) (hs : Placed n s) (h : a.effect s = .undetermined) :
    ∃ order, IsOrder n order ∧ s <:+ order ∧ a.Violates order := by
  cases a with
  | neb w l =>
    have hwl : w ≠ l := ha.2.1
    have hl : l ∈ unplaced n s :=
      mem_unplaced.mpr ⟨ha.1 l (by simp [mentioned]),(nebEffect_eq_undetermined_iff.mp h).2⟩
    have hcontradiction : (neb w l).effect (l :: s) = .contradiction := by
      rw [effect,nebEffect_cons_of_undetermined h (Or.inr rfl),if_neg hwl.symm]
    obtain ⟨order,ho,hso⟩ := (hs.cons hl).exists_order
    exact ⟨order,ho,(List.suffix_cons l s).trans hso,violates_of_effect ha ho hso hcontradiction⟩
  | nen w l k => exact nen_violates_of_undetermined hs ha.continuing ha.2.2.1 h

/-- One more candidate satisfies an undetermined assertion, unless all but its winner have been placed. -/
theorem exists_satisfied_cons (ha : a.WellFormed n) (hs : Placed n s) (h : a.effect s = .undetermined)
    (hlast : ¬ a.OnlyWinnerLeft n s) : ∃ c ∈ unplaced n s, a.effect (c :: s) = .satisfied := by
  cases a with
  | neb w l =>
    refine ⟨w,mem_unplaced.mpr ⟨ha.1 w (by simp [mentioned]),(nebEffect_eq_undetermined_iff.mp h).1⟩,?_⟩
    rw [effect,nebEffect_cons_of_undetermined h (Or.inl rfl),if_pos rfl]
  | nen w l k =>
    obtain ⟨hshort,hall,hws⟩ := nenEffect_eq_undetermined_iff.mp h
    by_cases hstranger : ∃ c, (0 ≤ c ∧ c < n) ∧ c ∉ k
    · obtain ⟨c,hcn,hck⟩ := hstranger
      exact ⟨c,mem_unplaced.mpr ⟨hcn,fun hcs => hck (hall c hcs)⟩,nenEffect_cons_stranger hshort hck⟩
    · have hk : ∀ c, c ∈ k ↔ 0 ≤ c ∧ c < n := by
        intro c
        refine ⟨ha.continuing c,?_⟩
        intro hcn
        by_contra hck
        exact hstranger ⟨c,hcn,hck⟩
      -- somebody else is open, so the round is not reached when the winner is placed
      have hopen : ∃ d ∈ k, d ∉ s ∧ d ≠ w := by
        by_contra hnone
        refine hlast ⟨w,l,k,rfl,hk,?_⟩
        intro c
        constructor
        · intro hcs
          exact ⟨hs.inContest c hcs,fun e => hws (e ▸ hcs)⟩
        · rintro ⟨hcn,hcw⟩
          by_contra hcs
          exact hnone ⟨c,(hk c).mpr hcn,hcs,hcw⟩
      obtain ⟨d,hdk,hds,hdw⟩ := hopen
      have hlong : s.length + 1 < k.size := by
        have hnodup : (d :: w :: s).Nodup := by simp [hdw,hds,hws,hs.nodup]
        have hsub : d :: w :: s ⊆ k.members := List.cons_subset.mpr ⟨hdk,List.cons_subset.mpr ⟨ha.2.2.1,hall⟩⟩
        exact (hnodup.subperm hsub).length_le
      exact ⟨w,mem_unplaced.mpr ⟨ha.1 w (by simp [mentioned]),hws⟩,nenEffect_cons_winner hlong⟩

/-! ## The exception -/

theorem OnlyWinnerLeft.effect_eq (ha : a.WellFormed n) (hs : Placed n s) (hlast : a.OnlyWinnerLeft n s) :
    a.effect s = .undetermined := by
  obtain ⟨w,l,k,rfl,hk,hplaced⟩ := hlast
  have hws : w ∉ s := fun hw => ((hplaced w).mp hw).2 rfl
  have hall : ∀ c ∈ s, c ∈ k := fun c hc => (hk c).mpr ((hplaced c).mp hc).1
  have hsub : w :: s ⊆ k.members := List.cons_subset.mpr ⟨ha.2.2.1,hall⟩
  have hlength := ((List.nodup_cons.mpr ⟨hws,hs.nodup⟩).subperm hsub).length_le
  exact nenEffect_eq_undetermined_iff.mpr ⟨hlength,hall,hws⟩

theorem OnlyWinnerLeft.violates (ha : a.WellFormed n) (hlast : a.OnlyWinnerLeft n s) (ho : IsOrder n order)
    (hso : s <:+ order) : a.Violates order := by
  obtain ⟨w,l,k,rfl,hk,hplaced⟩ := hlast
  have hw : 0 ≤ w ∧ w < n := ha.1 w (by simp [mentioned])
  have hws : w ∉ s := fun hmem => ((hplaced w).mp hmem).2 rfl
  have hcons : w :: s <:+ order := by
    rcases ho.eq_or_cons_suffix hso with rfl | ⟨c,hc,hcs⟩
    · exact absurd (ho.mem_iff.mpr hw) hws
    · obtain ⟨hcn,hcs'⟩ := mem_unplaced.mp hc
      have hcw : c = w := by
        by_contra hcw
        exact hcs' ((hplaced c).mpr ⟨hcn,hcw⟩)
      exact hcw ▸ hcs
  obtain ⟨gone,rfl⟩ := hcons
  refine ⟨gone,s,rfl,?_⟩
  apply (List.perm_ext_iff_of_nodup (ho.placed.of_suffix (List.suffix_append _ _)).nodup (nodup_members k)).mpr
  intro c
  have hmem : c ∈ k.members ↔ 0 ≤ c ∧ c < n := hk c
  rw [List.mem_cons,hplaced,hmem]
  constructor
  · rintro (rfl | ⟨hc,_⟩)
    · exact hw
    · exact hc
  · intro hc
    by_cases hcw : c = w
    · exact Or.inl hcw
    · exact Or.inr ⟨hc,hcw⟩

/-! ## Exactness -/

theorem effect_eq_satisfied_iff (ha : a.WellFormed n) (hs : Placed n s) :
    a.effect s = .satisfied ↔ ∀ order, IsOrder n order → s <:+ order → ¬ a.Violates order := by
  refine ⟨fun h order ho hso => not_violates_of_effect ha ho hso h,?_⟩
  intro hnone
  cases h : a.effect s with
  | contradiction =>
    obtain ⟨order,ho,hso⟩ := hs.exists_order
    exact absurd (violates_of_effect ha ho hso h) (hnone order ho hso)
  | satisfied => rfl
  | undetermined =>
    obtain ⟨order,ho,hso,hv⟩ := exists_violates_of_undetermined ha hs h
    exact absurd hv (hnone order ho hso)

theorem contradiction_or_onlyWinnerLeft_iff (ha : a.WellFormed n) (hs : Placed n s) :
    a.effect s = .contradiction ∨ a.OnlyWinnerLeft n s ↔
      ∀ order, IsOrder n order → s <:+ order → a.Violates order := by
  constructor
  · rintro (h | hlast) order ho hso
    · exact violates_of_effect ha ho hso h
    · exact hlast.violates ha ho hso
  · intro hall
    cases h : a.effect s with
    | contradiction => exact Or.inl rfl
    | satisfied =>
      obtain ⟨order,ho,hso⟩ := hs.exists_order
      exact absurd (hall order ho hso) (not_violates_of_effect ha ho hso h)
    | undetermined =>
      right
      by_contra hlast
      obtain ⟨c,hc,hcs⟩ := exists_satisfied_cons ha hs h hlast
      obtain ⟨order,ho,hso⟩ := (hs.cons hc).exists_order
      exact not_violates_of_effect ha ho hso hcs (hall order ho ((List.suffix_cons c s).trans hso))

theorem checkedEffect_of_hasRound (ha : a.hasRound = true) (s : Suffix) : a.checkedEffect s = .ok (a.effect s) :=
  if_pos ha

theorem checkedEffect_eq (ha : a.WellFormed n) (s : Suffix) : a.checkedEffect s = .ok (a.effect s) := by
  apply checkedEffect_of_hasRound
  cases a with
  | neb w l => rfl
  | nen w l k =>
    have hne : k.members ≠ [] := List.ne_nil_of_mem ha.2.2.1
    simpa [hasRound] using hne

/-- The candidate that an NEN looks at first is always there once its round can be reached. -/
theorem exists_head?_window (ha : (nen w l k).WellFormed n) (hk : k.size ≤ s.length) :
    ∃ c, s[s.length - k.size]? = some c ∧ (window k.size s).head? = some c := by
  have hpos : 0 < k.size := List.length_pos_of_mem ha.2.2.1
  have hlt : s.length - k.size < s.length := by omega
  exact ⟨_,List.getElem?_eq_getElem hlt,by rw [window,List.head?_drop,List.getElem?_eq_getElem hlt]⟩

/-- The effect of a well-formed assertion on a suffix is exact. It is satisfied exactly if no order that ends in the
suffix violates the assertion, and contradicted exactly if all do, apart from one exception, in which the
assertion stays undetermined. A full order is decided, and no look at the round of an NEN goes past the suffix. -/
theorem effect_exact (ha : a.WellFormed n) (hs : Placed n s) :
    (a.effect s = .satisfied ↔ ∀ order, IsOrder n order → s <:+ order → ¬ a.Violates order) ∧
    (a.effect s = .contradiction → ∀ order, IsOrder n order → s <:+ order → a.Violates order) ∧
    ((∀ order, IsOrder n order → s <:+ order → a.Violates order) →
      a.effect s = .contradiction ∨ a.OnlyWinnerLeft n s) ∧
    (a.OnlyWinnerLeft n s →
      (∀ order, IsOrder n order → s <:+ order → a.Violates order) ∧ a.effect s = .undetermined) ∧
    (IsOrder n s → a.effect s ≠ .undetermined) ∧
    a.checkedEffect s = .ok (a.effect s) ∧
    ∀ w l k, a = nen w l k → k.size ≤ s.length →
      ∃ c, s[s.length - k.size]? = some c ∧ (window k.size s).head? = some c := by
  have hall := contradiction_or_onlyWinnerLeft_iff ha hs
  refine ⟨effect_eq_satisfied_iff ha hs,fun h => hall.mp (Or.inl h),hall.mpr,?_,
    effect_ne_undetermined_of_isOrder ha,checkedEffect_eq ha s,?_⟩
  · intro hlast
    exact ⟨hall.mp (Or.inr hlast),hlast.effect_eq ha hs⟩
  · rintro w l k rfl hk
    exact exists_head?_window ha hk

/-- The one order that ends in the suffix violates the assertion, which is still undetermined. -/
theorem effect_exact_onlyWinnerLeft :
    (nen 0 1 (.ofList [0,1,2])).WellFormed 3 ∧ Placed 3 [2,1] ∧
    (nen 0 1 (.ofList [0,1,2])).effect [2,1] = .undetermined ∧
    ((nen 0 1 (.ofList [0,1,2])).effect [2,1] = .satisfied ↔
      ∀ order, IsOrder 3 order → [2,1] <:+ order → ¬ (nen 0 1 (.ofList [0,1,2])).Violates order) ∧
    ∀ order, IsOrder 3 order → [2,1] <:+ order → (nen 0 1 (.ofList [0,1,2])).Violates order := by
  have ha : (nen 0 1 (.ofList [0,1,2])).WellFormed 3 := by decide
  have hs : Placed 3 [2,1] := ⟨by decide,by decide⟩
  have hlast : (nen 0 1 (.ofList [0,1,2])).OnlyWinnerLeft 3 [2,1] := by
    refine ⟨0,1,_,rfl,?_,?_⟩
    · intro c
      rw [CandidateSet.mem_ofList]
      grind
    · grind
  obtain ⟨hsatisfied,_,_,hexception,_⟩ := effect_exact ha hs
  exact ⟨ha,hs,(hexception hlast).2,hsatisfied,(hexception hlast).1⟩

/-! ## Decisions of any assertion are kept -/

/-- What an assertion that speaks of a round decides on a suffix, it decides on every longer one, whoever is placed
in front. The assertion need not be well-formed, and its candidates need not be there. -/
theorem decision_kept (ha : a.hasRound = true) (hs : s.Nodup) (ht : t.Nodup) (hst : ∀ c ∈ t, c ∉ s) :
    ∃ e, a.checkedEffect s = .ok e ∧
      (e = .contradiction ∨ e = .satisfied → a.checkedEffect (t ++ s) = .ok e) := by
  refine ⟨a.effect s,checkedEffect_of_hasRound ha s,?_⟩
  intro hdecided
  have hne : a.effect s ≠ .undetermined := by
    intro h
    rw [h] at hdecided
    simp at hdecided
  have hd : (t ++ s).Nodup := List.nodup_append.mpr ⟨ht,hs,fun c hc d hd e => hst c hc (e ▸ hd)⟩
  rw [checkedEffect_of_hasRound ha,effect_append hd hne]

/-- With the winner placed the short suffix is satisfied; the full window then agrees, although its first candidate
is somebody whom no contest has. -/
theorem decision_kept_placedWinner :
    (nen 2 2 (.ofList [-1,2,9])).hasRound = true ∧ [(2 : Candidate)].Nodup ∧ [(-1 : Candidate),9].Nodup ∧
    (∀ c ∈ [(-1 : Candidate),9], c ∉ [2]) ∧
    ∃ e, (nen 2 2 (.ofList [-1,2,9])).checkedEffect [2] = .ok e ∧ e = .satisfied ∧
      (nen 2 2 (.ofList [-1,2,9])).checkedEffect [-1,9,2] = .ok e := by
  have ha : (nen 2 2 (.ofList [-1,2,9])).hasRound = true := by decide
  have hs : [(2 : Candidate)].Nodup := by decide
  have ht : [(-1 : Candidate),9].Nodup := by decide
  have hst : ∀ c ∈ [(-1 : Candidate),9], c ∉ [2] := by decide
  obtain ⟨e,he,hkept⟩ := decision_kept ha hs ht hst
  obtain rfl : .satisfied = e := Except.ok.inj he
  exact ⟨ha,hs,ht,hst,_,he,rfl,hkept (Or.inr rfl)⟩

/-- A candidate who is placed twice can turn a decision round. -/
example : (nen 2 1 (.ofList [1,2])).effect [2] = .satisfied ∧
    (nen 2 1 (.ofList [1,2])).effect [2,2] = .contradiction := by decide

end Assertion
end RunoffAudit
