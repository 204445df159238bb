import Mathlib.Data.List.Pairwise
import RunoffAudit.Proofs.Violation

/-! # The surviving suffixes of a list of assertions

Growing a suffix until a test holds cuts the orders that end in it into groups, one for each suffix
reached. Here the test is that the assertions are settled: one of them contradicts the suffix, or all are
satisfied. The suffixes of the second kind survive. They stand for exactly the orders that violate no
assertion, and both engines of the library are proved to list them.
-/
namespace RunoffAudit

/-- The shortest suffixes that end in `s` and pass the test, in the order of a depth-first search. -/
def cut (n : Int) (stop : Suffix → Bool) (s : Suffix) : List Suffix :=
  if stop s then [s] else (unplaced n s).attach.flatMap fun c => cut n stop (c.1 :: s)
termination_by (unplaced n s).length
decreasing_by exact length_unplaced_cons_lt c.2

section Cut
variable {n : Int} {stop stop' : Suffix → Bool} {s t order : Suffix} {c d : Candidate}

theorem cut_of_stop (h : stop s = true) : cut n stop s = [s] := by
  rw [cut,if_pos h]

theorem cut_of_not_stop (h : stop s = false) :
    cut n stop s = (unplaced n s).flatMap fun c => cut n stop (c :: s) := by
  have hf : ¬ stop s = true := by simp [h]
  rw [cut,if_neg hf]
  simp only [List.flatMap_def,List.map_attach_eq_pmap,List.pmap_eq_map]

theorem of_mem_cut (hs : Placed n s) (ht : t ∈ cut n stop s) : Placed n t ∧ s <:+ t ∧ stop t = true := by
  induction s using extend_induction (n := n) with
  | step s ih =>
    cases h : stop s with
    | true =>
      rw [cut_of_stop h,List.mem_singleton] at ht
      subst ht
      exact ⟨hs,List.suffix_refl _,h⟩
    | false =>
      rw [cut_of_not_stop h] at ht
      obtain ⟨c,hc,ht⟩ := List.mem_flatMap.mp ht
      obtain ⟨hp,hsuffix,hstop⟩ := ih c hc (hs.cons hc) ht
      exact ⟨hp,(List.suffix_cons c s).trans hsuffix,hstop⟩

theorem exists_mem_cut (ho : IsOrder n order) (hs : s <:+ order) (hstop : stop order = true) :
    ∃ t ∈ cut n stop s, t <:+ order := by
  induction s using extend_induction (n := n) with
  | step s ih =>
    cases h : stop s with
    | true => exact ⟨s,by simp [cut_of_stop h],hs⟩
    | false =>
      rcases ho.eq_or_cons_suffix hs with rfl | ⟨c,hc,hcs⟩
      · simp [hstop] at h
      · obtain ⟨t,ht,hto⟩ := ih c hc hcs
        rw [cut_of_not_stop h]
        exact ⟨t,List.mem_flatMap.mpr ⟨c,hc,ht⟩,hto⟩

/-- Tests that agree on all longer suffixes cut at the same places. -/
theorem cut_congr (hs : Placed n s) (h : ∀ t, Placed n t → s <:+ t → stop t = stop' t) :
    cut n stop s = cut n stop' s := by
  induction s using extend_induction (n := n) with
  | step s ih =>
    have hhere := h s hs (List.suffix_refl s)
    cases hstop : stop s with
    | true => rw [cut_of_stop hstop,cut_of_stop (hhere ▸ hstop)]
    | false =>
      rw [cut_of_not_stop hstop,cut_of_not_stop (hhere ▸ hstop)]
      apply List.flatMap_congr
      intro c hc
      exact ih c hc (hs.cons hc) fun t ht hct => h t ht ((List.suffix_cons c s).trans hct)

/-- An order has one next candidate, so it does not end in suffixes grown from different ones. -/
theorem eq_of_cons_suffix (hc : c :: s <:+ order) (hd : d :: s <:+ order) : c = d := by
  have h : c :: s <:+ d :: s := List.suffix_of_suffix_length_le hc hd (Nat.le_refl _)
  exact (List.cons.inj (h.eq_of_length rfl)).1

/-- No order ends in both suffixes. -/
def Apart (t u : Suffix) : Prop := ∀ order : Suffix, t <:+ order → ¬ u <:+ order

instance : Std.Symm Apart := ⟨fun _ _ h order hu ht => h order ht hu⟩

theorem nodup_of_apart {l : List Suffix} (h : l.Pairwise Apart) : l.Nodup := by
  apply h.imp
  rintro t u h rfl
  exact h t (List.suffix_refl t) (List.suffix_refl t)

theorem pairwise_apart_cut (hs : Placed n s) : (cut n stop s).Pairwise Apart := by
  induction s using extend_induction (n := n) with
  | step s ih =>
    cases hstop : stop s with
    | true =>
      rw [cut_of_stop hstop]
      exact List.pairwise_singleton _ _
    | false =>
      rw [cut_of_not_stop hstop]
      apply List.pairwise_flatMap.mpr
      refine ⟨fun c hc => ih c hc (hs.cons hc),?_⟩
      apply (nodup_unplaced n s).imp_of_mem
      intro c d hc hd hcd t ht u hu order hto huo
      have hct := (of_mem_cut (hs.cons hc) ht).2.1
      have hdu := (of_mem_cut (hs.cons hd) hu).2.1
      exact hcd (eq_of_cons_suffix (hct.trans hto) (hdu.trans huo))

theorem nodup_cut (hs : Placed n s) : (cut n stop s).Nodup := nodup_of_apart (pairwise_apart_cut hs)

/-- An order that passes the test is reached through exactly one suffix of the cut. -/
theorem existsUnique_mem_cut (ho : IsOrder n order) (hs : s <:+ order) (hstop : stop order = true) :
    ∃! t, t ∈ cut n stop s ∧ t <:+ order := by
  have hp := ho.placed.of_suffix hs
  obtain ⟨t,ht,hto⟩ := exists_mem_cut ho hs hstop
  refine ⟨t,⟨ht,hto⟩,?_⟩
  rintro u ⟨hu,huo⟩
  by_contra hne
  exact (pairwise_apart_cut hp).forall hu ht hne order huo hto

end Cut

def refuted (assertions : List Assertion) (s : Suffix) : Bool :=
  assertions.any fun a => a.effect s = .contradiction

def granted (assertions : List Assertion) (s : Suffix) : Bool :=
  assertions.all fun a => a.effect s = .satisfied

def settled (assertions : List Assertion) (s : Suffix) : Bool :=
  refuted assertions s || granted assertions s

/-- The shortest suffixes that end in `s` and satisfy all assertions. -/
def survivors (n : Int) (assertions : List Assertion) (s : Suffix) : List Suffix :=
  (cut n (settled assertions) s).filter (granted assertions)

variable {n : Int} {as bs : List Assertion} {a : Assertion} {s t order : Suffix}

@[simp] theorem refuted_eq_true_iff : refuted as s = true ↔ ∃ a ∈ as, a.effect s = .contradiction := by
  simp [refuted]

@[simp] theorem granted_eq_true_iff : granted as s = true ↔ ∀ a ∈ as, a.effect s = .satisfied := by
  simp [granted]

theorem granted_of_refuted (h : refuted as s = true) : granted as s = false := by
  obtain ⟨a,ha,he⟩ := refuted_eq_true_iff.mp h
  apply Bool.eq_false_iff.mpr
  intro hg
  rw [granted_eq_true_iff.mp hg a ha] at he
  cases he

theorem survivors_of_refuted (h : refuted as s = true) : survivors n as s = [] := by
  rw [survivors,cut_of_stop (by simp [settled,h])]
  simp [granted_of_refuted h]

theorem survivors_of_granted (h : granted as s = true) : survivors n as s = [s] := by
  rw [survivors,cut_of_stop (by simp [settled,h])]
  simp [h]

theorem survivors_of_open (hr : refuted as s = false) (hg : granted as s = false) :
    survivors n as s = (unplaced n s).flatMap fun c => survivors n as (c :: s) := by
  rw [survivors,cut_of_not_stop (by simp [settled,hr,hg]),List.filter_flatMap]
  rfl

theorem refuted_of_suffix (ht : t.Nodup) (hs : s <:+ t) (h : refuted as s = true) : refuted as t = true := by
  obtain ⟨a,ha,he⟩ := refuted_eq_true_iff.mp h
  exact refuted_eq_true_iff.mpr ⟨a,ha,by rw [Assertion.effect_of_suffix ht hs (by simp [he]),he]⟩

/-- A suffix that does not survive itself survives in its extensions, if at all. -/
theorem survivors_of_not_granted (hs : Placed n s) (hg : granted as s = false) :
    survivors n as s = (unplaced n s).flatMap fun c => survivors n as (c :: s) := by
  cases hr : refuted as s with
  | false => exact survivors_of_open hr hg
  | true =>
    rw [survivors_of_refuted hr]
    apply (List.flatMap_eq_nil_iff.mpr _).symm
    intro c hc
    exact survivors_of_refuted (refuted_of_suffix (hs.cons hc).nodup (List.suffix_cons c s) hr)

/-! ## Survivors and orders -/

theorem of_mem_survivors (hs : Placed n s) (ht : t ∈ survivors n as s) :
    Placed n t ∧ s <:+ t ∧ granted as t = true := by
  obtain ⟨hcut,hg⟩ := List.mem_filter.mp ht
  obtain ⟨hp,hsuffix,_⟩ := of_mem_cut hs hcut
  exact ⟨hp,hsuffix,hg⟩

theorem not_violates_of_granted (has : ∀ a ∈ as, a.WellFormed n) (h : granted as s = true)
    (ho : IsOrder n order) (hs : s <:+ order) : ∀ a ∈ as, ¬ a.Violates order := by
  intro a ha
  exact Assertion.not_violates_of_effect (has a ha) ho hs (granted_eq_true_iff.mp h a ha)

/-- Every order settles all assertions. -/
theorem granted_of_isOrder (has : ∀ a ∈ as, a.WellFormed n) (ho : IsOrder n order)
    (h : ∀ a ∈ as, ¬ a.Violates order) : granted as order = true := by
  apply granted_eq_true_iff.mpr
  intro a ha
  have hdecided := Assertion.effect_ne_undetermined_of_isOrder (has a ha) ho
  have hne : a.effect order ≠ .contradiction :=
    fun he => h a ha ((Assertion.effect_eq_contradiction_iff (has a ha) ho).mp he)
  cases he : a.effect order with
  | contradiction => exact absurd he hne
  | satisfied => rfl
  | undetermined => exact absurd he hdecided

/-- An order that violates nothing ends in a surviving suffix. -/
theorem exists_mem_survivors (has : ∀ a ∈ as, a.WellFormed n) (ho : IsOrder n order) (hs : s <:+ order)
    (h : ∀ a ∈ as, ¬ a.Violates order) : ∃ t ∈ survivors n as s, t <:+ order := by
  have hsettled : settled as order = true := by simp [settled,granted_of_isOrder has ho h]
  obtain ⟨t,ht,hto⟩ := exists_mem_cut ho hs hsettled
  refine ⟨t,List.mem_filter.mpr ⟨ht,?_⟩,hto⟩
  have hs' : Placed n s := ho.placed.of_suffix hs
  rcases Bool.or_eq_true_iff.mp (of_mem_cut hs' ht).2.2 with hr | hg
  · obtain ⟨a,ha,he⟩ := refuted_eq_true_iff.mp hr
    exact absurd (Assertion.violates_of_effect (has a ha) ho hto he) (h a ha)
  · exact hg

theorem survivors_ne_nil_iff (has : ∀ a ∈ as, a.WellFormed n) (hs : Placed n s) :
    survivors n as s ≠ [] ↔ ∃ order, IsOrder n order ∧ s <:+ order ∧ ∀ a ∈ as, ¬ a.Violates order := by
  constructor
  · intro h
    obtain ⟨t,ht⟩ := List.exists_mem_of_ne_nil _ h
    obtain ⟨hp,hsuffix,hg⟩ := of_mem_survivors hs ht
    obtain ⟨order,ho,hto⟩ := hp.exists_order
    exact ⟨order,ho,hsuffix.trans hto,not_violates_of_granted has hg ho hto⟩
  · rintro ⟨order,ho,hso,h⟩
    obtain ⟨t,ht,_⟩ := exists_mem_survivors has ho hso h
    exact List.ne_nil_of_mem ht

/-! ## Which assertions matter -/

/-- Lists of assertions that agree on all longer suffixes leave the same survivors. -/
theorem survivors_congr (hs : Placed n s)
    (h : ∀ t, Placed n t → s <:+ t → refuted as t = refuted bs t ∧ granted as t = granted bs t) :
    survivors n as s = survivors n bs s := by
  induction s using extend_induction (n := n) with
  | step s ih =>
    obtain ⟨hr,hg⟩ := h s hs (List.suffix_refl s)
    cases hra : refuted as s with
    | true => rw [survivors_of_refuted hra,survivors_of_refuted (hr ▸ hra)]
    | false =>
      cases hga : granted as s with
      | true => rw [survivors_of_granted hga,survivors_of_granted (hg ▸ hga)]
      | false =>
        rw [survivors_of_open hra hga,survivors_of_open (hr ▸ hra) (hg ▸ hga)]
        apply List.flatMap_congr
        intro c hc
        exact ih c hc (hs.cons hc) fun t hp hsuffix => h t hp ((List.suffix_cons c s).trans hsuffix)

theorem refuted_congr (h : ∀ a, a ∈ as ↔ a ∈ bs) : refuted as s = refuted bs s := by
  apply Bool.eq_iff_iff.mpr
  simp only [refuted_eq_true_iff,h]

theorem granted_congr (h : ∀ a, a ∈ as ↔ a ∈ bs) : granted as s = granted bs s := by
  apply Bool.eq_iff_iff.mpr
  simp only [granted_eq_true_iff,h]

/-- What survives depends neither on the order of the assertions nor on repetitions. -/
theorem survivors_congr_of_mem_iff (hs : Placed n s) (h : ∀ a, a ∈ as ↔ a ∈ bs) :
    survivors n as s = survivors n bs s :=
  survivors_congr hs fun _ _ _ => ⟨refuted_congr h,granted_congr h⟩

def undecided (assertions : List Assertion) (s : Suffix) : List Assertion :=
  assertions.filter fun a => a.effect s = .undetermined

theorem mem_undecided : a ∈ undecided as s ↔ a ∈ as ∧ a.effect s = .undetermined := by
  simp [undecided]

theorem satisfied_of_not_undecided (hr : refuted as s = false) (ha : a ∈ as) (hu : a ∉ undecided as s) :
    a.effect s = .satisfied := by
  have hu' : a.effect s ≠ .undetermined := fun he => hu (mem_undecided.mpr ⟨ha,he⟩)
  cases he : a.effect s with
  | contradiction =>
    have := refuted_eq_true_iff.mpr ⟨a,ha,he⟩
    simp [hr] at this
  | satisfied => rfl
  | undetermined => exact absurd he hu'

theorem settled_iff : settled as s = true ↔ refuted as s = true ∨ undecided as s = [] := by
  rw [settled,Bool.or_eq_true_iff]
  cases hr : refuted as s with
  | true => simp
  | false =>
    rw [granted_eq_true_iff,List.eq_nil_iff_forall_not_mem]
    constructor
    · rintro (h | h)
      · cases h
      · right
        intro a hu
        obtain ⟨ha,he⟩ := mem_undecided.mp hu
        rw [h a ha] at he
        cases he
    · rintro (h | h)
      · cases h
      · exact Or.inr fun a ha => satisfied_of_not_undecided hr ha (h a)

theorem settled_of_isOrder (has : ∀ a ∈ as, a.WellFormed n) (ho : IsOrder n order) : settled as order = true := by
  apply settled_iff.mpr
  right
  apply List.eq_nil_iff_forall_not_mem.mpr
  intro a hu
  obtain ⟨ha,he⟩ := mem_undecided.mp hu
  exact Assertion.effect_ne_undetermined_of_isOrder (has a ha) ho he

/-- Once a suffix contradicts nothing, only the undetermined assertions matter for longer ones. -/
theorem agree_undecided (hr : refuted as s = false) (hp : Placed n t) (hs : s <:+ t) :
    refuted as t = refuted (undecided as s) t ∧ granted as t = granted (undecided as s) t := by
  have hkept : ∀ a ∈ as, a ∉ undecided as s → a.effect t = .satisfied := by
    intro a ha hu
    have he := satisfied_of_not_undecided hr ha hu
    rw [Assertion.effect_of_suffix hp.nodup hs (by simp [he]),he]
  constructor
  · apply Bool.eq_iff_iff.mpr
    rw [refuted_eq_true_iff,refuted_eq_true_iff]
    constructor
    · rintro ⟨a,ha,he⟩
      refine ⟨a,?_,he⟩
      by_contra hu
      rw [hkept a ha hu] at he
      cases he
    · rintro ⟨a,ha,he⟩
      exact ⟨a,(mem_undecided.mp ha).1,he⟩
  · apply Bool.eq_iff_iff.mpr
    rw [granted_eq_true_iff,granted_eq_true_iff]
    constructor
    · intro h a ha
      exact h a (mem_undecided.mp ha).1
    · intro h a ha
      by_cases hu : a ∈ undecided as s
      · exact h a hu
      · exact hkept a ha hu

theorem survivors_undecided (hr : refuted as s = false) (ht : Placed n t) (hs : s <:+ t) :
    survivors n as t = survivors n (undecided as s) t :=
  survivors_congr ht fun _ hp hsuffix => agree_undecided hr hp (hs.trans hsuffix)

end RunoffAudit
