import Mathlib.Data.Set.Card
import RunoffAudit.Proofs.AllowedOrders
import RunoffAudit.Proofs.ExactDoubles
import RunoffAudit.Proofs.ExplanationSteps
import RunoffAudit.Proofs.PruningOrder

/-! # The rounds of the order by pruning power

As long as the weights count exactly, the gain of an assertion is the number of elimination orders that it rules
out: a suffix weighs as much as the suffixes that its expansion divides it into, so what is left over are the
orders of the contradicted ones. The first assertion of greatest gain is the one that is listed next.
-/
namespace RunoffAudit
open Metered
open scoped Nat

/-! ## Weights that count -/

/-- Below a bound the weights are counts: the weighing computes with them as with whole numbers. -/
structure Weighing.CountsBelow {W : Type} (u : Weighing W) (count : Nat → W) (bound : Nat) : Prop where
  zero : u.zero = count 0
  one : u.one = count 1
  scale : ∀ {j k}, j < bound → k < bound → j * k < bound → u.scale j (count k) = count (j * k)
  add : ∀ {j k}, j + k < bound → u.add (count j) (count k) = count (j + k)
  sub : ∀ {j k}, k ≤ j → j < bound → u.sub (count j) (count k) = count (j - k)
  exceeds : ∀ {j k}, j < bound → k < bound → u.exceeds (count j) (count k) = decide (k < j)

theorem Weighing.exact_countsBelow (bound : Nat) : exact.CountsBelow (fun k => (k : Int)) bound where
  zero := rfl
  one := rfl
  scale _ _ _ := (Int.natCast_mul _ _).symm
  add _ := (Int.natCast_add _ _).symm
  sub h _ := (Int.natCast_sub h).symm
  exceeds _ _ := decide_eq_decide.mpr Int.ofNat_lt

/-- Doubles count exactly as far as they have digits. -/
theorem Weighing.doubles_countsBelow : doubles.CountsBelow Float.ofNat (2 ^ 53) where
  zero := rfl
  one := rfl
  scale hj hk h := Binary64.ofNat_mul hj hk h
  add h := Binary64.ofNat_add h
  sub hle h := Binary64.ofNat_sub hle h
  exceeds hj hk := decide_eq_decide.mpr (Binary64.ofNat_lt hk hj)

/-! ## What an assertion rules out of a frontier -/

variable {n : Int} {a : Assertion} {s t order : Suffix} {frontier : List Suffix}

def ruledOut (n : Int) (a : Assertion) (frontier : List Suffix) : Set Suffix :=
  {order | IsOrder n order ∧ (∃ s ∈ frontier, s <:+ order) ∧ a.Violates order}

def violators (n : Int) (a : Assertion) (s : Suffix) : List Suffix :=
  (completions n s).filter fun order => a.effect order = .contradiction

theorem mem_violators_iff (ha : a.WellFormed n) (hs : Placed n s) :
    order ∈ violators n a s ↔ IsOrder n order ∧ s <:+ order ∧ a.Violates order := by
  rw [violators,List.mem_filter,mem_completions_iff hs,decide_eq_true_iff,and_assoc]
  apply and_congr_right
  intro ho
  rw [Assertion.effect_eq_contradiction_iff ha ho]

/-- What the expansion of a suffix leaves and what it removes add up to the weight of the suffix. -/
theorem sum_factorial_survivors_add (ha : a.WellFormed n) (hs : Placed n s) :
    ((survivors n [a] s).map fun t => (n.toNat - t.length)!).sum + (violators n a s).length =
      (n.toNat - s.length)! := by
  have hkept : ((survivors n [a] s).map fun t => (n.toNat - t.length)!).sum =
      ((completions n s).filter fun order => !decide (a.effect order = .contradiction)).length := by
    apply sum_factorial_of_apart (fun t ht => (of_mem_survivors hs ht).1) (pairwise_apart_survivors hs)
      ((nodup_completions n s).filter _)
    intro order
    rw [List.mem_filter,mem_completions_iff hs,Bool.not_eq_true',decide_eq_false_iff_not,and_assoc]
    apply and_congr_right
    intro ho
    rw [Assertion.effect_eq_contradiction_iff ha ho]
    constructor
    · rintro ⟨hso,hv⟩
      exact exists_mem_survivors (by simpa using ha) ho hso (by simpa using hv)
    · rintro ⟨t,ht,hto⟩
      obtain ⟨_,hst,hg⟩ := of_mem_survivors hs ht
      exact ⟨hst.trans hto,not_violates_of_granted (by simpa using ha) hg ho hto a List.mem_cons_self⟩
  rw [hkept,violators,← length_completions hs,Nat.add_comm]
  exact (List.length_eq_length_filter_add _).symm

theorem ncard_ruledOut (ha : a.WellFormed n) (hf : IsFrontier n frontier) :
    (ruledOut n a frontier).ncard = (frontier.map fun s => (violators n a s).length).sum := by
  have hmem : ∀ order, order ∈ ruledOut n a frontier ↔ order ∈ (frontier.flatMap (violators n a)).toFinset := by
    intro order
    rw [List.mem_toFinset,List.mem_flatMap]
    constructor
    · rintro ⟨ho,⟨s,hs,hso⟩,hv⟩
      exact ⟨s,hs,(mem_violators_iff ha (hf.placed s hs)).mpr ⟨ho,hso,hv⟩⟩
    · rintro ⟨s,hs,horder⟩
      obtain ⟨ho,hso,hv⟩ := (mem_violators_iff ha (hf.placed s hs)).mp horder
      exact ⟨ho,⟨s,hs,hso⟩,hv⟩
  have hnodup : (frontier.flatMap (violators n a)).Nodup := by
    apply List.nodup_flatMap.mpr
    refine ⟨fun s _ => (nodup_completions n s).filter _,?_⟩
    apply hf.apart.imp_of_mem
    intro s t hs ht hapart order hso hto
    exact hapart order ((mem_violators_iff ha (hf.placed s hs)).mp hso).2.1
      ((mem_violators_iff ha (hf.placed t ht)).mp hto).2.1
  rw [Set.ext hmem,Set.ncard_coe_finset,List.toFinset_card_of_nodup hnodup,List.length_flatMap]

/-- A frontier weighs no more than all orders together. -/
theorem IsFrontier.sum_factorial_le (hf : IsFrontier n frontier) :
    (frontier.map fun s => (n.toNat - s.length)!).sum ≤ n.toNat ! := by
  let orders := (completions n []).filter fun order => ∃ s ∈ frontier, s <:+ order
  have hmem : ∀ order, order ∈ orders ↔ IsOrder n order ∧ ∃ s ∈ frontier, s <:+ order := by
    intro order
    rw [List.mem_filter,mem_completions_iff (placed_nil n),decide_eq_true_iff]
    exact and_congr_left fun _ => and_iff_left List.nil_suffix
  calc (frontier.map fun s => (n.toNat - s.length)!).sum
    _ = orders.length := sum_factorial_of_apart hf.placed hf.apart ((nodup_completions n []).filter _) hmem
    _ ≤ (completions n []).length := List.length_filter_le _ _
    _ = n.toNat ! := length_completions (placed_nil n)

/-! ## One round -/

section Round
variable {W : Type} {u : Weighing W} {count : Nat → W} {bound : Nat} {carried : List Numbered}

theorem suffixWeights_getElem? (hu : u.CountsBelow count bound) {k : Nat} (hk : k ! < bound) {i : Nat} (hi : i ≤ k) :
    (suffixWeights u k)[i]? = some (count (k - i)!) := by
  induction k generalizing i with
  | zero =>
    obtain rfl : i = 0 := Nat.le_zero.mp hi
    exact congrArg some hu.one
  | succ k ih =>
    have hshorter : k ! < bound := Nat.lt_of_le_of_lt (Nat.factorial_le (Nat.le_succ k)) hk
    rw [suffixWeights]
    cases i with
    | zero =>
      have hhead : (suffixWeights u k).headD u.one = count k ! := by
        have hzero := ih hshorter (Nat.zero_le k)
        rw [← List.head?_eq_getElem?] at hzero
        rw [List.headD_eq_head?_getD,hzero]
        rfl
      have hfactor : k + 1 < bound := Nat.lt_of_le_of_lt (Nat.self_le_factorial (k + 1)) hk
      rw [hhead,hu.scale hfactor hshorter (by rwa [← Nat.factorial_succ])]
      rfl
    | succ i =>
      rw [List.getElem?_cons_succ,ih hshorter (Nat.le_of_succ_le_succ hi),Nat.add_sub_add_right]

theorem weight_eq (hu : u.CountsBelow count bound) (hn : n.toNat ! < bound) (hs : Placed n s) :
    (suffixWeights u n.toNat).getD s.length u.zero = count (n.toNat - s.length)! := by
  rw [List.getD_eq_getElem?_getD,suffixWeights_getElem? hu hn hs.length_le]
  rfl

theorem foldl_sub_eq (hu : u.CountsBelow count bound) (hn : n.toNat ! < bound) {left : List Suffix}
    (hleft : ∀ t ∈ left, Placed n t) {g : Nat} (hg : g < bound)
    (hsum : (left.map fun t => (n.toNat - t.length)!).sum ≤ g) :
    left.foldl (fun g t => u.sub g ((suffixWeights u n.toNat).getD t.length u.zero)) (count g) =
      count (g - (left.map fun t => (n.toNat - t.length)!).sum) := by
  induction left generalizing g with
  | nil => rfl
  | cons t rest ih =>
    rw [List.map_cons,List.sum_cons] at hsum
    rw [List.foldl_cons,weight_eq hu hn (hleft t List.mem_cons_self),hu.sub (by omega) hg,
      ih (fun t' ht' => hleft t' (List.mem_cons_of_mem t ht')) (by omega) (by omega),List.map_cons,List.sum_cons,
      Nat.sub_sub]

/-- The running value never exceeds the weight of the frontier, so each step counts exactly. -/
theorem weighRemoved_counts (hu : u.CountsBelow count bound) (hn : n.toNat ! < bound) (ha : a.WellFormed n)
    (hf : ∀ s ∈ frontier, Placed n s) {g : Nat}
    (hg : g + (frontier.map fun s => (n.toNat - s.length)!).sum < bound) :
    (weighRemoved u (suffixWeights u n.toNat) n a frontier (count g)).Returns
      (count (g + (frontier.map fun s => (violators n a s).length).sum)) := by
  induction frontier generalizing g with
  | nil => exact returns_pure _
  | cons s rest ih =>
    have hs := hf s List.mem_cons_self
    have hadd := sum_factorial_survivors_add ha hs
    rw [List.map_cons,List.sum_cons] at hg
    have hleft : ∀ t ∈ survivors n [a] s, Placed n t := fun t ht => (of_mem_survivors hs ht).1
    have hgain : (survivors n [a] s).foldl (fun g t => u.sub g ((suffixWeights u n.toNat).getD t.length u.zero))
        (u.add (count g) ((suffixWeights u n.toNat).getD s.length u.zero)) =
        count (g + (violators n a s).length) := by
      rw [weight_eq hu hn hs,hu.add (by omega),foldl_sub_eq hu hn hleft (by omega) (by omega)]
      congr 1
      omega
    have hrest := ih (fun t ht => hf t (List.mem_cons_of_mem s ht)) (g := g + (violators n a s).length) (by omega)
    have hexpanded := expand_returns false ha hs
    rw [expansion_false] at hexpanded
    rw [weighRemoved,List.map_cons,List.sum_cons,← Nat.add_assoc]
    rw [← hgain] at hrest
    exact hexpanded.bind hrest

theorem weighRemoved_ncard (hu : u.CountsBelow count bound) (hn : n.toNat ! < bound) (ha : a.WellFormed n)
    (hf : IsFrontier n frontier) :
    (weighRemoved u (suffixWeights u n.toNat) n a frontier u.zero).Returns
      (count (ruledOut n a frontier).ncard) := by
  have hsum : 0 + (frontier.map fun s => (n.toNat - s.length)!).sum < bound := by
    rw [Nat.zero_add]
    exact Nat.lt_of_le_of_lt hf.sum_factorial_le hn
  have h := weighRemoved_counts hu hn ha hf.placed hsum
  rwa [Nat.zero_add,← ncard_ruledOut ha hf,← hu.zero] at h

theorem ncard_ruledOut_le (ha : a.WellFormed n) (hf : IsFrontier n frontier) :
    (ruledOut n a frontier).ncard ≤ n.toNat ! := by
  rw [ncard_ruledOut ha hf]
  refine Nat.le_trans (List.sum_le_sum fun s hs => ?_) hf.sum_factorial_le
  rw [← sum_factorial_survivors_add ha (hf.placed s hs)]
  exact Nat.le_add_left _ _

def IsFirstGreatest (f : Numbered → Nat) (l : List Numbered) (y : Numbered) : Prop :=
  ∃ before after, l = before ++ y :: after ∧ (∀ x ∈ before, f x < f y) ∧ ∀ x ∈ after, f x ≤ f y

namespace IsFirstGreatest
variable {f : Numbered → Nat} {l : List Numbered} {x y : Numbered}

theorem head (h : ∀ z ∈ l, f z ≤ f x) : IsFirstGreatest f (x :: l) x := ⟨[],l,rfl,by simp,h⟩

theorem cons (hx : f x < f y) (h : IsFirstGreatest f l y) : IsFirstGreatest f (x :: l) y := by
  obtain ⟨before,after,rfl,hbefore,hafter⟩ := h
  exact ⟨x :: before,after,rfl,List.forall_mem_cons.mpr ⟨hx,hbefore⟩,hafter⟩

theorem mem (h : IsFirstGreatest f l y) : y ∈ l := by
  obtain ⟨before,after,rfl,_,_⟩ := h
  simp

theorem le (h : IsFirstGreatest f l y) (hx : x ∈ l) : f x ≤ f y := by
  obtain ⟨before,after,rfl,hbefore,hafter⟩ := h
  rcases List.mem_append.mp hx with hx | hx
  · exact Nat.le_of_lt (hbefore x hx)
  · rcases List.mem_cons.mp hx with rfl | hx
    · exact Nat.le_refl _
    · exact hafter x hx

/-- In a list by ascending positions no other element of the same number stands at an earlier position. -/
theorem snd_le (h : IsFirstGreatest f l y) (hl : l.Pairwise fun x y => x.2 < y.2) (hx : x ∈ l) (heq : f x = f y) :
    y.2 ≤ x.2 := by
  obtain ⟨before,after,rfl,hbefore,hafter⟩ := h
  rcases List.mem_append.mp hx with hx | hx
  · exact absurd heq (Nat.ne_of_lt (hbefore x hx))
  · rcases List.mem_cons.mp hx with rfl | hx
    · exact Nat.le_refl _
    · exact Nat.le_of_lt (List.rel_of_pairwise_cons (List.pairwise_append.mp hl).2.1 hx)

theorem eq (h : IsFirstGreatest f l x) (h' : IsFirstGreatest f l y) : x = y := by
  have hle := h.le h'.mem
  have hle' := h'.le h.mem
  obtain ⟨before,after,rfl,hbefore,_⟩ := h
  obtain ⟨before',after',hl,hbefore',_⟩ := h'
  rcases List.append_eq_append_iff.mp hl with ⟨between,rfl,hsplit⟩ | ⟨between,rfl,hsplit⟩
  · cases between with
    | nil => exact (List.cons.inj hsplit).1
    | cons z _ =>
      obtain rfl := (List.cons.inj hsplit).1
      exact absurd (hbefore' x (by simp)) (Nat.not_lt.mpr hle)
  · cases between with
    | nil => exact (List.cons.inj hsplit).1.symm
    | cons z _ =>
      obtain rfl := (List.cons.inj hsplit).1
      exact absurd (hbefore y (by simp)) (Nat.not_lt.mpr hle')

theorem head?_eq (h : IsFirstGreatest f l y) (hzero : ∀ x ∈ l, f x = 0) : l.head? = some y := by
  obtain ⟨before,after,rfl,hbefore,_⟩ := h
  cases before with
  | nil => rfl
  | cons x _ =>
    have hlt := hbefore x List.mem_cons_self
    rw [hzero x (by simp),hzero y (by simp)] at hlt
    exact absurd hlt (Nat.lt_irrefl 0)

end IsFirstGreatest

/-- The comparisons are strict and go through the list from the left, so of equal gains the first one stays. -/
theorem strongest_returns_greatest (hu : u.CountsBelow count bound) {weights : List W} {f : Numbered → Nat}
    (hgain : ∀ x ∈ carried, (weighRemoved u weights n x.1 frontier u.zero).Returns (count (f x)))
    (hf : ∀ x ∈ carried, f x < bound) (best : Numbered) {g : Nat} (hg : g < bound) :
    ∃ y, (strongest u weights n frontier carried best (count g)).Returns y ∧
      (y = best ∧ (∀ x ∈ carried, f x ≤ g) ∨ g < f y ∧ IsFirstGreatest f carried y) := by
  induction carried generalizing best g with
  | nil => exact ⟨best,returns_pure best,Or.inl ⟨rfl,by simp⟩⟩
  | cons x rest ih =>
    have hx := hgain x List.mem_cons_self
    have hxsmall := hf x List.mem_cons_self
    have hexceeds := hu.exceeds hxsmall hg
    have hrest := fun best {g} (hg : g < bound) => ih (fun z hz => hgain z (List.mem_cons_of_mem x hz))
      (fun z hz => hf z (List.mem_cons_of_mem x hz)) best hg
    by_cases hlt : g < f x
    · obtain ⟨y,hreturns,hy⟩ := hrest x hxsmall
      refine ⟨y,hx.bind ?_,Or.inr ?_⟩
      · rwa [hexceeds,decide_eq_true hlt]
      · rcases hy with ⟨rfl,hle⟩ | ⟨hxy,hgreatest⟩
        · exact ⟨hlt,.head hle⟩
        · exact ⟨hlt.trans hxy,hgreatest.cons hxy⟩
    · obtain ⟨y,hreturns,hy⟩ := hrest best hg
      have hle : f x ≤ g := Nat.le_of_not_lt hlt
      refine ⟨y,hx.bind ?_,?_⟩
      · rwa [hexceeds,decide_eq_false hlt]
      · rcases hy with ⟨rfl,hrestle⟩ | ⟨hgy,hgreatest⟩
        · exact Or.inl ⟨rfl,List.forall_mem_cons.mpr ⟨hle,hrestle⟩⟩
        · exact Or.inr ⟨hgy,hgreatest.cons (Nat.lt_of_le_of_lt hle hgy)⟩

/-- How many orders a numbered assertion rules out of a frontier. -/
noncomputable def power (n : Int) (frontier : List Suffix) (x : Numbered) : Nat := (ruledOut n x.1 frontier).ncard

theorem strongest_returns_power (hu : u.CountsBelow count bound) (hn : n.toNat ! < bound) {first : Numbered}
    (ha : ∀ x ∈ first :: carried, x.1.WellFormed n) (hf : IsFrontier n frontier) :
    ∃ y, (strongest u (suffixWeights u n.toNat) n frontier (first :: carried) first u.zero).Returns y ∧
      IsFirstGreatest (power n frontier) (first :: carried) y := by
  have hsmall : ∀ x ∈ first :: carried, power n frontier x < bound :=
    fun x hx => Nat.lt_of_le_of_lt (ncard_ruledOut_le (ha x hx) hf) hn
  have hgain := fun x hx => weighRemoved_ncard hu hn (ha x hx) hf
  have hzero : 0 < bound := Nat.lt_of_le_of_lt (Nat.zero_le _) hn
  obtain ⟨y,hreturns,hy⟩ := strongest_returns_greatest hu hgain hsmall first hzero
  refine ⟨y,hu.zero ▸ hreturns,?_⟩
  rcases hy with ⟨rfl,hnone⟩ | ⟨_,hgreatest⟩
  · exact .head fun x hx => Nat.le_trans (hnone x (List.mem_cons_of_mem y hx)) (Nat.zero_le _)
  · exact hgreatest

/-! ## The rounds -/

/-- After `k` rounds the loop has the numbered assertions `opened` and the frontier `left` before it. -/
theorem listStrongest_rounds (hu : u.CountsBelow count bound) (hn : n.toNat ! < bound) {rounds : Nat}
    (hrounds : carried.length ≤ rounds) (ha : ∀ x ∈ carried, x.1.WellFormed n) (hf : IsFrontier n frontier) :
    ∃ order, (listStrongest u (suffixWeights u n.toNat) n rounds carried frontier).Returns order ∧
      ∀ k (hk : k < order.ordered.length), ∃ opened left y,
        (listStrongest u (suffixWeights u n.toNat) n k carried frontier).Returns
          ⟨order.ordered.take k,opened.map (·.2),left⟩ ∧
        opened.Sublist carried ∧ IsFrontier n left ∧ IsFirstGreatest (power n left) opened y ∧
        y.2 = order.ordered[k] := by
  induction rounds generalizing carried frontier with
  | zero =>
    obtain rfl := List.length_eq_zero_iff.mp (Nat.le_zero.mp hrounds)
    exact ⟨_,returns_pure _,fun k hk => by cases hk⟩
  | succ rounds ih =>
    cases carried with
    | nil => exact ⟨_,returns_pure _,fun k hk => by cases hk⟩
    | cons first others =>
      cases frontier with
      | nil => exact ⟨_,returns_pure _,fun k hk => by cases hk⟩
      | cons s rest =>
        obtain ⟨best,hpicked,hgreatest⟩ := strongest_returns_power hu hn ha hf
        have hexpanded := expandAll_false_returns (ha best hgreatest.mem) hf.placed
        have hlength : ((first :: others).erase best).length ≤ rounds := by
          rw [List.length_erase_of_mem hgreatest.mem]
          exact Nat.sub_le_of_le_add hrounds
        obtain ⟨order,horder,hlater⟩ := ih hlength (fun x hx => ha x (List.mem_of_mem_erase hx))
          (hf.flatMap_survivors [best.1])
        refine ⟨_,hpicked.bind (hexpanded.bind (horder.bind (returns_pure _))),?_⟩
        intro k hk
        cases k with
        | zero =>
          exact ⟨first :: others,s :: rest,best,returns_pure _,List.Sublist.refl _,hf,hgreatest,rfl⟩
        | succ k =>
          obtain ⟨opened,left,y,hstate,hopened,hleft,hy,hlisted⟩ := hlater k (Nat.lt_of_succ_lt_succ hk)
          exact ⟨opened,left,y,hpicked.bind (hexpanded.bind (hstate.bind (returns_pure _))),
            hopened.trans List.erase_sublist,hleft,hy,hlisted⟩

/-- The rounds do not depend on how it is counted: two weighings that both count exactly list the same. -/
theorem listStrongest_returns_same {W' : Type} {u' : Weighing W'} {count' : Nat → W'} {bound' : Nat}
    (hu : u.CountsBelow count bound) (hn : n.toNat ! < bound) (hu' : u'.CountsBelow count' bound')
    (hn' : n.toNat ! < bound') (rounds : Nat) (ha : ∀ x ∈ carried, x.1.WellFormed n) (hf : IsFrontier n frontier) :
    ∃ order, (listStrongest u (suffixWeights u n.toNat) n rounds carried frontier).Returns order ∧
      (listStrongest u' (suffixWeights u' n.toNat) n rounds carried frontier).Returns order := by
  induction rounds generalizing carried frontier with
  | zero => exact ⟨_,returns_pure _,returns_pure _⟩
  | succ rounds ih =>
    cases carried with
    | nil => exact ⟨_,returns_pure _,returns_pure _⟩
    | cons first others =>
      cases frontier with
      | nil => exact ⟨_,returns_pure _,returns_pure _⟩
      | cons s rest =>
        obtain ⟨best,hpicked,hgreatest⟩ := strongest_returns_power hu hn ha hf
        obtain ⟨best',hpicked',hgreatest'⟩ := strongest_returns_power hu' hn' ha hf
        obtain rfl := hgreatest.eq hgreatest'
        have hexpanded := expandAll_false_returns (ha best hgreatest.mem) hf.placed
        obtain ⟨order,horder,horder'⟩ := ih (fun x hx => ha x (List.mem_of_mem_erase hx)) (hf.flatMap_survivors [best.1])
        exact ⟨_,hpicked.bind (hexpanded.bind (horder.bind (returns_pure _))),
          hpicked'.bind (hexpanded.bind (horder'.bind (returns_pure _)))⟩

/-- What a round of the loop finds and does. The assertions that are still open are weighed by the orders that they
rule out of the frontier; the one listed is the first of those that rule out most. -/
structure GreedyRound (u : Weighing W) (count : Nat → W) (n : Int) (as : List Assertion) (frontier : List Suffix)
    (opened : List Numbered) (listed : Nat) : Prop where
  sublist : opened.Sublist (numbered as)
  gains : ∀ x ∈ opened, (weighRemoved u (suffixWeights u n.toNat) n x.1 frontier u.zero).Returns
    (count (ruledOut n x.1 frontier).ncard)
  greatest : ∃ y ∈ opened, y.2 = listed ∧
    ∀ x ∈ opened, (ruledOut n x.1 frontier).ncard ≤ (ruledOut n y.1 frontier).ncard ∧
      ((ruledOut n x.1 frontier).ncard = (ruledOut n y.1 frontier).ncard → listed ≤ x.2)
  firstIfNone : (∀ x ∈ opened, (ruledOut n x.1 frontier).ncard = 0) → (opened.map (·.2)).head? = some listed

variable {as : List Assertion} {w : Candidate}

theorem IsFirstGreatest.greedyRound (hu : u.CountsBelow count bound) (hn : n.toNat ! < bound)
    (ha : ∀ a ∈ as, a.WellFormed n) (hf : IsFrontier n frontier) {opened : List Numbered}
    (hopened : opened.Sublist (numbered as)) {y : Numbered} (hy : IsFirstGreatest (power n frontier) opened y) :
    GreedyRound u count n as frontier opened y.2 := by
  refine ⟨hopened,?gains,⟨y,hy.mem,rfl,?greatest⟩,?firstIfNone⟩
  case gains =>
    intro x hx
    exact weighRemoved_ncard hu hn (wellFormed_numbered ha x (hopened.subset hx)) hf
  case greatest =>
    intro x hx
    exact ⟨hy.le hx,hy.snd_le ((pairwise_numbered as).sublist hopened) hx⟩
  case firstIfNone =>
    intro hnone
    rw [List.head?_map,hy.head?_eq hnone]
    rfl

/-- The order by pruning power is greedy, as long as its weights count all orders. The state before each round is
what the loop has after as many rounds as were played. -/
theorem pruningOrderBy_greedy (hu : u.CountsBelow count bound) (hn : n.toNat ! < bound)
    (hcontest : WellFormedContest n (some w) as) :
    ∃ order, (pruningOrderBy u n (some w) as).Returns (.ok order) ∧
      ∀ k (hk : k < order.ordered.length), ∃ opened frontier,
        (listStrongest u (suffixWeights u n.toNat) n k (numbered as) (losingSuffixes n (some w))).Returns
          ⟨order.ordered.take k,opened.map (·.2),frontier⟩ ∧
        GreedyRound u count n as frontier opened order.ordered[k] := by
  have hfaults : contestFaults n (some w) as = [] := contestFaults_eq_nil_iff.mpr hcontest
  have ha := hcontest.assertions
  have hlength : (numbered as).length ≤ as.length := by simp [numbered]
  obtain ⟨order,horder,hrounds⟩ := listStrongest_rounds hu hn hlength (wellFormed_numbered ha)
    ((isFrontier_singleSuffixes n).filter _)
  refine ⟨order,pruningOrderBy_returns_of_listStrongest hfaults horder,?_⟩
  intro k hk
  obtain ⟨opened,left,y,hstate,hopened,hleft,hy,hlisted⟩ := hrounds k hk
  exact ⟨opened,left,hstate,hlisted ▸ hy.greedyRound hu hn ha hleft hopened⟩

end Round

variable {as : List Assertion} {w : Candidate}

theorem factorial_lt_of_le_18 (hn : n ≤ 18) : n.toNat ! < 2 ^ 53 :=
  Nat.lt_of_le_of_lt (Nat.factorial_le (show n.toNat ≤ 18 by omega)) (by decide)

/-- Up to 18 candidates the order weighed in doubles is the order by exact counts. -/
theorem pruningOrder_returns_exact {winner : Option Candidate} (hn : n ≤ 18)
    (hcontest : WellFormedContest n winner as) :
    ∃ order, (pruningOrder n winner as).Returns (.ok order) ∧
      (pruningOrderBy .exact n winner as).Returns (.ok order) := by
  have hfaults := contestFaults_eq_nil_iff.mpr hcontest
  obtain ⟨order,hdoubles,hexact⟩ := listStrongest_returns_same Weighing.doubles_countsBelow (factorial_lt_of_le_18 hn)
    (Weighing.exact_countsBelow (n.toNat ! + 1)) (Nat.lt_succ_self _) as.length (wellFormed_numbered hcontest.assertions)
    ((isFrontier_singleSuffixes n).filter fun s => winner.all (· ∉ s))
  exact ⟨order,pruningOrderBy_returns_of_listStrongest hfaults hdoubles,
    pruningOrderBy_returns_of_listStrongest hfaults hexact⟩

/-- Up to 18 candidates the double weights count exactly, so the order by pruning power is greedy. The gain of an open
assertion is the number of the orders that it rules out of the frontier, and the assertion listed is the first one
of greatest gain. -/
theorem pruningOrder_greedy (hn : n ≤ 18) (hcontest : WellFormedContest n (some w) as) :
    ∃ order, (pruningOrder n (some w) as).Returns (.ok order) ∧
      ∀ k (hk : k < order.ordered.length), ∃ opened frontier,
        (listStrongest .doubles (suffixWeights .doubles n.toNat) n k (numbered as) (losingSuffixes n (some w))).Returns
          ⟨order.ordered.take k,opened.map (·.2),frontier⟩ ∧
        GreedyRound .doubles Float.ofNat n as frontier opened order.ordered[k] := by
  exact pruningOrderBy_greedy Weighing.doubles_countsBelow (factorial_lt_of_le_18 hn) hcontest

/-- Both assertions rule out three of the four orders at first, so the first one is listed. -/
theorem pruningOrder_greedy_equal_gains :
    (3 : Int) ≤ 18 ∧ WellFormedContest 3 (some 0) [.neb 0 2,.neb 0 1] ∧
    ∃ order, (pruningOrder 3 (some 0) [.neb 0 2,.neb 0 1]).Returns (.ok order) ∧ order.ordered = [0,1] ∧
      ∀ k (hk : k < order.ordered.length), ∃ opened frontier,
        (listStrongest .doubles (suffixWeights .doubles 3) 3 k (numbered [.neb 0 2,.neb 0 1])
          (losingSuffixes 3 (some 0))).Returns ⟨order.ordered.take k,opened.map (·.2),frontier⟩ ∧
        GreedyRound .doubles Float.ofNat 3 [.neb 0 2,.neb 0 1] frontier opened order.ordered[k] := by
  have hn : (3 : Int) ≤ 18 := by decide
  have hcontest : WellFormedContest 3 (some 0) [.neb 0 2,.neb 0 1] := by decide
  obtain ⟨order,horder,hrounds⟩ := pruningOrder_greedy hn hcontest
  have hlisted : (((pruningOrder 3 (some 0) [.neb 0 2,.neb 0 1]).runOn .unlimited).1.toOption.bind
      fun r => r.toOption.map (·.ordered)) = some [0,1] := by decide +kernel
  rw [horder.gives .unlimited ⟨rfl,rfl⟩] at hlisted
  exact ⟨hn,hcontest,order,horder,Option.some.inj hlisted,hrounds⟩

end RunoffAudit
