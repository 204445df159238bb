import RunoffAudit.Proofs.Work

/-! # What a limit on the work changes

A computation that spends `W` units when nothing limits it either has all of them, and then the limit changes
nothing, or is cut off at one definite unit: the first past the limit, or the next one if the limit was passed
before. What the answer is then, the computation says itself. That the law holds is proved once for units
spent in a row and once for computations one after the other.
-/
namespace RunoffAudit
open Metered

variable {α β : Type} {b : Budget} {limit j k : Nat}

namespace Budget

/-- The work is limited, and the clock, which stands still, is not past the limit on the time. -/
structure LimitedTo (b : Budget) (limit : Nat) : Prop where
  work : b.workLimit = some limit
  inTime : b.secondsLimit.any (· < b.elapsed) = false

/-- The units can be spent. No units always can. -/
def Fits (b : Budget) (limit units : Nat) : Prop := units = 0 ∨ b.workDone + units ≤ limit

def exhaustion (b : Budget) (limit : Nat) : Exhaustion := ⟨max limit b.workDone + 1,b.elapsed⟩

def cutOff (b : Budget) (limit : Nat) : Budget := { b with workDone := max limit b.workDone + 1 }

def withLimit (b : Budget) (limit : Nat) : Budget := { b with workLimit := some limit }

theorem LimitedTo.after (hb : b.LimitedTo limit) (k : Nat) : (b.after k).LimitedTo limit := ⟨hb.work,hb.inTime⟩

theorem LimitedTo.withLimit (hb : b.LimitedTo limit) (k : Nat) : (b.withLimit k).LimitedTo k := ⟨rfl,hb.inTime⟩

theorem fits_add_iff : b.Fits limit (j + k) ↔ b.Fits limit j ∧ (b.after j).Fits limit k := by
  simp only [Fits,after]
  omega

theorem max_after_of_fits (h : b.Fits limit j) : max limit (b.after j).workDone = max limit b.workDone := by
  simp only [Fits,after] at h ⊢
  omega

theorem cutOff_after (h : b.Fits limit j) : (b.after j).cutOff limit = b.cutOff limit := by
  rw [cutOff,max_after_of_fits h]
  rfl

theorem exhaustion_after (h : b.Fits limit j) : (b.after j).exhaustion limit = b.exhaustion limit := by
  rw [exhaustion,max_after_of_fits h]
  rfl

end Budget

/-! ## Units spent in a row -/

theorem tick_of_fits (hb : b.LimitedTo limit) (h : b.Fits limit 1) : tick.runOn b = (.ok (),b.after 1) := by
  have hle : ¬ limit < b.workDone + 1 := by
    simp only [Budget.Fits] at h
    omega
  have htime : b.spend.secondsLimit.any (· < b.spend.elapsed) = false := hb.inTime
  have hwork : b.spend.workLimit = some limit := hb.work
  have hdone : (some limit).any (· < b.spend.workDone) = false := decide_eq_false hle
  have hexceeded : b.spend.exceeded = false := by
    rw [Budget.exceeded,hwork,hdone,htime]
    rfl
  show (if b.spend.exceeded then _ else _) = _
  rw [hexceeded]
  rfl

theorem tick_of_not_fits (hb : b.LimitedTo limit) (h : ¬ b.Fits limit 1) :
    tick.runOn b = (.error (b.exhaustion limit),b.cutOff limit) := by
  have hlt : limit < b.workDone + 1 ∧ max limit b.workDone = b.workDone := by
    simp only [Budget.Fits] at h
    omega
  have hwork : b.spend.workLimit = some limit := hb.work
  have hdone : (some limit).any (· < b.spend.workDone) = true := decide_eq_true hlt.1
  have hexceeded : b.spend.exceeded = true := by
    rw [Budget.exceeded,hwork,hdone]
    rfl
  rw [Budget.exhaustion,Budget.cutOff,hlt.2]
  show (if b.spend.exceeded then _ else _) = _
  rw [hexceeded]
  rfl

theorem spendUnits_of_fits (hb : b.LimitedTo limit) (h : b.Fits limit k) :
    (spendUnits k).runOn b = (.ok (),b.after k) := by
  induction k generalizing b with
  | zero => rfl
  | succ k ih =>
    obtain ⟨hone,hrest⟩ := Budget.fits_add_iff.mp (Nat.add_comm k 1 ▸ h)
    calc (spendUnits (k + 1)).runOn b = (spendUnits k).runOn (b.after 1) := runOn_bind_ok (tick_of_fits hb hone)
      _ = (.ok (),(b.after 1).after k) := ih (hb.after 1) hrest
      _ = (.ok (),b.after (k + 1)) := by rw [Budget.after_after,Nat.add_comm]

theorem spendUnits_of_not_fits (hb : b.LimitedTo limit) (h : ¬ b.Fits limit k) :
    (spendUnits k).runOn b = (.error (b.exhaustion limit),b.cutOff limit) := by
  induction k generalizing b with
  | zero => exact absurd (Or.inl rfl) h
  | succ k ih =>
    by_cases hone : b.Fits limit 1
    · have hrest : ¬ (b.after 1).Fits limit k :=
        fun hrest => h (Nat.add_comm 1 k ▸ Budget.fits_add_iff.mpr ⟨hone,hrest⟩)
      calc (spendUnits (k + 1)).runOn b = (spendUnits k).runOn (b.after 1) := runOn_bind_ok (tick_of_fits hb hone)
        _ = (.error ((b.after 1).exhaustion limit),(b.after 1).cutOff limit) := ih (hb.after 1) hrest
        _ = (.error (b.exhaustion limit),b.cutOff limit) := by
          rw [Budget.exhaustion_after hone,Budget.cutOff_after hone]
    · exact runOn_bind_error (tick_of_not_fits hb hone)

/-! ## The law -/

/-- The computation spends `units` and then answers `x`, told the work done by then. If the units are not to be
had, the answer is one that `Cut` allows. -/
structure Ends (m : StateM Budget α) (units : Nat) (x : Nat → α) (Cut : Exhaustion → α → Prop) : Prop where
  unlimited : ∀ b : Budget, b.Unlimited → m b = (x (b.workDone + units),b.after units)
  enough : ∀ (b : Budget) limit, b.LimitedTo limit → b.Fits limit units →
    m b = (x (b.workDone + units),b.after units)
  cut : ∀ (b : Budget) limit, b.LimitedTo limit → ¬ b.Fits limit units →
    ∃ y, m b = (y,b.cutOff limit) ∧ Cut (b.exhaustion limit) y

namespace Ends
variable {m : StateM Budget α} {f : α → StateM Budget β} {a : α} {x : Nat → α} {y : Nat → β}
  {Cut : Exhaustion → α → Prop} {Cut' : Exhaustion → β → Prop}

theorem of_noWork (h : ∀ b, m b = (x b.workDone,b)) : Ends m 0 x Cut :=
  ⟨fun b _ => h b,fun b _ _ _ => h b,fun _ _ _ hcut => absurd (Or.inl rfl) hcut⟩

theorem of_takes {m : Metered α} (hm : m.Takes k a) :
    Ends m.attempt k (fun _ => .ok a) fun e z => z = .error e := by
  have hdo : m = (do spendUnits k; return a) := hm
  constructor
  case unlimited => exact fun b hb => hm.runOn_of_unlimited hb
  case enough =>
    intro b limit hb h
    show m.runOn b = _
    rw [hdo,runOn_bind_ok (spendUnits_of_fits hb h)]
    rfl
  case cut =>
    intro b limit hb h
    refine ⟨_,?_,rfl⟩
    show m.runOn b = _
    rw [hdo,runOn_bind_error (spendUnits_of_not_fits hb h)]

/-- Computations one after the other. The second is told how the first was cut off, and must then end without
further work. -/
theorem bind (hm : Ends m j (fun _ => a) Cut) (hf : Ends (f a) k y Cut')
    (hcut : ∀ (b : Budget) e z, Cut e z → b.workDone = e.workDone → ∃ y', f z b = (y',b) ∧ Cut' e y') :
    Ends (m >>= f) (j + k) y Cut' := by
  have hadd : ∀ b : Budget, (b.after j).workDone + k = b.workDone + (j + k) := fun b => Nat.add_assoc _ _ _
  constructor
  case unlimited =>
    intro b hb
    rw [run_bind (hm.unlimited b hb),hf.unlimited _ (hb.after j),Budget.after_after,hadd]
  case enough =>
    intro b limit hb h
    obtain ⟨hj,hk⟩ := Budget.fits_add_iff.mp h
    rw [run_bind (hm.enough b limit hb hj),hf.enough _ limit (hb.after j) hk,Budget.after_after,hadd]
  case cut =>
    intro b limit hb h
    -- the limit is passed in the second computation, or in the first and the second passes that on
    by_cases hj : b.Fits limit j
    · have hk : ¬ (b.after j).Fits limit k := fun hk => h (Budget.fits_add_iff.mpr ⟨hj,hk⟩)
      rw [run_bind (hm.enough b limit hb hj),← Budget.cutOff_after hj,← Budget.exhaustion_after hj]
      exact hf.cut _ limit (hb.after j) hk
    · obtain ⟨z,hz,hcutz⟩ := hm.cut b limit hb hj
      rw [run_bind hz]
      exact hcut _ _ z hcutz rfl

theorem map (hm : Ends m k (fun _ => a) Cut) {g : α → β} (hcut : ∀ e z, Cut e z → Cut' e (g z)) :
    Ends (do return g (← m)) k (fun _ => g a) Cut' :=
  hm.bind (f := fun z => pure (g z)) (of_noWork fun _ => rfl) fun _ e z hz _ => ⟨g z,rfl,hcut e z hz⟩

end Ends

/-- The law with what it says of a raised limit: the answer is the unlimited one, or it is cut off as it was before. -/
structure ObeysLimit (m : StateM Budget α) (units : Nat) (x : Nat → α) (Cut : Exhaustion → α → Prop) : Prop
    extends Ends m units x Cut where
  raised : ∀ (b : Budget) limit limit', b.LimitedTo limit → limit ≤ limit' →
    m (b.withLimit limit') = (x (b.workDone + units),(b.withLimit limit').after units) ∨
    (∃ y, m b = (y,b.cutOff limit) ∧ Cut (b.exhaustion limit) y) ∧
      ∃ y, m (b.withLimit limit') = (y,(b.withLimit limit').cutOff limit') ∧ Cut (b.exhaustion limit') y

theorem Ends.obeys {m : StateM Budget α} {x : Nat → α} {Cut : Exhaustion → α → Prop} (hm : Ends m k x Cut) :
    ObeysLimit m k x Cut := by
  refine ⟨hm,?_⟩
  intro b limit limit' hb hle
  by_cases h : (b.withLimit limit').Fits limit' k
  · exact Or.inl (hm.enough _ limit' (hb.withLimit limit') h)
  · right
    -- what a raised limit does not allow was not allowed before
    have hless : ¬ b.Fits limit k := by
      simp only [Budget.Fits,Budget.withLimit] at h ⊢
      omega
    exact ⟨hm.cut b limit hb hless,hm.cut _ limit' (hb.withLimit limit') h⟩

/-- The law for a search that stops when the budget runs out, and returns `a` otherwise. -/
def Metered.LimitLaw (m : Metered α) (a : α) : Prop :=
  ∃ k, ObeysLimit m.attempt k (fun _ => .ok a) fun e z => z = .error e

theorem Metered.Returns.limitLaw {m : Metered α} {a : α} (hm : m.Returns a) : m.LimitLaw a := by
  obtain ⟨k,hk⟩ := hm
  exact ⟨k,(Ends.of_takes hk).obeys⟩

end RunoffAudit
