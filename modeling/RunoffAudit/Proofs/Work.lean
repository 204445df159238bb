import RunoffAudit.Budget

/-! # Computations of a known amount of work

A search never looks at its budget. It spends units one by one until it returns or a limit is
passed, so it is known once its result and the number of its units are known.
-/
namespace RunoffAudit

variable {α β : Type}

/-- A budget on which no search is cut short. -/
def Budget.Unlimited (b : Budget) : Prop := b.workLimit = none ∧ b.secondsLimit = none

def spendUnits : Nat → Metered Unit
  | 0 => pure ()
  | k + 1 => do
    tick
    spendUnits k

namespace Metered

/-- The computation spends `k` units and returns `x`. -/
def Takes (m : Metered α) (k : Nat) (x : α) : Prop := m = (do spendUnits k; return x)

/-- The computation returns `x`, however much work that is. -/
def Returns (m : Metered α) (x : α) : Prop := ∃ k, m.Takes k x

theorem takes_pure (x : α) : Takes (pure x) 0 x := by
  simp [Takes,spendUnits]

theorem takes_tick : Takes tick 1 () := by
  simp [Takes,spendUnits]

end Metered

theorem spendUnits_add (j k : Nat) : spendUnits (j + k) = (do spendUnits j; spendUnits k) := by
  induction j with
  | zero => simp [spendUnits]
  | succ j ih =>
    rw [Nat.succ_add]
    simp only [spendUnits,ih,bind_assoc]

namespace Metered

theorem Takes.bind {m : Metered α} {f : α → Metered β} {j k : Nat} {x : α} {y : β}
    (hm : m.Takes j x) (hf : (f x).Takes k y) : Takes (m >>= f) (j + k) y := by
  unfold Takes at hm hf ⊢
  rw [hm,spendUnits_add]
  simp only [bind_assoc,pure_bind,hf]

theorem Takes.tick_bind {f : Unit → Metered β} {k : Nat} {y : β} (hf : (f ()).Takes k y) :
    Takes (tick >>= f) (1 + k) y := takes_tick.bind hf

theorem Takes.map {m : Metered α} {k : Nat} {x : α} (hm : m.Takes k x) (f : α → β) :
    Takes (do return f (← m)) k (f x) :=
  hm.bind (f := fun y => pure (f y)) (takes_pure (f x))

theorem Takes.returns {m : Metered α} {k : Nat} {x : α} (hm : m.Takes k x) : m.Returns x := ⟨k,hm⟩

theorem returns_pure (x : α) : Returns (pure x) x := ⟨0,takes_pure x⟩

theorem Returns.bind {m : Metered α} {f : α → Metered β} {x : α} {y : β}
    (hm : m.Returns x) (hf : (f x).Returns y) : Returns (m >>= f) y := by
  obtain ⟨j,hj⟩ := hm
  obtain ⟨k,hk⟩ := hf
  exact ⟨j + k,hj.bind hk⟩

theorem Returns.tick_bind {f : Unit → Metered β} {y : β} (hf : (f ()).Returns y) :
    Returns (tick >>= f) y := takes_tick.returns.bind hf

end Metered

def Budget.after (b : Budget) (k : Nat) : Budget := { b with workDone := b.workDone + k }

theorem Budget.after_after (b : Budget) (j k : Nat) : (b.after j).after k = b.after (j + k) := by
  simp only [Budget.after,Nat.add_assoc]

theorem Budget.Unlimited.after {b : Budget} (hb : b.Unlimited) (k : Nat) : (b.after k).Unlimited := hb

theorem tick_of_unlimited {b : Budget} (hb : b.Unlimited) : tick b = (.ok (),b.after 1) := by
  simp [tick,Budget.spend,Budget.exceeded,Budget.after,hb.1,hb.2]

namespace Metered

theorem runOn_bind_ok {m : Metered α} {f : α → Metered β} {b b' : Budget} {x : α}
    (hm : m.runOn b = (.ok x,b')) : (m >>= f).runOn b = (f x).runOn b' := by
  unfold runOn at hm
  show ExceptT.bind m f b = f x b'
  simp only [ExceptT.bind,ExceptT.mk,bind,StateT.bind,hm]
  rfl

theorem runOn_bind_error {m : Metered α} {f : α → Metered β} {b b' : Budget} {e : Exhaustion}
    (hm : m.runOn b = (.error e,b')) : (m >>= f).runOn b = (.error e,b') := by
  unfold runOn at hm
  show ExceptT.bind m f b = (.error e,b')
  simp only [ExceptT.bind,ExceptT.mk,bind,StateT.bind,hm]
  rfl

theorem runOn_map_ok {m : Metered α} {f : α → β} {b b' : Budget} {x : α}
    (hm : m.runOn b = (.ok x,b')) : (f <$> m).runOn b = (.ok (f x),b') := by
  rw [map_eq_pure_bind]
  exact runOn_bind_ok hm

end Metered

theorem spendUnits_of_unlimited {b : Budget} (hb : b.Unlimited) (k : Nat) :
    (spendUnits k).runOn b = (.ok (),b.after k) := by
  induction k generalizing b with
  | zero => rfl
  | succ k ih =>
    have ht : Metered.runOn b tick = (.ok (),b.after 1) := tick_of_unlimited hb
    calc (spendUnits (k + 1)).runOn b = (spendUnits k).runOn (b.after 1) := Metered.runOn_bind_ok ht
      _ = (.ok (),(b.after 1).after k) := ih (hb.after 1)
      _ = (.ok (),b.after (k + 1)) := by rw [Budget.after_after,Nat.add_comm]

namespace Metered

theorem Takes.runOn_of_unlimited {m : Metered α} {k : Nat} {x : α} (hm : m.Takes k x) {b : Budget}
    (hb : b.Unlimited) : m.runOn b = (.ok x,b.after k) := by
  rw [show m = (do spendUnits k; return x) from hm,runOn_bind_ok (spendUnits_of_unlimited hb k)]
  rfl

/-- Without a limit, and whatever work was done before, the computation ends with the result `x`. -/
def Gives (m : Metered α) (x : α) : Prop := ∀ b : Budget, b.Unlimited → (m.runOn b).1 = .ok x

theorem Takes.gives {m : Metered α} {k : Nat} {x : α} (hm : m.Takes k x) : m.Gives x := by
  intro b hb
  rw [hm.runOn_of_unlimited hb]

theorem Returns.gives {m : Metered α} {x : α} (hm : m.Returns x) : m.Gives x := by
  obtain ⟨_,hk⟩ := hm
  exact hk.gives

theorem Takes.eq_of_runOn {m : Metered α} {k : Nat} {x : α} (hm : m.Takes k x) {b b' : Budget} {y : α}
    (h : m.runOn b = (.ok y,b')) : y = x := by
  rw [show m = (do spendUnits k; return x) from hm] at h
  rcases hs : (spendUnits k).runOn b with ⟨e | u,b₁⟩
  · rw [runOn_bind_error hs] at h
    cases h
  · rw [runOn_bind_ok hs] at h
    cases h
    rfl

theorem run_bind {σ : Type} {m : StateM σ α} {f : α → StateM σ β} {b b' : σ} {x : α}
    (h : m b = (x,b')) : (m >>= f) b = f x b' := by
  show StateT.bind m f b = f x b'
  simp only [StateT.bind,h]
  rfl

/-- Where the end of the budget is a result, what comes next is told of it. -/
theorem attempt_bind {m : Metered α} {f : Except Exhaustion α → StateM Budget β} {b b' : Budget}
    {x : Except Exhaustion α} (h : m.runOn b = (x,b')) : (m.attempt >>= f) b = f x b' := run_bind h

theorem Returns.eq_of_runOn {m : Metered α} {x : α} (hm : m.Returns x) {b b' : Budget} {y : α}
    (h : m.runOn b = (.ok y,b')) : y = x := by
  obtain ⟨k,hk⟩ := hm
  exact hk.eq_of_runOn h

theorem Returns.unique {m : Metered α} {x y : α} (hx : m.Returns x) (hy : m.Returns y) : x = y :=
  hy.eq_of_runOn (Prod.ext (hx.gives .unlimited ⟨rfl,rfl⟩) rfl)

end Metered
end RunoffAudit
