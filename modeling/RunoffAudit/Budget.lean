import RunoffAudit.Decimal.Fixed

/-! # Work budgets

Searches count their work in units: one unit is one search node, one step of a suffix expansion, or one
visited requirement. A budget limits the units, and the seconds that pass on its clock. The clock is
a reading kept in the budget; it moves only by `advance`, so time passes between searches and never
inside one.
-/
namespace RunoffAudit

structure Budget where
  workLimit : Option Nat
  secondsLimit : Option Float
  workDone : Nat
  started : Float
  now : Float
deriving Inhabited

inductive LimitError where
  | work
  | seconds
deriving DecidableEq

def LimitError.message : LimitError → String
  | work => "work_limit must be > 0"
  | seconds => "seconds_limit must be > 0"

structure Exhaustion where
  workDone : Nat
  seconds : Float

def Exhaustion.message (e : Exhaustion) : String :=
  "work budget exhausted after " ++ toString e.workDone ++ " nodes in " ++ Decimal.fixed 3 e.seconds ++ "s"

namespace Budget

def unlimited : Budget := ⟨none, none, 0, 0, 0⟩

/-- A fresh budget at the clock's reading `now`. Limits must be positive; the work limit is checked first. -/
def make (workLimit : Option Int) (secondsLimit : Option Float) (now : Float) : Except LimitError Budget :=
  if workLimit.any (· ≤ 0) then .error .work
  else if secondsLimit.any (· ≤ 0) then .error .seconds
  else .ok ⟨workLimit.map Int.toNat, secondsLimit, 0, now, now⟩

def elapsed (b : Budget) : Float := b.now - b.started

def exceeded (b : Budget) : Bool :=
  b.workLimit.any (· < b.workDone) || b.secondsLimit.any (· < b.elapsed)

def advance (b : Budget) (seconds : Float) : Budget := { b with now := b.now + seconds }

def spend (b : Budget) : Budget := { b with workDone := b.workDone + 1 }

end Budget

/-- A computation that spends work. It ends with a result or because the budget ran out, and in both
cases it tells the budget that is left. What never lets the budget's end pass is a `StateM Budget`. -/
abbrev Metered (α : Type) := ExceptT Exhaustion (StateM Budget) α

/-- Spends one unit of work, and stops if a limit has been passed by then. -/
def tick : Metered Unit := fun b =>
  let b := b.spend
  if b.exceeded then (.error ⟨b.workDone, b.elapsed⟩, b) else (.ok (), b)

def Metered.runOn {α : Type} (b : Budget) (m : Metered α) : Except Exhaustion α × Budget := m b

def Metered.attempt {α : Type} (m : Metered α) : StateM Budget (Except Exhaustion α) := m

def workDone : StateM Budget Nat := fun b => (b.workDone, b)

end RunoffAudit
