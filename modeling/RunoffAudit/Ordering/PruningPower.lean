import RunoffAudit.Elimination.Frontier
import RunoffAudit.WellFormed

/-! # Assertions by pruning power

A greedy order: each assertion listed next removes the most of the elimination orders still in
question. A suffix of length `L` stands for `(n - L)!` orders. These are counted in doubles, which for many
candidates round and beyond 170 candidates are infinite. The weighing is a parameter, so that the
order by exact counts stands beside it: up to 18 candidates the two are the same.
-/
namespace RunoffAudit

structure Weighing (W : Type) where
  zero : W
  one : W
  scale : Nat → W → W
  add : W → W → W
  sub : W → W → W
  exceeds : W → W → Bool

namespace Weighing

def exact : Weighing Int := ⟨0, 1, fun k w => k * w, (· + ·), (· - ·), fun v w => decide (w < v)⟩

/-- Counts in doubles. A number that is none exceeds nothing. -/
def doubles : Weighing Float := ⟨0, 1, fun k w => Float.ofNat k * w, (· + ·), (· - ·), fun v w => decide (w < v)⟩

end Weighing

structure PruningOrder where
  /-- Positions of the assertions, the strongest first. -/
  ordered : List Nat
  /-- Positions of the assertions that nothing was left for. -/
  unused : List Nat
  /-- What all assertions together fail to rule out. -/
  remaining : List Suffix

def PruningOrder.sufficient (o : PruningOrder) : Bool := o.remaining.isEmpty

section Greedy

variable {W : Type} (u : Weighing W)

/-- The weights of suffixes of the lengths `0, ..., k` among `k` candidates: each is the next one times
the number of candidates that the suffix leaves open. -/
def suffixWeights : (k : Nat) → List W
  | 0 => [u.one]
  | k + 1 =>
    let shorter := suffixWeights k
    u.scale (k + 1) (shorter.headD u.one) :: shorter

/-- Weighs what the assertion removes of a frontier, starting from `gain`. -/
def weighRemoved (weights : List W) (n : Int) (a : Assertion) : List Suffix → (gain : W) → Metered W
  | [], gain => pure gain
  | s :: rest, gain => do
    let left ← expand a n false s
    let gain := u.add gain (weights.getD s.length u.zero)
    weighRemoved weights n a rest (left.foldl (fun g t => u.sub g (weights.getD t.length u.zero)) gain)

/-- The first assertion of greatest gain, if one has more than `bestGain`. -/
def strongest (weights : List W) (n : Int) (frontier : List Suffix) :
    List Numbered → (best : Numbered) → (bestGain : W) → Metered Numbered
  | [], best, _ => pure best
  | a :: rest, best, bestGain => do
    let gain ← weighRemoved u weights n a.1 frontier u.zero
    if u.exceeds gain bestGain then strongest weights n frontier rest a gain
    else strongest weights n frontier rest best bestGain

/-- Lists assertions until none or no suffix is left; at most `rounds` of them. -/
def listStrongest (weights : List W) (n : Int) :
    (rounds : Nat) → List Numbered → (frontier : List Suffix) → Metered PruningOrder
  | 0, open_, frontier => pure ⟨[], open_.map (·.2), frontier⟩
  | _ + 1, [], frontier => pure ⟨[], [], frontier⟩
  | rounds + 1, first :: others, frontier =>
    if frontier.isEmpty then pure ⟨[], (first :: others).map (·.2), []⟩
    else do
      let best ← strongest u weights n frontier (first :: others) first u.zero
      let frontier ← expandAll best.1 n false frontier
      let rest ← listStrongest weights n rounds ((first :: others).erase best) frontier
      return { rest with ordered := best.2 :: rest.ordered }

/-- Orders the assertions of a contest by pruning power, weighed by `u`. A malformed contest has no order. -/
def pruningOrderBy (n : Int) (winner : Option Candidate) (assertions : List Assertion) :
    Metered (Except (List Fault) PruningOrder) := do
  let faults := contestFaults n winner assertions
  if faults.isEmpty then
    let start := (singleSuffixes n).filter fun s => winner.all (· ∉ s)
    return .ok (← listStrongest u (suffixWeights u n.toNat) n assertions.length (numbered assertions) start)
  else return .error faults

end Greedy

def pruningOrder (n : Int) (winner : Option Candidate) (assertions : List Assertion) :
    Metered (Except (List Fault) PruningOrder) :=
  pruningOrderBy .doubles n winner assertions

end RunoffAudit
