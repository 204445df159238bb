import RunoffAudit.Search.Tree
import RunoffAudit.WellFormed

/-! # The verdict on one candidate

Is there an elimination order won by the candidate that no assertion rules out? The verdict carries the
search tree, and with it the proof: either every branch ends in a pruned node, or some leaf is a suffix
that all assertions allow.
-/
namespace RunoffAudit

structure Verdict where
  candidate : Candidate
  faults : List Fault
  /-- The search tree; there is none if the search was forbidden. -/
  tree : Option Node

namespace Verdict

/-- Can the candidate win? -/
def valid (v : Verdict) : Bool := v.tree.any Node.valid

def ruledOut (v : Verdict) : Bool := !v.valid && v.faults.isEmpty

def counterexample (v : Verdict) : Option Suffix :=
  v.tree.bind fun t => if t.valid then t.firstValidLeaf.map Node.suffix else none

def nodesExplored (v : Verdict) : Nat := (v.tree.map Node.size).getD 0

def maxDepth (v : Verdict) : Nat := (v.tree.map Node.maxDepth).getD 0

/-- The pruned suffixes of the tree with the assertions that rule them out. -/
def prunedBy (v : Verdict) : List (Suffix × List Nat) :=
  (v.tree.map Node.prunedNodes).getD [] |>.map fun x => (x.suffix, x.pruning)

def toValue (withTree : Bool) (v : Verdict) : Value :=
  .record <|
    [("candidate", .int v.candidate), ("ruled_out", .bool v.ruledOut),
      ("nodes_explored", .int v.nodesExplored), ("max_depth", .int v.maxDepth)] ++
    (v.counterexample.map fun s => ("counterexample", Value.ints s)).toList ++
    (if v.faults.isEmpty then [] else [("errors", .list (v.faults.map Fault.toValue))]) ++
    (if withTree then (v.tree.map fun t => ("tree", t.toValue)).toList else [])

end Verdict

/-- Searches for an order won by `candidate`. Malformed input is not searched. -/
def verify (n : Int) (assertions : List Assertion) (candidate : Candidate) : Metered Verdict := do
  let faults := searchFaults n candidate assertions
  if faults.isEmpty then
    let tree ← searchTree ⟨n, false⟩ .stopImmediately (numbered assertions) candidate
    return ⟨candidate, [], some tree⟩
  else return ⟨candidate, faults, none⟩

end RunoffAudit
