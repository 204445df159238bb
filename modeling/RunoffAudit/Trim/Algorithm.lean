import RunoffAudit.Search.Policy

/-! # Trim algorithms -/
namespace RunoffAudit

inductive TrimAlgorithm where
  | keepAll
  /-- Stop at the first pruned node, so that the kept assertions prune the same nodes. -/
  | minimizeTree
  /-- Search below nodes that NENs prune, for assertions that can stand in for these. -/
  | minimizeAssertions
  | other (word : String)
deriving DecidableEq

namespace TrimAlgorithm

def word : TrimAlgorithm → String
  | keepAll => "none"
  | minimizeTree => "minimize_tree"
  | minimizeAssertions => "minimize_assertions"
  | other w => w

def known : List TrimAlgorithm := [keepAll, minimizeTree, minimizeAssertions]

def named? (w : String) : Option TrimAlgorithm := known.find? (·.word = w)

def ofWord (w : String) : TrimAlgorithm := (named? w).getD (other w)

/-- The policy with which an algorithm searches unless told otherwise. -/
def policy? : TrimAlgorithm → Option Policy
  | minimizeTree => some .stopImmediately
  | minimizeAssertions => some .stopOnNEB
  | _ => none

end TrimAlgorithm
end RunoffAudit
