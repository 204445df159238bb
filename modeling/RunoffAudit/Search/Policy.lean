/-! # How far to search below a pruned node

A node that some assertion rules out need not be searched further. Searching on may find deeper
assertions that could take the place of those that rule it out.
-/
namespace RunoffAudit

inductive Policy where
  | stopImmediately
  /-- Go on below a pruned node, but stop at the next pruned one. -/
  | continueOnce
  | forever
  /-- Go on unless an NEB prunes the node. -/
  | stopOnNEB
  /-- A word with no meaning of its own. It is searched like `forever`. -/
  | other (word : String)
deriving DecidableEq

namespace Policy

def word : Policy → String
  | stopImmediately => "stop_immediately"
  | continueOnce => "continue_once"
  | forever => "forever"
  | stopOnNEB => "stop_on_neb"
  | other w => w

def all : List Policy := [stopImmediately, continueOnce, forever, stopOnNEB]

def named? (w : String) : Option Policy := all.find? (·.word = w)

def ofWord (w : String) : Policy := (named? w).getD (other w)

def continues (p : Policy) (prunedByNEB : Bool) : Bool :=
  match p with
  | stopImmediately => false
  | stopOnNEB => !prunedByNEB
  | _ => true

/-- The policy for the children of a pruned node that is searched further. -/
def next : Policy → Policy
  | continueOnce => stopImmediately
  | p => p

end Policy
end RunoffAudit
