import RunoffAudit.Elimination.Order
import RunoffAudit.Budget
import RunoffAudit.Search.Policy

/-! # The search tree of a candidate

The root supposes that a candidate is the final survivor; each child places one more candidate in
front. A node is pruned when an assertion rules its suffix out, and it has children only while some
assertion carried down to it is undetermined. A node is valid if it is not pruned and either nothing
was left undetermined or some child is valid; a valid root means that the candidate can win.

Below a pruned node, which the policy may have searched further, a valid descendant cannot be ruled
out by deeper assertions: the search there ends and all children visited so far are discarded.
-/
namespace RunoffAudit

/-- A visited node with all nodes visited below it. One of the last two lists is empty. -/
inductive Node where
  | mk (candidate : Candidate) (after : Suffix) (pruning : List Nat) (valid : Bool)
      (children discarded : List Node)
deriving Inhabited

namespace Node

def candidate : Node → Candidate
  | mk c _ _ _ _ _ => c

def suffix : Node → Suffix
  | mk c s _ _ _ _ => c :: s

/-- The positions of the recorded assertions that rule the suffix out. -/
def pruning : Node → List Nat
  | mk _ _ p _ _ _ => p

def valid : Node → Bool
  | mk _ _ _ v _ _ => v

def children : Node → List Node
  | mk _ _ _ _ cs _ => cs

def discarded : Node → List Node
  | mk _ _ _ _ _ ds => ds

def pruned (x : Node) : Bool := !x.pruning.isEmpty

def depth (x : Node) : Nat := x.suffix.length

end Node

structure SearchRule where
  n : Int
  /-- Whether a node records all assertions that rule it out. Otherwise it records the first alone,
  but only where the search stops at pruned nodes. -/
  recordAll : Bool

namespace SearchRule

def pruningAt (r : SearchRule) (p : Policy) (carried : List Numbered) (s : Suffix) : List Numbered :=
  let against := carried.filter fun a => a.1.effect s = .contradiction
  if !r.recordAll && p == .stopImmediately then against.take 1 else against

def undecidedAt (carried : List Numbered) (s : Suffix) : List Numbered :=
  carried.filter fun a => a.1.effect s = .undetermined

end SearchRule

/-- Visits children in turn. Below a pruned node the first valid child ends the visit. -/
def visit (pruned : Bool) (grow : Candidate → Metered Node) : List Candidate → Metered (List Node)
  | [] => pure []
  | c :: rest => do
    let child ← grow c
    if pruned && child.valid then return [child]
    else
      let others ← visit pruned grow rest
      return child :: others

def Node.join (c : Candidate) (after : Suffix) (pruning undecided : List Numbered) (visited : List Node) : Node :=
  let positions := pruning.map (·.2)
  let someValid := visited.any Node.valid
  if pruning.isEmpty then .mk c after positions (undecided.isEmpty || someValid) visited []
  else if someValid then .mk c after positions false [] visited
  else .mk c after positions false visited []

/-- Searches from the suffix `c :: after`. `room` bounds the candidates yet to be placed. -/
def grow (r : SearchRule) : (room : Nat) → Policy → List Numbered → (after : Suffix) → Candidate → Metered Node
  | 0, p, carried, after, c => do
    tick
    let s := c :: after
    return .join c after (r.pruningAt p carried s) (SearchRule.undecidedAt carried s) []
  | room + 1, p, carried, after, c => do
    tick
    let s := c :: after
    let pruning := r.pruningAt p carried s
    let undecided := SearchRule.undecidedAt carried s
    if undecided.isEmpty then return .join c after pruning undecided []
    else if pruning.isEmpty then
      let visited ← visit false (grow r room p undecided s) (unplaced r.n s)
      return .join c after pruning undecided visited
    else if p.continues (pruning.any (·.1.isNEB)) then
      let visited ← visit true (grow r room p.next undecided s) (unplaced r.n s)
      return .join c after pruning undecided visited
    else return .join c after pruning undecided []

def searchTree (r : SearchRule) (p : Policy) (carried : List Numbered) (c : Candidate) : Metered Node :=
  grow r r.n.toNat p carried [] c

namespace Node

mutual

/-- The node and the nodes that hang below it, each before its children and siblings in order. -/
def walk : Node → List Node
  | mk c s p v cs ds => mk c s p v cs ds :: walkAll cs

def walkAll : List Node → List Node
  | [] => []
  | x :: rest => x.walk ++ walkAll rest

end

mutual

/-- All nodes visited, discarded ones included, in the order of the visit. -/
def visited : Node → List Node
  | mk c s p v cs ds => mk c s p v cs ds :: (visitedAll cs ++ visitedAll ds)

def visitedAll : List Node → List Node
  | [] => []
  | x :: rest => x.visited ++ visitedAll rest

end

def size (x : Node) : Nat := x.visited.length

def maxDepth (x : Node) : Nat := (x.visited.map depth).foldl max 0

def prunedNodes (x : Node) : List Node := x.walk.filter pruned

def leaves (x : Node) : List Node := x.walk.filter (·.children.isEmpty)

/-- The first leaf whose suffix survives all assertions. -/
def firstValidLeaf (x : Node) : Option Node :=
  x.walk.find? fun y => y.valid && y.children.isEmpty && !y.pruned

mutual

def toValue : Node → Value
  | mk c _ p v cs _ => .record <|
    [("candidate", .int c), ("valid", .bool v)] ++
    (if p.isEmpty then [] else [("pruning_assertions", .ints (p.map Int.ofNat))]) ++
    (if cs.isEmpty then [] else [("children", .list (toValues cs))])

def toValues : List Node → List Value
  | [] => []
  | x :: rest => x.toValue :: toValues rest

end

end Node
end RunoffAudit
