import RunoffAudit.Search.Arena
import RunoffAudit.Search.Unchecked

/-! # Building the numbered list with a stack

A search need not follow the shape of its tree. Here the visited nodes go straight into their list, and a
stack remembers which nodes still have children to be visited, the deepest first. One turn visits one
more child, or takes a node off the stack that has none left and reports it to its parent. The number of
turns is bounded by what the candidates left open allow, and nothing is done in turns with an empty stack.
-/
namespace RunoffAudit

structure Frame where
  node : Nat
  /-- The assertions that the node leaves undetermined. -/
  carried : List Numbered
  /-- The policy for the children. -/
  policy : Policy
  untried : List Candidate

structure Construction where
  arena : List ArenaEntry
  /-- The nodes with children to be visited, the deepest first. -/
  stack : List Frame

namespace SearchRule

/-- Evaluates assertions on a suffix one after the other: those that contradict it, and those that it leaves
undetermined. If the first contradiction is enough, no assertion behind it is evaluated. -/
def judge (stopsAtFirst : Bool) (s : Suffix) : List Numbered → List Numbered × List Numbered
  | [] => ([], [])
  | a :: rest =>
    match a.1.effect s with
    | .contradiction =>
      if stopsAtFirst then ([a], [])
      else
        let (against, undecided) := judge stopsAtFirst s rest
        (a :: against, undecided)
    | .undetermined =>
      let (against, undecided) := judge stopsAtFirst s rest
      (against, a :: undecided)
    | .satisfied => judge stopsAtFirst s rest

/-- The suffix of a node, or the empty one for the parent of the root. -/
def suffixAt (arena : List ArenaEntry) (parent : Option Nat) : Suffix :=
  ((parent.bind (arena[·]?)).map ArenaEntry.suffix).getD []

/-- Puts a node at the end of the list. There is a frame for it if its children are to be visited. -/
def place (r : SearchRule) (arena : List ArenaEntry) (parent : Option Nat) (c : Candidate) (carried : List Numbered)
    (p : Policy) : List ArenaEntry × Option Frame :=
  let s := c :: suffixAt arena parent
  let (against, undecided) := judge (r.stopsAtFirst p) s carried
  let entry : ArenaEntry :=
    ⟨c, parent, s, against.map (·.2), [], against.isEmpty && undecided.isEmpty⟩
  let frame (q : Policy) : Frame := ⟨arena.length, undecided, q, unplaced r.n s⟩
  (arena ++ [entry],
    if undecided.isEmpty then none
    else if against.isEmpty then some (frame p)
    else if p.continues (against.any (·.1.isNEB)) then some (frame p.next)
    else none)

def enter (r : SearchRule) (arena : List ArenaEntry) (parent : Option Nat) (c : Candidate) (carried : List Numbered)
    (p : Policy) : Metered (List ArenaEntry × Option Frame) := do
  tick
  return r.place arena parent c carried p

/-- Reports a finished child to its parent. Below a pruned node a valid child ends the visit, and all
children are dropped. -/
def report (arena : List ArenaEntry) (f : Frame) (child : Nat) : List ArenaEntry × Frame :=
  if arena[child]?.any ArenaEntry.valid then
    if arena[f.node]?.any fun e => !e.pruning.isEmpty then
      (arena.modify f.node fun e => { e with children := [] }, { f with untried := [] })
    else (arena.modify f.node fun e => { e with valid := true, children := e.children ++ [child] }, f)
  else (arena.modify f.node fun e => { e with children := e.children ++ [child] }, f)

def turn (r : SearchRule) : Construction → Metered Construction
  | ⟨arena, []⟩ => return ⟨arena, []⟩
  | ⟨arena, [⟨_, _, _, []⟩]⟩ => return ⟨arena, []⟩
  | ⟨arena, ⟨node, _, _, []⟩ :: f :: below⟩ =>
    let (arena, f) := report arena f node
    return ⟨arena, f :: below⟩
  | ⟨arena, ⟨node, carried, p, c :: untried⟩ :: below⟩ => do
    let f : Frame := ⟨node, carried, p, untried⟩
    let (arena, frame) ← r.enter arena (some node) c carried p
    match frame with
    | some child => return ⟨arena, child :: f :: below⟩
    | none =>
      let (arena, f) := report arena f (arena.length - 1)
      return ⟨arena, f :: below⟩

def run (r : SearchRule) : (turns : Nat) → Construction → Metered Construction
  | 0, m => pure m
  | turns + 1, m => if m.stack.isEmpty then pure m else do run r turns (← r.turn m)

end SearchRule

/-- The turns for the children of a node that leaves `k` candidates open, and for taking it off the stack. -/
def turnsFor : (k : Nat) → Nat
  | 0 => 1
  | k + 1 => (k + 1) * (1 + turnsFor k) + 1

/-- The visited nodes of a candidate's search, built with a stack. -/
def buildArena (r : SearchRule) (p : Policy) (carried : List Numbered) (c : Candidate) :
    Metered (List ArenaEntry) := do
  let (arena, frame) ← r.enter [] none c carried p
  match frame with
  | none => return arena
  | some f =>
    let finished ← r.run (turnsFor f.untried.length) ⟨arena, [f]⟩
    return finished.arena

/-- The same for the assertions at the given positions of an unchecked contest. -/
def buildArenaChecked (r : SearchRule) (p : Policy) (assertions : List Assertion) (positions : List Nat)
    (c : Candidate) : Metered (Except ContestError (List ArenaEntry)) :=
  match SearchRule.checkAt (r.stopsAtFirst p) assertions [c] positions with
  | .error e => stopWith e
  | .ok () => return .ok (← buildArena r p (numberedAt assertions positions) c)

end RunoffAudit
