import RunoffAudit.Search.Tree

/-! # A search tree as a numbered list

The visited nodes of a tree, numbered in the order of the visit. A node comes after its parent, and
the numbers of its children ascend.
-/
namespace RunoffAudit

/-- A node of the list; other nodes are referred to by their numbers. -/
structure ArenaEntry where
  candidate : Candidate
  parent : Option Nat
  suffix : Suffix
  pruning : List Nat
  children : List Nat
  valid : Bool

namespace Node

def numbersFrom (start : Nat) : List Node → List Nat
  | [] => []
  | x :: rest => start :: numbersFrom (start + x.size) rest

mutual

/-- The entries of a tree whose root has the number `index`. -/
def arenaFrom (parent : Option Nat) (index : Nat) : Node → List ArenaEntry
  | mk c s p v cs ds =>
    ⟨c, parent, c :: s, p, numbersFrom (index + 1) cs, v⟩ ::
      (arenaAll index (index + 1) cs ++ arenaAll index (index + 1) ds)

def arenaAll (parent start : Nat) : List Node → List ArenaEntry
  | [] => []
  | x :: rest => arenaFrom (some parent) start x ++ arenaAll parent (start + x.size) rest

end

def arena (x : Node) : List ArenaEntry := arenaFrom none 0 x

end Node

/-- Visits the entries whose numbers are on a stack, and puts the children of a visited entry on top of the
stack. `room` bounds the number of visits. -/
def arenaWalkFrom (arena : List ArenaEntry) : (room : Nat) → (stack : List Nat) → List Nat
  | 0, _ => []
  | _ + 1, [] => []
  | room + 1, i :: rest =>
    let children := (arena[i]?.map ArenaEntry.children).getD []
    i :: arenaWalkFrom arena room (children ++ rest)

/-- The numbers of the entries that can be reached from the first one, in the order in which they are visited. -/
def arenaWalk (arena : List ArenaEntry) : List Nat := arenaWalkFrom arena arena.length [0]

end RunoffAudit
