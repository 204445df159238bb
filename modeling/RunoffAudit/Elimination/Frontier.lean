import RunoffAudit.Elimination.Order
import RunoffAudit.Budget

/-! # Frontiers

A frontier is a list of suffixes that together stand for the elimination orders still in question. An
assertion is applied to a frontier by placing candidates in front of each suffix just until the
assertion is decided there, and by dropping what it contradicts. Starting from short suffixes this
is usually far cheaper than listing all orders.
-/
namespace RunoffAudit

/-- Runs `f` on `left` candidates from `c` on, those in `s` left out, and joins the results. -/
def gatherUnplaced {α : Type} (s : Suffix) (f : Candidate → Metered (List α)) :
    (left : Nat) → (c : Candidate) → Metered (List α)
  | 0, _ => pure []
  | left + 1, c =>
    if c ∈ s then gatherUnplaced s f left (c + 1)
    else do
      let here ← f c
      let rest ← gatherUnplaced s f left (c + 1)
      return here ++ rest

/-- The suffixes below `s` that the assertion decides. `room` bounds the candidates yet to be placed. -/
def expandWithin (a : Assertion) (n : Int) (keep : Bool) : (room : Nat) → Suffix → Metered (List Suffix)
  | 0, s => do
    tick
    match a.effect s with
    | .satisfied => return [s]
    | .contradiction => return if keep then [s] else []
    | .undetermined => return []
  | room + 1, s => do
    tick
    match a.effect s with
    | .satisfied => return [s]
    | .contradiction => return if keep then [s] else []
    | .undetermined => gatherUnplaced s (fun c => expandWithin a n keep room (c :: s)) n.toNat 0

/-- The shortest suffixes that end in `s` and that the assertion decides; the contradicted ones are
among them only if `keep` is set. -/
def expand (a : Assertion) (n : Int) (keep : Bool) (s : Suffix) : Metered (List Suffix) :=
  expandWithin a n keep n.toNat s

def expandAll (a : Assertion) (n : Int) (keep : Bool) : List Suffix → Metered (List Suffix)
  | [] => pure []
  | s :: rest => do
    let here ← expand a n keep s
    let others ← expandAll a n keep rest
    return here ++ others

def applyAll (n : Int) : List Assertion → List Suffix → Metered (List Suffix)
  | [], frontier => pure frontier
  | a :: rest, frontier => do applyAll n rest (← expandAll a n false frontier)

/-- The shortest suffixes that stand for exactly the orders which survive all assertions. -/
def allowedSuffixes (n : Int) (assertions : List Assertion) : Metered (List Suffix) :=
  applyAll n assertions [[]]

end RunoffAudit
