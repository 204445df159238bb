import RunoffAudit.Elimination.Frontier
import RunoffAudit.Search.Tree

/-! # Searches of unchecked contests

An NEN with an empty continuing set speaks of a round in which nobody is left. A well-formed contest has
no such assertion, and the searches never ask what one means. The searches of this module take contests
that were not checked: as soon as such an assertion would have to be evaluated, they end. On all other
contests they are the plain searches.
-/
namespace RunoffAudit

/-- What a search of an unchecked contest can meet. -/
inductive ContestError where
  | noRound
  | noAssertion
deriving DecidableEq

def ContestError.message : ContestError → String
  | noRound => "tuple index out of range"
  | noAssertion => "list index out of range"

namespace Assertion

/-- Is the assertion an NEB, or an NEN about a round with somebody left? -/
def hasRound : Assertion → Bool
  | neb _ _ => true
  | nen _ _ c => !c.members.isEmpty

def checkedEffect (a : Assertion) (s : Suffix) : Except ContestError Effect :=
  if a.hasRound then .ok (a.effect s) else .error .noRound

end Assertion

def stopWith {α : Type} (e : ContestError) : Metered (Except ContestError α) := do
  tick
  return .error e

def expandChecked (a : Assertion) (n : Int) (keep : Bool) (frontier : List Suffix) :
    Metered (Except ContestError (List Suffix)) :=
  if a.hasRound ∨ frontier = [] then return .ok (← expandAll a n keep frontier)
  else stopWith .noRound

def leadingRounds (assertions : List Assertion) : List Assertion := assertions.takeWhile Assertion.hasRound

/-- The suffixes that survive all assertions, which are applied one after the other. An assertion is not
evaluated if nothing has survived until then. -/
def allowedSuffixesChecked (n : Int) (assertions : List Assertion) :
    Metered (Except ContestError (List Suffix)) := do
  let frontier ← allowedSuffixes n (leadingRounds assertions)
  if frontier = [] ∨ assertions.all Assertion.hasRound then return .ok frontier
  else stopWith .noRound

/-- The orders that every assertion allows. For each order the assertions are evaluated up to the first
that does not allow it. -/
def allowedOrdersChecked (n : Int) (assertions : List Assertion) : Except ContestError (List Suffix) :=
  let orders := allowedOrders n (leadingRounds assertions)
  if orders = [] ∨ assertions.all Assertion.hasRound then .ok orders else .error .noRound

namespace SearchRule

/-- Does a node that some assertion contradicts leave the assertions behind it unevaluated? -/
def stopsAtFirst (r : SearchRule) (p : Policy) : Bool := !r.recordAll && p == .stopImmediately

/-- Evaluates the assertions at the given positions on a suffix, up to the first contradiction if that
settles the node. -/
def checkAt (stopsAtFirst : Bool) (assertions : List Assertion) (s : Suffix) :
    List Nat → Except ContestError Unit
  | [] => .ok ()
  | i :: rest =>
    match assertions[i]? with
    | none => .error .noAssertion
    | some a => do
      let e ← a.checkedEffect s
      if stopsAtFirst && e = .contradiction then return ()
      else checkAt stopsAtFirst assertions s rest

end SearchRule

/-- The search tree of a candidate for the assertions at the given positions. What is not evaluated at the
root is not evaluated below it. -/
def searchTreeChecked (r : SearchRule) (p : Policy) (assertions : List Assertion) (positions : List Nat)
    (c : Candidate) : Metered (Except ContestError Node) :=
  match SearchRule.checkAt (r.stopsAtFirst p) assertions [c] positions with
  | .error e => stopWith e
  | .ok () => return .ok (← searchTree r p (numberedAt assertions positions) c)

theorem checkAt_eq_ok {stopsAtFirst : Bool} {assertions : List Assertion} {s : Suffix} {positions : List Nat}
    (hr : ∀ a ∈ assertions, a.hasRound) (hp : ∀ i ∈ positions, i < assertions.length) :
    SearchRule.checkAt stopsAtFirst assertions s positions = .ok () := by
  induction positions with
  | nil => rfl
  | cons i rest ih =>
    have hi := hp i (.head rest)
    have ha := hr assertions[i] (List.getElem_mem hi)
    have hrest := ih fun j hj => hp j (.tail i hj)
    simp only [SearchRule.checkAt, List.getElem?_eq_getElem hi, Assertion.checkedEffect, ha, if_true]
    show (if _ then _ else _) = _
    split
    · rfl
    · exact hrest

theorem searchTreeChecked_eq {r : SearchRule} {p : Policy} {assertions : List Assertion} {positions : List Nat}
    {c : Candidate} (hr : ∀ a ∈ assertions, a.hasRound) (hp : ∀ i ∈ positions, i < assertions.length) :
    searchTreeChecked r p assertions positions c =
      (.ok <$> searchTree r p (numberedAt assertions positions) c) := by
  simp only [searchTreeChecked, checkAt_eq_ok hr hp]
  exact (map_eq_pure_bind _ _).symm

end RunoffAudit
