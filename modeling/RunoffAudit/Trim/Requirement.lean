import RunoffAudit.Search.Tree

/-! # Requirements

What must be selected so that a candidate stays ruled out, as an expression over the positions of the
assertions. A pruned node is met by any of its assertions, or by all of its children where the search
went on below it; any other node is met by all of its children. A leaf that nothing prunes has no way
to be met.

Finding the smallest selection that meets a list of requirements is a hitting-set problem, so two
passes choose instead: first whatever a pruned node cannot do without, then for each pruned node not
yet met its first assertion.
-/
namespace RunoffAudit

inductive Requirement (ι : Type) where
  | choice (i : ι)
  /-- All parts must be met, and there must be some. -/
  | all (parts : List (Requirement ι))
  | any (options : List (Requirement ι))
deriving Inhabited

namespace Requirement

variable {ι : Type}

mutual

/-- What must be selected for a node to stay eliminated. -/
def ofNode : Node → Requirement Nat
  | .mk _ _ pruning _ children _ =>
    let below := ofNodes children
    if pruning.isEmpty then all below
    else any (pruning.map choice ++ if children.isEmpty then [] else [all below])

def ofNodes : List Node → List (Requirement Nat)
  | [] => []
  | x :: rest => ofNode x :: ofNodes rest

end

section Selection

variable [DecidableEq ι]

mutual

def isMet (selected : List ι) : Requirement ι → Bool
  | choice i => i ∈ selected
  | all parts => !parts.isEmpty && allMet selected parts
  | any options => anyMet selected options

def allMet (selected : List ι) : List (Requirement ι) → Bool
  | [] => true
  | r :: rest => isMet selected r && allMet selected rest

def anyMet (selected : List ι) : List (Requirement ι) → Bool
  | [] => false
  | r :: rest => isMet selected r || anyMet selected rest

end

mutual

/-- Selects what the requirement cannot be met without: choices that are the only option. -/
def selectForced : Requirement ι → (selected : List ι) → List ι
  | choice i, selected => selected.insert i
  | all parts, selected => selectForcedAll parts selected
  | any [choice i], selected => selected.insert i
  | any _, selected => selected

def selectForcedAll : List (Requirement ι) → (selected : List ι) → List ι
  | [], selected => selected
  | r :: rest, selected => selectForcedAll rest (selectForced r selected)

end

/-- The first option that is a choice. -/
def firstChoice? : List (Requirement ι) → Option ι
  | [] => none
  | choice i :: _ => some i
  | _ :: rest => firstChoice? rest

mutual

/-- Selects the first choice of every disjunction not yet met, at one unit of work per requirement
visited. There is no result if a disjunction to be met offers no choice. -/
def selectRemaining : Requirement ι → (selected : List ι) → Metered (Option (List ι))
  | choice i, selected => do
    tick
    return some (selected.insert i)
  | all parts, selected => do
    tick
    selectRemainingAll parts selected
  | any options, selected => do
    tick
    if anyMet selected options then return some selected
    else return (firstChoice? options).map selected.insert

def selectRemainingAll : List (Requirement ι) → (selected : List ι) → Metered (Option (List ι))
  | [], selected => return some selected
  | r :: rest, selected => do
    match ← selectRemaining r selected with
    | none => return none
    | some selected => selectRemainingAll rest selected

end

def choose (requirements : List (Requirement ι)) : Metered (Option (List ι)) :=
  selectRemainingAll requirements (selectForcedAll requirements [])

end Selection
end Requirement
end RunoffAudit
