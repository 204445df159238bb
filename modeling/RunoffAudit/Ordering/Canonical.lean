import RunoffAudit.Assertion

/-! # The canonical order of assertions

NEBs come before NENs, NENs with fewer continuing candidates before larger ones; ties are broken by
winner, loser and continuing candidates. Equal assertions keep the order in which they were given.
-/
namespace RunoffAudit

/-- The rank of an assertion's kind, the size of its continuing set, its winner and its loser. -/
def Assertion.rank : Assertion → List Int
  | .neb w l => [0, 0, w, l]
  | .nen w l c => [1, c.size, w, l]

def Assertion.tieBreak : Assertion → List Int
  | .neb _ _ => []
  | .nen _ _ c => c.members

/-- Is one list of numbers at or before another in dictionary order? -/
def atOrBefore : List Int → List Int → Bool
  | [], _ => true
  | _ :: _, [] => false
  | a :: as, b :: bs => a < b || (a = b && atOrBefore as bs)

def Assertion.canonicalKey (a : Assertion) : List Int := a.rank ++ a.tieBreak

def canonicalOrder (assertions : List Assertion) : List Nat :=
  ((numbered assertions).mergeSort fun x y => atOrBefore x.1.canonicalKey y.1.canonicalKey).map (·.2)

end RunoffAudit
