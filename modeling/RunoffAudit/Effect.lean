import RunoffAudit.Assertion

/-! # The effect of an assertion on a suffix

An assertion either rules out every elimination order that ends in a suffix, or allows every such
order, or leaves the matter to the candidates not yet placed. Once decided, the effect stays the same
when more candidates are placed in front, so a search may drop an assertion as soon as it is decided.
-/
namespace RunoffAudit

inductive Effect where
  | contradiction
  | satisfied
  | undetermined
deriving DecidableEq

def Effect.word : Effect → String
  | contradiction => "contradiction"
  | satisfied => "satisfied"
  | undetermined => "undetermined"

namespace Assertion

/-- The later of the two candidates in the suffix decides: it must be the winner. -/
def nebEffect (winner loser : Candidate) (s : Suffix) : Effect :=
  match s.reverse.find? fun c => c = winner ∨ c = loser with
  | none => .undetermined
  | some c => if c = winner then .satisfied else .contradiction

/-- The part of a suffix that may be the round an NEN speaks of: the last `k` candidates. -/
def window (k : Nat) (s : Suffix) : Suffix := s.drop (s.length - k)

/-- A stranger in the window means that the round never happens. With a full window the round is
reached, and then the winner must not stand first. With a shorter one it is enough that the winner
has been placed, since somebody else is then eliminated before. -/
def nenEffect (winner : Candidate) (continuing : CandidateSet) (s : Suffix) : Effect :=
  let w := window continuing.size s
  if w.any (· ∉ continuing) then .satisfied
  else if continuing.size ≤ s.length then
    if w.head? = some winner then .contradiction else .satisfied
  else if winner ∈ s then .satisfied
  else .undetermined

def effect : Assertion → Suffix → Effect
  | neb w l, s => nebEffect w l s
  | nen w _ c, s => nenEffect w c s

def allows (a : Assertion) (order : Suffix) : Bool := a.effect order ≠ .contradiction

end Assertion
end RunoffAudit
