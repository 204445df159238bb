import RunoffAudit.Assertion
import RunoffAudit.Budget
import RunoffAudit.Search.Policy
import RunoffAudit.Trim.Algorithm

/-! # Problems

A problem is a contest with its declared winner and its assertions, and the settings for working on it.
-/
namespace RunoffAudit

structure Limits where
  work : Option Int
  seconds : Option Float

structure Problem where
  name : Text
  n : Int
  winner : Candidate
  assertions : List Assertion
  /-- The names of the candidates; none are given if the list is empty. -/
  names : List Text
  algorithm : TrimAlgorithm
  continuation : Option Policy
  sortAssertions : Bool
  checkWinner : Bool
  limits : Limits

namespace Limits

def toBudget (l : Limits) (now : Float) : Except LimitError Budget := Budget.make l.work l.seconds now

def fields (l : Limits) : List (String × Value) :=
  (l.work.map fun w => ("work_limit", Value.int w)).toList ++
  (l.seconds.map fun s => ("seconds_limit", Value.float s)).toList

end Limits

namespace Problem

def schemaVersion : String := "1"

/-- The names given, or else the candidates' numbers. -/
def candidateNames (p : Problem) : List Text :=
  if p.names = [] then (List.range p.n.toNat).map fun i => toString i else p.names

/-- The fields of a problem's document. Settings that are not made are left out. -/
def fields (p : Problem) : List (String × Value) :=
  [("schema_version", .text schemaVersion), ("name", .ofText p.name), ("num_candidates", .int p.n),
    ("winner", .int p.winner), ("assertions", .list (p.assertions.map Assertion.toValue)),
    ("trim_algorithm", .text p.algorithm.word), ("sort_assertions", .bool p.sortAssertions),
    ("check_winner", .bool p.checkWinner)] ++
  (if p.names = [] then [] else [("candidates", .list (p.names.map .ofText))]) ++
  (p.continuation.map fun c => ("continuation", Value.text c.word)).toList ++
  (if p.limits.fields = [] then [] else [("budget", .record p.limits.fields)])

def toValue (p : Problem) : Value := .record p.fields

end Problem
end RunoffAudit
