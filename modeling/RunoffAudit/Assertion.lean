import RunoffAudit.Document.Value

/-! # Assertions about an instant-runoff count

In an instant-runoff count one candidate is eliminated per round until one is left. An elimination
order lists the candidates from the first eliminated to the final survivor. Two kinds of assertion
rule orders out:

* NEB, "not eliminated before": the winner is never eliminated before the loser;
* NEN, "not eliminated next": when exactly the continuing candidates are left, the winner is not the
  one eliminated next.
-/
namespace RunoffAudit

/-- Candidates are numbered from zero. An assertion may name a number that no candidate has. -/
abbrev Candidate := Int

/-- The tail of an elimination order, the final survivor last. What came earlier is left open. -/
abbrev Suffix := List Candidate

def insertAscending (c : Candidate) : List Candidate → List Candidate
  | [] => [c]
  | d :: rest => if c < d then c :: d :: rest else if c = d then d :: rest else d :: insertAscending c rest

theorem mem_insertAscending {c x : Candidate} {l : List Candidate} :
    x ∈ insertAscending c l ↔ x = c ∨ x ∈ l := by
  induction l with
  | nil => simp [insertAscending]
  | cons d rest ih => grind [insertAscending]

theorem pairwise_insertAscending (c : Candidate) {l : List Candidate} (h : l.Pairwise (· < ·)) :
    (insertAscending c l).Pairwise (· < ·) := by
  induction l with
  | nil => simp [insertAscending]
  | cons d rest ih =>
    rw [insertAscending]
    have hd := List.pairwise_cons.1 h
    split
    · exact .cons (by grind) h
    · split
      · exact h
      · exact .cons (by grind [mem_insertAscending]) (ih hd.2)

/-- A finite set of candidates. Its members are listed in ascending order, so equal sets are equal. -/
structure CandidateSet where
  members : List Candidate
  ascending : members.Pairwise (· < ·)
deriving DecidableEq

namespace CandidateSet

def ofList : List Candidate → CandidateSet
  | [] => ⟨[], .nil⟩
  | c :: rest =>
    let s := ofList rest
    ⟨insertAscending c s.members, pairwise_insertAscending c s.ascending⟩

instance : Membership Candidate CandidateSet := ⟨fun s c => c ∈ s.members⟩

instance (c : Candidate) (s : CandidateSet) : Decidable (c ∈ s) :=
  inferInstanceAs (Decidable (c ∈ s.members))

def size (s : CandidateSet) : Nat := s.members.length

theorem mem_ofList {c : Candidate} {l : List Candidate} : c ∈ ofList l ↔ c ∈ l := by
  induction l with
  | nil => exact Iff.rfl
  | cons d rest ih =>
    rw [List.mem_cons, ← ih]
    exact mem_insertAscending

end CandidateSet

inductive Assertion where
  | neb (winner loser : Candidate)
  /-- The winner is not the next eliminated when exactly `continuing` are left. The loser, who
  is among them, has fewer votes at that point. -/
  | nen (winner loser : Candidate) (continuing : CandidateSet)
deriving DecidableEq

namespace Assertion

def winner : Assertion → Candidate
  | neb w _ => w
  | nen w _ _ => w

def loser : Assertion → Candidate
  | neb _ l => l
  | nen _ l _ => l

def isNEB : Assertion → Bool
  | neb _ _ => true
  | nen _ _ _ => false

def mentioned : Assertion → List Candidate
  | neb w l => [w, l]
  | nen w l c => w :: l :: c.members

/-- Can its candidates be written as numbers? -/
def isWritable (a : Assertion) : Bool := (Value.ints a.mentioned).isWritable

def kind : Assertion → String
  | neb _ _ => "NEB"
  | nen _ _ _ => "NEN"

def toValue (a : Assertion) : Value :=
  .record <| [("type", .text a.kind), ("winner", .int a.winner), ("loser", .int a.loser)] ++
    match a with
    | neb _ _ => []
    | nen _ _ c => [("continuing", .ints c.members)]

end Assertion

abbrev Numbered := Assertion × Nat

def numbered (assertions : List Assertion) : List Numbered := assertions.zipIdx

/-- The assertions at the given positions; positions past the end are passed over. -/
def numberedAt (assertions : List Assertion) (positions : List Nat) : List Numbered :=
  positions.filterMap fun i => assertions[i]?.map (·, i)

/-- The name of a candidate: its entry in `names`, or its number where there is none. -/
def nameIn (names : List Text) (c : Candidate) : Text :=
  match c with
  | .ofNat i => names.getD i (toString c)
  | .negSucc _ => toString c

def Assertion.describe (names : List Text) (a : Assertion) : Text :=
  let beats := nameIn names a.winner ++ " beats " ++ nameIn names a.loser
  match a with
  | neb _ _ => beats
  | nen _ _ c =>
    beats ++ " if only \x7b" ++ Text.intercalate "," (c.members.map (nameIn names)) ++ "\x7d remain"

end RunoffAudit
