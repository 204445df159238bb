import RunoffAudit.Effect

/-! # Elimination orders

The elimination orders of `n` candidates are the arrangements of `0, ..., n - 1`. They are listed by
putting the newest candidate into every slot of every order of the others.
-/
namespace RunoffAudit

def candidates (n : Int) : List Candidate := (List.range n.toNat).map Int.ofNat

/-- The candidates of a contest that a suffix leaves open, in ascending order. -/
def unplaced (n : Int) (s : Suffix) : List Candidate := (candidates n).filter (· ∉ s)

/-- Every way to put `c` into a list, first slot first. -/
def slots (c : Candidate) : Suffix → List Suffix
  | [] => [[c]]
  | d :: rest => (c :: d :: rest) :: (slots c rest).map (d :: ·)

def ordersOf : Nat → List Suffix
  | 0 => [[]]
  | k + 1 => (ordersOf k).flatMap (slots k)

/-- All elimination orders of a contest; without candidates there is the empty one. -/
def allOrders (n : Int) : List Suffix := ordersOf n.toNat

def singleSuffixes (n : Int) : List Suffix := (candidates n).map fun c => [c]

def allowedOrders (n : Int) (assertions : List Assertion) : List Suffix :=
  (allOrders n).filter fun order => assertions.all fun a => a.effect order = .satisfied

theorem mem_candidates {n c : Int} : c ∈ candidates n ↔ 0 ≤ c ∧ c < n := by
  simp only [candidates, List.mem_map, List.mem_range]
  constructor
  · rintro ⟨i, hi, rfl⟩
    show (0 : Int) ≤ i ∧ (i : Int) < n
    omega
  · intro h
    refine ⟨c.toNat, by omega, ?_⟩
    show (c.toNat : Int) = c
    omega

theorem mem_unplaced {n c : Int} {s : Suffix} : c ∈ unplaced n s ↔ (0 ≤ c ∧ c < n) ∧ c ∉ s := by
  simp [unplaced, mem_candidates]

end RunoffAudit
