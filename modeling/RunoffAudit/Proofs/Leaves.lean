import RunoffAudit.Proofs.Growth

/-! # The valid leaves of a search tree

Whatever the policy, a tree is valid exactly if something survives its assertions, and its valid leaves
are the survivors in their order. Below a pruned node there is nothing valid.
-/
namespace RunoffAudit

namespace Node

theorem walkAll_eq_flatMap (xs : List Node) : walkAll xs = xs.flatMap walk := by
  induction xs with
  | nil => rfl
  | cons x rest ih => rw [walkAll,ih,List.flatMap_cons]

def isValidLeaf (y : Node) : Bool := y.valid && y.children.isEmpty && !y.pruned

def validLeaves (x : Node) : List Suffix := (x.walk.filter isValidLeaf).map suffix

theorem firstValidLeaf_map_suffix (x : Node) : x.firstValidLeaf.map suffix = x.validLeaves.head? := by
  rw [validLeaves,List.head?_map,List.head?_filter]
  rfl

theorem validLeaves_mk (c : Candidate) (after : Suffix) (p : List Nat) (v : Bool) (cs ds : List Node) :
    (mk c after p v cs ds).validLeaves =
      (if v && cs.isEmpty && p.isEmpty then [c :: after] else []) ++ cs.flatMap validLeaves := by
  have hroot : (mk c after p v cs ds).isValidLeaf = (v && cs.isEmpty && p.isEmpty) := by
    simp [isValidLeaf,valid,children,pruned,pruning]
  rw [validLeaves,walk,walkAll_eq_flatMap,List.filter_cons,hroot]
  have hrest : ((cs.flatMap walk).filter isValidLeaf).map suffix = cs.flatMap validLeaves := by
    rw [List.filter_flatMap,List.map_flatMap]
    rfl
  split
  · rw [List.map_cons,hrest]
    rfl
  · rw [hrest,List.nil_append]

end Node

namespace SearchRule
variable {r : SearchRule} {p : Policy} {carried : List Numbered} {after : Suffix} {c : Candidate} {x : Node}

theorem settled_map_iff {s : Suffix} : settled (carried.map (·.1)) s = true ↔
    r.pruningAt p carried s ≠ [] ∨ undecidedAt carried s = [] := by
  rw [settled_iff,← undecidedAt_map,List.map_eq_nil_iff,ne_eq,pruningAt_eq_nil_iff,Bool.not_eq_false]

theorem settled_open {s : Suffix} (hpruned : r.pruningAt p carried s = [])
    (hundecided : undecidedAt carried s ≠ []) : settled (carried.map (·.1)) s = false := by
  apply Bool.eq_false_iff.mpr
  intro hstop
  rcases settled_map_iff.mp hstop with h | h
  · exact h hpruned
  · exact hundecided h

/-- Survivors are found among those of the children where some assertion is left undetermined. -/
theorem survivors_open (hpruned : r.pruningAt p carried (c :: after) = [])
    (hundecided : undecidedAt carried (c :: after) ≠ []) (hs : Placed r.n (c :: after)) :
    survivors r.n (carried.map (·.1)) (c :: after) = (unplaced r.n (c :: after)).flatMap fun d =>
      survivors r.n ((undecidedAt carried (c :: after)).map (·.1)) (d :: c :: after) := by
  obtain ⟨hr,hg⟩ := Bool.or_eq_false_iff.mp (settled_open hpruned hundecided)
  rw [survivors_of_open hr hg]
  apply List.flatMap_congr
  intro d hd
  rw [undecidedAt_map]
  exact survivors_undecided hr (hs.cons hd) (List.suffix_cons d _)

theorem survivors_pruned (hpruned : r.pruningAt p carried (c :: after) ≠ []) :
    survivors r.n (carried.map (·.1)) (c :: after) = [] := by
  apply survivors_of_refuted
  by_contra hr
  exact hpruned (pruningAt_eq_nil_iff.mpr (Bool.eq_false_iff.mpr hr))

theorem survivors_decided (hpruned : r.pruningAt p carried (c :: after) = [])
    (hundecided : undecidedAt carried (c :: after) = []) :
    survivors r.n (carried.map (·.1)) (c :: after) = [c :: after] := by
  apply survivors_of_granted
  apply granted_eq_true_iff.mpr
  intro a ha
  apply satisfied_of_not_undecided (pruningAt_eq_nil_iff.mp hpruned) ha
  rw [← undecidedAt_map,hundecided]
  exact List.not_mem_nil

theorem wellFormed_undecidedAt {s : Suffix} (ha : ∀ x ∈ carried, x.1.WellFormed r.n) :
    ∀ x ∈ undecidedAt carried s, x.1.WellFormed r.n :=
  fun x hx => ha x (mem_undecidedAt.mp hx).1

theorem unplaced_ne_nil (ha : ∀ x ∈ carried, x.1.WellFormed r.n)
    (hundecided : undecidedAt carried (c :: after) ≠ []) (hs : Placed r.n (c :: after)) :
    unplaced r.n (c :: after) ≠ [] := by
  intro hnil
  obtain ⟨x,hx⟩ := List.exists_mem_of_ne_nil _ hundecided
  obtain ⟨hx,he⟩ := mem_undecidedAt.mp hx
  exact Assertion.effect_ne_undetermined_of_isOrder (ha x hx) (hs.isOrder_of_unplaced hnil) he

theorem Builds.valid_iff (h : r.Builds p carried after c x) (hs : Placed r.n (c :: after)) :
    x.valid = true ↔ survivors r.n (carried.map (·.1)) (c :: after) ≠ [] := by
  induction h with
  | @decided p carried after c hu =>
    by_cases hp : r.pruningAt p carried (c :: after) = []
    · simp [Node.valid,hp,survivors_decided hp hu]
    · simp [Node.valid,hp,survivors_pruned hp]
  | stopped hp hu hc => simp [Node.valid,survivors_pruned hp]
  | opened hp hu hchild ih =>
    rw [survivors_open hp hu hs,ne_eq,List.flatMap_eq_nil_iff]
    simp only [Node.valid,List.any_eq_true,not_forall]
    constructor
    · rintro ⟨d,hd,hv⟩
      exact ⟨d,hd,(ih d hd (hs.cons hd)).mp hv⟩
    · rintro ⟨d,hd,hne⟩
      exact ⟨d,hd,(ih d hd (hs.cons hd)).mpr hne⟩
  | passed hp hu hc hchild hv ih => simp [Node.valid,survivors_pruned hp]
  | dropped hp hu hc hchild hv ih => simp [Node.valid,survivors_pruned hp]

theorem Builds.validLeaves_eq (h : r.Builds p carried after c x) (hs : Placed r.n (c :: after)) :
    x.validLeaves = survivors r.n (carried.map (·.1)) (c :: after) := by
  induction h with
  | @decided p carried after c hu =>
    by_cases hp : r.pruningAt p carried (c :: after) = []
    · simp [Node.validLeaves_mk,hp,survivors_decided hp hu]
    · simp [Node.validLeaves_mk,hp,survivors_pruned hp]
  | stopped hp hu hc => simp [Node.validLeaves_mk,survivors_pruned hp]
  | @opened p carried after c hp hu child hchild ih =>
    have hroot : ((unplaced r.n (c :: after)).any (fun d => (child d).valid) &&
        ((unplaced r.n (c :: after)).map child).isEmpty) = false := by
      cases unplaced r.n (c :: after) <;> simp
    rw [Node.validLeaves_mk,hroot,survivors_open hp hu hs,List.flatMap_map]
    simp only [Bool.false_and,Bool.false_eq_true,if_false,List.nil_append]
    apply List.flatMap_congr
    intro d hd
    exact ih d hd (hs.cons hd)
  | passed hp hu hc hchild hv ih =>
    rw [Node.validLeaves_mk,survivors_pruned hp,List.flatMap_map]
    simp only [Bool.false_and,Bool.false_eq_true,if_false,List.nil_append]
    apply List.flatMap_eq_nil_iff.mpr
    intro d hd
    have hv' := hv d hd
    rw [ih d hd (hs.cons hd)]
    by_contra hne
    rw [((hchild d hd).valid_iff (hs.cons hd)).mpr hne] at hv'
    cases hv'
  | dropped hp hu hc hchild hv ih => simp [Node.validLeaves_mk,survivors_pruned hp]

end SearchRule
end RunoffAudit
