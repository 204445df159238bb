import RunoffAudit.Proofs.Survivors
import RunoffAudit.Proofs.Work
import RunoffAudit.Search.Tree

/-! # What a search builds

A search spends one unit for every node it visits and returns a tree that does not depend on its budget.
The relation `SearchRule.Builds` says once which nodes there can be: one where nothing is left
undetermined, a pruned one that the policy does not search further, an unpruned one with a child for
every open candidate, and pruned ones that were searched further, without a valid child or with all
children dropped.
-/
namespace RunoffAudit
open Metered

/-- The children of a visit. Below a pruned node the first valid child ends it. -/
def visitedChildren (pruned : Bool) (child : Candidate → Node) : List Candidate → List Node
  | [] => []
  | c :: rest =>
    if pruned && (child c).valid then [child c] else child c :: visitedChildren pruned child rest

section Visit
variable {pruned : Bool} {child : Candidate → Node} {cs : List Candidate}

theorem visitedChildren_false : visitedChildren false child cs = cs.map child := by
  induction cs with
  | nil => rfl
  | cons c rest ih => simp [visitedChildren,ih]

theorem visitedChildren_of_invalid (pruned : Bool) (h : ∀ c ∈ cs, (child c).valid = false) :
    visitedChildren pruned child cs = cs.map child := by
  induction cs with
  | nil => rfl
  | cons c rest ih =>
    have hc := h c List.mem_cons_self
    have hrest := ih fun d hd => h d (List.mem_cons_of_mem c hd)
    simp [visitedChildren,hc,hrest]

theorem any_valid_visitedChildren :
    (visitedChildren pruned child cs).any Node.valid = cs.any fun c => (child c).valid := by
  induction cs with
  | nil => rfl
  | cons c rest ih =>
    rw [visitedChildren]
    by_cases h : (pruned && (child c).valid) = true
    · have hv : (child c).valid = true := (Bool.and_eq_true_iff.mp h).2
      rw [if_pos h]
      simp [hv]
    · rw [if_neg h]
      simp [ih]

theorem visit_takes {search : Candidate → Metered Node}
    (h : ∀ c, (search c).Takes (child c).size (child c)) :
    (visit pruned search cs).Takes (Node.visitedAll (visitedChildren pruned child cs)).length
      (visitedChildren pruned child cs) := by
  induction cs with
  | nil => exact takes_pure []
  | cons c rest ih =>
    rw [visit,visitedChildren]
    by_cases hv : (pruned && (child c).valid) = true
    · have hstop := (h c).bind (f := fun x => if (pruned && x.valid) = true then pure [x]
        else do return x :: (← visit pruned search rest)) (k := 0) (y := [child c])
        (by rw [if_pos hv]; exact takes_pure _)
      simpa [hv,Node.visitedAll,Node.size] using hstop
    · have hgo := (h c).bind (f := fun x => if (pruned && x.valid) = true then pure [x]
        else do return x :: (← visit pruned search rest)) (by rw [if_neg hv]; exact ih.map (child c :: ·))
      simpa [hv,Node.visitedAll,Node.size] using hgo

end Visit

namespace SearchRule
variable {r : SearchRule} {p : Policy} {carried : List Numbered} {after s : Suffix} {c : Candidate} {x : Numbered}

theorem mem_of_mem_pruningAt (h : x ∈ r.pruningAt p carried s) : x ∈ carried ∧ x.1.effect s = .contradiction := by
  have hagainst : x ∈ carried.filter fun a => a.1.effect s = .contradiction := by
    unfold pruningAt at h
    split at h
    · exact List.mem_of_mem_take h
    · exact h
  simpa using hagainst

theorem mem_pruningAt_of_recordAll (hr : r.recordAll = true) (hx : x ∈ carried)
    (he : x.1.effect s = .contradiction) : x ∈ r.pruningAt p carried s := by
  simp [pruningAt,hr,hx,he]

theorem pruningAt_eq_nil_iff : r.pruningAt p carried s = [] ↔ refuted (carried.map (·.1)) s = false := by
  have hagainst : r.pruningAt p carried s = [] ↔ (carried.filter fun a => a.1.effect s = .contradiction) = [] := by
    unfold pruningAt
    split
    · simp [List.take_eq_nil_iff]
    · rfl
  rw [hagainst,List.filter_eq_nil_iff,Bool.eq_false_iff,ne_eq,refuted_eq_true_iff]
  simp

theorem undecidedAt_map : (undecidedAt carried s).map (·.1) = undecided (carried.map (·.1)) s := by
  rw [undecidedAt,undecided,List.filter_map]
  rfl

theorem mem_undecidedAt : x ∈ undecidedAt carried s ↔ x ∈ carried ∧ x.1.effect s = .undetermined := by
  simp [undecidedAt]

def tree (r : SearchRule) : (room : Nat) → Policy → List Numbered → (after : Suffix) → Candidate → Node
  | 0, p, carried, after, c =>
    .join c after (r.pruningAt p carried (c :: after)) (undecidedAt carried (c :: after)) []
  | room + 1, p, carried, after, c =>
    let s := c :: after
    let pruning := r.pruningAt p carried s
    let undecided := undecidedAt carried s
    .join c after pruning undecided <|
      if undecided.isEmpty then []
      else if pruning.isEmpty then visitedChildren false (tree r room p undecided s) (unplaced r.n s)
      else if p.continues (pruning.any (·.1.isNEB)) then
        visitedChildren true (tree r room p.next undecided s) (unplaced r.n s)
      else []

end SearchRule

theorem Node.size_join (c : Candidate) (after : Suffix) (pruning undecided : List Numbered)
    (visited : List Node) :
    (Node.join c after pruning undecided visited).size = 1 + (Node.visitedAll visited).length := by
  unfold Node.join
  by_cases hp : pruning.isEmpty = true
  · simp [hp,Node.size,Node.visited,Node.visitedAll,Nat.add_comm]
  · by_cases hv : visited.any Node.valid = true
    · simp [hp,hv,Node.size,Node.visited,Node.visitedAll,Nat.add_comm]
    · simp [hp,hv,Node.size,Node.visited,Node.visitedAll,Nat.add_comm]

/-- A search visits each node of its tree once and spends one unit there. -/
theorem grow_takes (r : SearchRule) (room : Nat) (p : Policy) (carried : List Numbered) (after : Suffix)
    (c : Candidate) : (grow r room p carried after c).Takes (r.tree room p carried after c).size
      (r.tree room p carried after c) := by
  induction room generalizing p carried after c with
  | zero =>
    rw [grow,SearchRule.tree,Node.size_join]
    exact takes_tick.bind (takes_pure _)
  | succ room ih =>
    rw [grow,SearchRule.tree,Node.size_join]
    apply Takes.tick_bind
    dsimp only
    by_cases hu : (SearchRule.undecidedAt carried (c :: after)).isEmpty = true
    · simp only [hu,if_true]
      exact takes_pure _
    · by_cases hp : (r.pruningAt p carried (c :: after)).isEmpty = true
      · simp only [hu,hp,if_true]
        exact (visit_takes fun d => ih p _ (c :: after) d).map _
      · by_cases hc : p.continues ((r.pruningAt p carried (c :: after)).any (·.1.isNEB)) = true
        · simp only [hu,hp,hc,if_true]
          exact (visit_takes fun d => ih p.next _ (c :: after) d).map _
        · simp only [hu,hp,hc]
          exact takes_pure _

namespace SearchRule

/-- What a search from `c :: after` can build. -/
inductive Builds (r : SearchRule) : Policy → List Numbered → (after : Suffix) → Candidate → Node → Prop
  /-- Nothing is left undetermined. -/
  | decided {p carried after c}
      (hundecided : undecidedAt carried (c :: after) = []) :
      r.Builds p carried after c (.mk c after ((r.pruningAt p carried (c :: after)).map (·.2))
        (r.pruningAt p carried (c :: after)).isEmpty [] [])
  /-- The policy ends the search at a pruned node. -/
  | stopped {p carried after c}
      (hpruned : r.pruningAt p carried (c :: after) ≠ [])
      (hundecided : undecidedAt carried (c :: after) ≠ [])
      (hpolicy : p.continues ((r.pruningAt p carried (c :: after)).any (·.1.isNEB)) = false) :
      r.Builds p carried after c (.mk c after ((r.pruningAt p carried (c :: after)).map (·.2)) false [] [])
  /-- Nothing prunes the node. -/
  | opened {p carried after c}
      (hpruned : r.pruningAt p carried (c :: after) = [])
      (hundecided : undecidedAt carried (c :: after) ≠ []) {child : Candidate → Node}
      (hchild : ∀ d ∈ unplaced r.n (c :: after),
        r.Builds p (undecidedAt carried (c :: after)) (c :: after) d (child d)) :
      r.Builds p carried after c (.mk c after [] ((unplaced r.n (c :: after)).any fun d => (child d).valid)
        ((unplaced r.n (c :: after)).map child) [])
  /-- The search went on below a pruned node and met no valid child. -/
  | passed {p carried after c}
      (hpruned : r.pruningAt p carried (c :: after) ≠ [])
      (hundecided : undecidedAt carried (c :: after) ≠ [])
      (hpolicy : p.continues ((r.pruningAt p carried (c :: after)).any (·.1.isNEB)) = true)
      {child : Candidate → Node}
      (hchild : ∀ d ∈ unplaced r.n (c :: after),
        r.Builds p.next (undecidedAt carried (c :: after)) (c :: after) d (child d))
      (hvalid : ∀ d ∈ unplaced r.n (c :: after), (child d).valid = false) :
      r.Builds p carried after c (.mk c after ((r.pruningAt p carried (c :: after)).map (·.2)) false
        ((unplaced r.n (c :: after)).map child) [])
  /-- The search went on below a pruned node until it met a valid child. -/
  | dropped {p carried after c}
      (hpruned : r.pruningAt p carried (c :: after) ≠ [])
      (hundecided : undecidedAt carried (c :: after) ≠ [])
      (hpolicy : p.continues ((r.pruningAt p carried (c :: after)).any (·.1.isNEB)) = true)
      {child : Candidate → Node}
      (hchild : ∀ d ∈ unplaced r.n (c :: after),
        r.Builds p.next (undecidedAt carried (c :: after)) (c :: after) d (child d))
      (hvalid : ∃ d ∈ unplaced r.n (c :: after), (child d).valid = true) :
      r.Builds p carried after c (.mk c after ((r.pruningAt p carried (c :: after)).map (·.2)) false
        [] (visitedChildren true child (unplaced r.n (c :: after))))

theorem tree_eq_join {r : SearchRule} {room : Nat} {p : Policy} {carried : List Numbered} {after : Suffix}
    {c : Candidate} (hroom : (unplaced r.n (c :: after)).length ≤ room) :
    r.tree room p carried after c =
      .join c after (r.pruningAt p carried (c :: after)) (undecidedAt carried (c :: after))
        (if (undecidedAt carried (c :: after)).isEmpty then []
        else if (r.pruningAt p carried (c :: after)).isEmpty then
          visitedChildren false (r.tree (room - 1) p (undecidedAt carried (c :: after)) (c :: after))
            (unplaced r.n (c :: after))
        else if p.continues ((r.pruningAt p carried (c :: after)).any (·.1.isNEB)) then
          visitedChildren true (r.tree (room - 1) p.next (undecidedAt carried (c :: after)) (c :: after))
            (unplaced r.n (c :: after))
        else []) := by
  cases room with
  | zero =>
    have hnil : unplaced r.n (c :: after) = [] := List.length_eq_zero_iff.mp (Nat.le_zero.mp hroom)
    rw [tree,hnil]
    simp [visitedChildren]
  | succ room => rfl

/-- The bound on the candidates yet to be placed never ends a search. -/
theorem tree_builds_of_room (r : SearchRule) {room : Nat} {p : Policy} {carried : List Numbered} {after : Suffix}
    {c : Candidate} (hroom : (unplaced r.n (c :: after)).length ≤ room) :
    r.Builds p carried after c (r.tree room p carried after c) := by
  induction room using Nat.strongRecOn generalizing p carried after c with
  | ind room ih =>
    have hchild : ∀ q d, d ∈ unplaced r.n (c :: after) →
        r.Builds q (undecidedAt carried (c :: after)) (c :: after) d
          (r.tree (room - 1) q (undecidedAt carried (c :: after)) (c :: after) d) := by
      intro q d hd
      have hlt := length_unplaced_cons_lt hd
      exact ih (room - 1) (by omega) (by omega)
    rw [tree_eq_join hroom]
    by_cases hu : undecidedAt carried (c :: after) = []
    · have h := Builds.decided (r := r) (p := p) hu
      by_cases hp : r.pruningAt p carried (c :: after) = []
      · simpa [Node.join,hu,hp] using h
      · have hpe : (r.pruningAt p carried (c :: after)).isEmpty = false := by simpa using hp
        simpa [Node.join,hu,hp,hpe] using h
    · have hue : (undecidedAt carried (c :: after)).isEmpty = false := by simpa using hu
      by_cases hp : r.pruningAt p carried (c :: after) = []
      · have h := Builds.opened hp hu (hchild p)
        simpa [Node.join,hue,hp,visitedChildren_false,Function.comp_def] using h
      · have hpe : (r.pruningAt p carried (c :: after)).isEmpty = false := by simpa using hp
        cases hc : p.continues ((r.pruningAt p carried (c :: after)).any (·.1.isNEB)) with
        | false => simpa [Node.join,hue,hpe,hc] using Builds.stopped hp hu hc
        | true =>
          by_cases hv : ∃ d ∈ unplaced r.n (c :: after),
              (r.tree (room - 1) p.next (undecidedAt carried (c :: after)) (c :: after) d).valid = true
          · have h := Builds.dropped hp hu hc (hchild p.next) hv
            simpa [Node.join,hue,hpe,hc,any_valid_visitedChildren,hv] using h
          · have hv' : ∀ d ∈ unplaced r.n (c :: after),
                (r.tree (room - 1) p.next (undecidedAt carried (c :: after)) (c :: after) d).valid = false := by
              simpa using hv
            have h := Builds.passed hp hu hc (hchild p.next) hv'
            rw [← visitedChildren_of_invalid true hv'] at h
            simpa [Node.join,hue,hpe,hc,any_valid_visitedChildren,hv] using h

theorem tree_builds (r : SearchRule) {room : Nat} {p : Policy} {carried : List Numbered} {after : Suffix}
    {c : Candidate} (hs : Placed r.n (c :: after)) (hroom : r.n.toNat ≤ after.length + room) :
    r.Builds p carried after c (r.tree room p carried after c) := by
  apply r.tree_builds_of_room
  rw [length_unplaced hs,List.length_cons]
  omega

def rootTree (r : SearchRule) (p : Policy) (carried : List Numbered) (c : Candidate) : Node :=
  r.tree r.n.toNat p carried [] c

/-- The root may be any number: the tree is built the same way for one that is not in the contest. -/
theorem rootTree_built (r : SearchRule) (p : Policy) (carried : List Numbered) (c : Candidate) :
    r.Builds p carried [] c (r.rootTree p carried c) :=
  r.tree_builds_of_room (length_unplaced_le r.n [c])

theorem rootTree_builds (r : SearchRule) (p : Policy) (carried : List Numbered) {c : Candidate}
    (hc : 0 ≤ c ∧ c < r.n) : r.Builds p carried [] c (r.rootTree p carried c) :=
  r.tree_builds (placed_singleton hc) (Nat.le_add_left _ _)

end SearchRule

theorem searchTree_takes (r : SearchRule) (p : Policy) (carried : List Numbered) (c : Candidate) :
    (searchTree r p carried c).Takes (r.rootTree p carried c).size (r.rootTree p carried c) :=
  grow_takes r r.n.toNat p carried [] c

end RunoffAudit
