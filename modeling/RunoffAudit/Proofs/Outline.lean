import Mathlib.Data.List.Forall2
import RunoffAudit.Proofs.Certificate
import RunoffAudit.Search.Arena

/-! # The outline of a search tree

The outline of a tree keeps everything but the positions of the assertions that prune a node: of these
it tells only whether there are any. Trees of the same outline have the same numbered list of nodes
up to those positions. A search that stops at pruned nodes builds a tree whose outline depends on
nothing but which suffixes the assertions refute and which they grant.
-/
namespace RunoffAudit

/-! ## Other positions in the nodes -/

namespace Node

mutual

def mapPruning (f : List Nat → List Nat) : Node → Node
  | mk c s p v cs ds => mk c s (f p) v (mapPruningAll f cs) (mapPruningAll f ds)

def mapPruningAll (f : List Nat → List Nat) : List Node → List Node
  | [] => []
  | x :: rest => x.mapPruning f :: mapPruningAll f rest

end

section MapPruning
variable (f : List Nat → List Nat)

theorem mapPruningAll_eq_map (xs : List Node) : mapPruningAll f xs = xs.map (mapPruning f) := by
  induction xs with
  | nil => rfl
  | cons x rest ih => rw [mapPruningAll,ih,List.map_cons]

theorem suffix_mapPruning (x : Node) : (x.mapPruning f).suffix = x.suffix := by
  cases x
  rfl

theorem valid_mapPruning (x : Node) : (x.mapPruning f).valid = x.valid := by
  cases x
  rfl

mutual

theorem visited_mapPruning : (x : Node) → (x.mapPruning f).visited = x.visited.map (mapPruning f)
  | mk c s p v cs ds => by
    rw [mapPruning,visited,visited,visitedAll_mapPruning cs,visitedAll_mapPruning ds,List.map_cons,List.map_append]
    rfl

theorem visitedAll_mapPruning : (xs : List Node) → visitedAll (mapPruningAll f xs) = (visitedAll xs).map (mapPruning f)
  | [] => rfl
  | x :: rest => by
    rw [mapPruningAll,visitedAll,visitedAll,visited_mapPruning x,visitedAll_mapPruning rest,List.map_append]

end

theorem size_mapPruning (x : Node) : (x.mapPruning f).size = x.size := by
  rw [size,visited_mapPruning,List.length_map,size]

/-- A node joined from other positions differs in these positions only. -/
theorem join_mapPruning {pruning pruning' undecided undecided' : List Numbered}
    (hpositions : pruning'.map (·.2) = f (pruning.map (·.2))) (hpruned : pruning'.isEmpty = pruning.isEmpty)
    (hundecided : undecided'.isEmpty = undecided.isEmpty) (c : Candidate) (after : Suffix) (xs : List Node) :
    join c after pruning' undecided' (xs.map (mapPruning f)) = (join c after pruning undecided xs).mapPruning f := by
  have hvalid : (xs.map (mapPruning f)).any valid = xs.any valid := by
    rw [List.any_map]
    exact congrArg xs.any (funext (valid_mapPruning f))
  unfold join
  dsimp only
  rw [hpositions,hpruned,hundecided,hvalid]
  split_ifs <;> simp [mapPruning,mapPruningAll_eq_map]

end MapPruning

/-- To prove something of a node it may be assumed of its children. -/
theorem children_induction {motive : Node → Prop}
    (h : ∀ c after p v cs ds, (∀ y ∈ cs, motive y) → motive (mk c after p v cs ds)) (x : Node) : motive x :=
  match x with
  | mk c after p v cs ds => h c after p v cs ds fun y _ => children_induction h y
termination_by sizeOf x
decreasing_by
  have := List.sizeOf_lt_of_mem ‹_›
  simp only [mk.sizeOf_spec]
  omega

end Node

theorem map_visitedChildren {g : Node → Node} (hvalid : ∀ x, (g x).valid = x.valid) (pruned : Bool)
    (child : Candidate → Node) (cs : List Candidate) :
    (visitedChildren pruned child cs).map g = visitedChildren pruned (fun d => g (child d)) cs := by
  induction cs with
  | nil => rfl
  | cons c rest ih =>
    rw [visitedChildren,visitedChildren,hvalid]
    split_ifs
    · rfl
    · rw [List.map_cons,ih]

def ArenaEntry.mapPruning (f : List Nat → List Nat) (e : ArenaEntry) : ArenaEntry := { e with pruning := f e.pruning }

namespace Node

theorem numbersFrom_mapPruning (f : List Nat → List Nat) (start : Nat) (xs : List Node) :
    numbersFrom start (mapPruningAll f xs) = numbersFrom start xs := by
  induction xs generalizing start with
  | nil => rfl
  | cons x rest ih => rw [mapPruningAll,numbersFrom,numbersFrom,size_mapPruning,ih]

mutual

theorem arenaFrom_mapPruning (f : List Nat → List Nat) (parent : Option Nat) (index : Nat) : (x : Node) →
    (x.mapPruning f).arenaFrom parent index = (x.arenaFrom parent index).map (ArenaEntry.mapPruning f)
  | mk c s p v cs ds => by
    rw [mapPruning,arenaFrom,arenaFrom,numbersFrom_mapPruning,arenaAll_mapPruning f index (index + 1) cs,
      arenaAll_mapPruning f index (index + 1) ds,List.map_cons,List.map_append]
    rfl

theorem arenaAll_mapPruning (f : List Nat → List Nat) (parent start : Nat) : (xs : List Node) →
    arenaAll parent start (mapPruningAll f xs) = (arenaAll parent start xs).map (ArenaEntry.mapPruning f)
  | [] => rfl
  | x :: rest => by
    rw [mapPruningAll,arenaAll,arenaAll,size_mapPruning,arenaFrom_mapPruning f (some parent) start x,
      arenaAll_mapPruning f parent (start + x.size) rest,List.map_append]

end

end Node

/-! ## Outlines -/

/-- Tells that there are pruning assertions, not which. -/
def pruningMark (pruning : List Nat) : List Nat := if pruning.isEmpty then [] else [0]

theorem pruningMark_eq_iff {p q : List Nat} : pruningMark p = pruningMark q ↔ (p = [] ↔ q = []) := by
  cases p <;> cases q <;> simp [pruningMark]

namespace Node

mutual

def outline : Node → Node
  | mk c s p v cs ds => mk c s (pruningMark p) v (outlineAll cs) (outlineAll ds)

def outlineAll : List Node → List Node
  | [] => []
  | x :: rest => x.outline :: outlineAll rest

end

mutual

theorem outline_eq_mapPruning : (x : Node) → x.outline = x.mapPruning pruningMark
  | mk c s p v cs ds => by
    rw [outline,mapPruning,outlineAll_eq_mapPruningAll cs,outlineAll_eq_mapPruningAll ds]

theorem outlineAll_eq_mapPruningAll : (xs : List Node) → outlineAll xs = mapPruningAll pruningMark xs
  | [] => rfl
  | x :: rest => by
    rw [outlineAll,mapPruningAll,outline_eq_mapPruning x,outlineAll_eq_mapPruningAll rest]

end

theorem suffix_outline (x : Node) : x.outline.suffix = x.suffix := by
  rw [outline_eq_mapPruning,suffix_mapPruning]

theorem valid_outline (x : Node) : x.outline.valid = x.valid := by
  rw [outline_eq_mapPruning,valid_mapPruning]

theorem outline_opened (c : Candidate) (after : Suffix) (open_ : List Candidate) (child : Candidate → Node) :
    (mk c after [] (open_.any fun d => (child d).valid) (open_.map child) []).outline =
      mk c after [] ((open_.map fun d => (child d).outline).any valid) (open_.map fun d => (child d).outline) [] := by
  have hvalid : (open_.map fun d => (child d).outline).any valid = open_.any fun d => (child d).valid := by
    rw [List.any_map]
    exact congrArg open_.any (funext fun d => valid_outline (child d))
  have hchildren : (open_.map fun d => (child d).outline) = outlineAll (open_.map child) := by
    rw [outlineAll_eq_mapPruningAll,mapPruningAll_eq_map,List.map_map]
    exact List.map_congr_left fun d _ => outline_eq_mapPruning (child d)
  rw [hvalid,hchildren,outline]
  rfl

theorem visited_outline (x : Node) : x.outline.visited = x.visited.map outline := by
  rw [outline_eq_mapPruning,visited_mapPruning]
  exact List.map_congr_left fun y _ => (outline_eq_mapPruning y).symm

def visitedSuffixes (x : Node) : List Suffix := x.visited.map suffix

theorem visitedSuffixes_outline (x : Node) : x.outline.visitedSuffixes = x.visitedSuffixes := by
  have hsuffix : suffix ∘ outline = suffix := funext suffix_outline
  rw [visitedSuffixes,visited_outline,List.map_map,hsuffix,visitedSuffixes]

theorem length_visitedSuffixes (x : Node) : x.visitedSuffixes.length = x.size := List.length_map suffix

theorem maxDepth_eq (x : Node) : x.maxDepth = (x.visitedSuffixes.map List.length).foldl max 0 := by
  rw [visitedSuffixes,List.map_map]
  rfl

end Node

/-! ## The numbered list of an outline -/

def ArenaEntry.outline (e : ArenaEntry) : ArenaEntry := { e with pruning := pruningMark e.pruning }

namespace Node

theorem arenaFrom_outline (parent : Option Nat) (index : Nat) (x : Node) :
    x.outline.arenaFrom parent index = (x.arenaFrom parent index).map ArenaEntry.outline := by
  rw [outline_eq_mapPruning,arenaFrom_mapPruning]
  rfl

end Node

/-- The entries agree in everything but the assertions that prune them. The depth of an entry is the length of its
suffix. -/
structure ArenaEntry.Alike (x y : ArenaEntry) : Prop where
  candidate : x.candidate = y.candidate
  parent : x.parent = y.parent
  suffix : x.suffix = y.suffix
  children : x.children = y.children
  valid : x.valid = y.valid
  pruned : x.pruning = [] ↔ y.pruning = []

theorem ArenaEntry.alike_of_outline_eq {x y : ArenaEntry} (h : x.outline = y.outline) : x.Alike y := by
  simp only [ArenaEntry.outline,ArenaEntry.mk.injEq] at h
  obtain ⟨hcandidate,hparent,hsuffix,hpruning,hchildren,hvalid⟩ := h
  exact ⟨hcandidate,hparent,hsuffix,hchildren,hvalid,pruningMark_eq_iff.mp hpruning⟩

theorem arena_alike_of_outline_eq {x y : Node} (h : x.outline = y.outline) :
    List.Forall₂ ArenaEntry.Alike x.arena y.arena := by
  have harena : x.arena.map ArenaEntry.outline = y.arena.map ArenaEntry.outline := by
    rw [Node.arena,Node.arena,← Node.arenaFrom_outline,← Node.arenaFrom_outline,h]
  have hmapped : List.Forall₂ Eq (x.arena.map ArenaEntry.outline) (y.arena.map ArenaEntry.outline) :=
    List.forall₂_eq_eq_eq ▸ harena
  exact (List.forall₂_map_left_iff.mp (List.forall₂_map_right_iff.mp hmapped)).imp
    fun _ _ => ArenaEntry.alike_of_outline_eq

/-! ## Searches that stop at pruned nodes -/

/-- The lists refute the same suffixes and grant the same suffixes, among those that end in `s`. -/
def JudgeAlike (n : Int) (as bs : List Assertion) (s : Suffix) : Prop :=
  ∀ t, Placed n t → s <:+ t → refuted as t = refuted bs t ∧ granted as t = granted bs t

variable {n : Int} {as bs : List Assertion} {s : Suffix} {d : Candidate}

theorem JudgeAlike.settled_eq (h : JudgeAlike n as bs s) (hs : Placed n s) : settled as s = settled bs s := by
  obtain ⟨hr,hg⟩ := h s hs (List.suffix_refl s)
  rw [settled,settled,hr,hg]

/-- Where nothing is refuted it is enough to look at the assertions left undetermined. -/
theorem JudgeAlike.undecided (h : JudgeAlike n as bs s) (hs : Placed n s) (hr : refuted as s = false) :
    JudgeAlike n (undecided as s) (undecided bs s) (d :: s) := by
  intro t ht hdt
  have hst := (List.suffix_cons d s).trans hdt
  obtain ⟨hr',hg'⟩ := h t ht hst
  have hrb : refuted bs s = false := (h s hs (List.suffix_refl s)).1 ▸ hr
  obtain ⟨hra,hga⟩ := agree_undecided hr ht hst
  obtain ⟨hrb,hgb⟩ := agree_undecided hrb ht hst
  exact ⟨hra.symm.trans (hr'.trans hrb),hga.symm.trans (hg'.trans hgb)⟩

namespace SearchRule
variable {r : SearchRule} {p : Policy} {carried others : List Numbered} {after : Suffix} {c : Candidate} {x y : Node}

theorem outline_leaf (carried : List Numbered) (after : Suffix) (c : Candidate) :
    (Node.mk c after ((r.pruningAt .stopImmediately carried (c :: after)).map (·.2))
      (r.pruningAt .stopImmediately carried (c :: after)).isEmpty [] []).outline =
    .mk c after (if refuted (carried.map (·.1)) (c :: after) then [0] else [])
      (!refuted (carried.map (·.1)) (c :: after)) [] [] := by
  have hnil : r.pruningAt .stopImmediately carried (c :: after) = [] ↔
      refuted (carried.map (·.1)) (c :: after) = false := pruningAt_eq_nil_iff
  cases hr : refuted (carried.map (·.1)) (c :: after) with
  | false =>
    rw [hnil.mpr hr]
    rfl
  | true =>
    have hne : r.pruningAt .stopImmediately carried (c :: after) ≠ [] := fun h => by simp [hnil.mp h] at hr
    obtain ⟨a,rest,ha⟩ := List.exists_cons_of_ne_nil hne
    rw [ha]
    rfl

theorem Builds.outline_of_settled (h : r.Builds .stopImmediately carried after c x)
    (hstop : settled (carried.map (·.1)) (c :: after) = true) :
    x.outline = .mk c after (if refuted (carried.map (·.1)) (c :: after) then [0] else [])
      (!refuted (carried.map (·.1)) (c :: after)) [] [] := by
  refine h.stop_induction (motive := fun carried after c x =>
    settled (carried.map (·.1)) (c :: after) = true →
    x.outline = .mk c after (if refuted (carried.map (·.1)) (c :: after) then [0] else [])
      (!refuted (carried.map (·.1)) (c :: after)) [] []) ?leaf ?opened hstop
  case leaf =>
    intro carried after c _ _
    exact outline_leaf carried after c
  case opened =>
    intro carried after c child hpruned hu _ hstop
    rw [settled_open hpruned hu] at hstop
    cases hstop

/-- Under any policy, a suffix that the assertions do not settle has children. -/
theorem Builds.eq_of_not_settled (h : r.Builds p carried after c x)
    (hstop : settled (carried.map (·.1)) (c :: after) = false) :
    ∃ child : Candidate → Node, (∀ d ∈ unplaced r.n (c :: after),
      r.Builds p (undecidedAt carried (c :: after)) (c :: after) d (child d)) ∧
      x = .mk c after [] ((unplaced r.n (c :: after)).any fun d => (child d).valid)
        ((unplaced r.n (c :: after)).map child) [] := by
  have hopen : ¬ (r.pruningAt p carried (c :: after) ≠ [] ∨ undecidedAt carried (c :: after) = []) :=
    fun h => Bool.eq_false_iff.mp hstop (settled_map_iff.mpr h)
  cases h with
  | decided hu => exact absurd (Or.inr hu) hopen
  | stopped hp => exact absurd (Or.inl hp) hopen
  | opened _ _ hchild => exact ⟨_,hchild,rfl⟩
  | passed hp => exact absurd (Or.inl hp) hopen
  | dropped hp => exact absurd (Or.inl hp) hopen

/-- Searches that stop at pruned nodes build trees of the same outline if their assertions judge all longer
suffixes alike. -/
theorem Builds.outline_eq (h : r.Builds .stopImmediately carried after c x)
    (h' : r.Builds .stopImmediately others after c y) (hs : Placed r.n (c :: after))
    (hagree : JudgeAlike r.n (carried.map (·.1)) (others.map (·.1)) (c :: after)) : x.outline = y.outline := by
  refine h.stop_induction (motive := fun carried after c x => ∀ others y,
    r.Builds .stopImmediately others after c y → Placed r.n (c :: after) →
    JudgeAlike r.n (carried.map (·.1)) (others.map (·.1)) (c :: after) →
    x.outline = y.outline) ?leaf ?opened others y h' hs hagree
  case leaf =>
    intro carried after c hstop others y h' hs hagree
    have hr := (hagree _ hs (List.suffix_refl _)).1
    rw [hagree.settled_eq hs] at hstop
    rw [outline_leaf,h'.outline_of_settled hstop,hr]
  case opened =>
    intro carried after c child hpruned hu ih others y h' hs hagree
    have hopen := settled_open hpruned hu
    rw [hagree.settled_eq hs] at hopen
    -- the second search cannot stop here either, so both have the same children
    obtain ⟨child',hchild',rfl⟩ := h'.eq_of_not_settled hopen
    have houtline : ∀ d ∈ unplaced r.n (c :: after), (child d).outline = (child' d).outline := by
      intro d hd
      apply (ih d hd).2 _ _ (hchild' d hd) (hs.cons hd)
      rw [undecidedAt_map,undecidedAt_map]
      exact hagree.undecided hs (pruningAt_eq_nil_iff.mp hpruned)
    rw [Node.outline_opened,Node.outline_opened,List.map_congr_left houtline]

end SearchRule
end RunoffAudit
