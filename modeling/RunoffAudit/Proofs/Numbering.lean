import RunoffAudit.Proofs.Reach

/-! # The numbers of a search tree

The numbered list of a tree holds the visited nodes in the order of the visit. Every subtree stands in it
as a block: first the root, then the blocks of the children, or of the discarded ones if the children were
dropped. So a number is that of a visited node, the numbers of siblings ascend, and the walk that follows
the numbers of the children meets the nodes of the tree's own walk.
-/
namespace RunoffAudit

structure ArenaEntry.Shows (e : ArenaEntry) (y : Node) : Prop where
  candidate : e.candidate = y.candidate
  suffix : e.suffix = y.suffix
  pruning : e.pruning = y.pruning
  valid : e.valid = y.valid

namespace Node

def entry (parent : Option Nat) (index : Nat) (y : Node) : ArenaEntry :=
  ⟨y.candidate,parent,y.suffix,y.pruning,numbersFrom (index + 1) y.children,y.valid⟩

theorem entry_shows (parent : Option Nat) (index : Nat) (y : Node) : (y.entry parent index).Shows y :=
  ⟨rfl,rfl,rfl,rfl⟩

theorem arenaFrom_eq (parent : Option Nat) (index : Nat) (x : Node) : x.arenaFrom parent index =
    x.entry parent index :: (arenaAll index (index + 1) x.children ++ arenaAll index (index + 1) x.discarded) := by
  cases x
  rfl

mutual

theorem arenaFrom_shows (parent : Option Nat) (index : Nat) : (x : Node) →
    List.Forall₂ ArenaEntry.Shows (x.arenaFrom parent index) x.visited
  | mk c s p v cs ds => by
    rw [arenaFrom,visited]
    exact .cons ⟨rfl,rfl,rfl,rfl⟩
      (List.rel_append (arenaAll_shows index (index + 1) cs) (arenaAll_shows index (index + 1) ds))

theorem arenaAll_shows (parent start : Nat) : (xs : List Node) →
    List.Forall₂ ArenaEntry.Shows (arenaAll parent start xs) (visitedAll xs)
  | [] => .nil
  | x :: rest => by
    rw [arenaAll,visitedAll]
    exact List.rel_append (arenaFrom_shows (some parent) start x) (arenaAll_shows parent (start + x.size) rest)

end

theorem length_arenaFrom (parent : Option Nat) (index : Nat) (x : Node) :
    (x.arenaFrom parent index).length = x.size := (arenaFrom_shows parent index x).length_eq

theorem length_visitedAll_cons (x : Node) (xs : List Node) :
    (visitedAll (x :: xs)).length = x.size + (visitedAll xs).length := by
  rw [visitedAll,List.length_append,size]

theorem size_pos (x : Node) : 0 < x.size := by
  cases x
  simp [size,visited]

theorem size_eq (x : Node) :
    x.size = 1 + ((visitedAll x.children).length + (visitedAll x.discarded).length) := by
  cases x
  simp [size,visited,children,discarded,Nat.add_comm]

/-! ## The numbers of siblings -/

section Siblings
variable {start j : Nat} {xs : List Node}

theorem bounds_of_mem_numbersFrom (hj : j ∈ numbersFrom start xs) :
    start ≤ j ∧ j < start + (visitedAll xs).length := by
  induction xs generalizing start with
  | nil => cases hj
  | cons x rest ih =>
    have hpos := x.size_pos
    rw [length_visitedAll_cons]
    rw [numbersFrom,List.mem_cons] at hj
    rcases hj with rfl | hj
    · omega
    · have h := ih hj
      omega

theorem numbersFrom_ascending (start : Nat) (xs : List Node) : (numbersFrom start xs).Pairwise (· < ·) := by
  induction xs generalizing start with
  | nil => exact .nil
  | cons x rest ih =>
    refine .cons ?_ (ih _)
    intro j hj
    have hpos := x.size_pos
    have h := (bounds_of_mem_numbersFrom hj).1
    omega

end Siblings

/-! ## Blocks -/

def StandsAt (arena : List ArenaEntry) (parent : Option Nat) (i : Nat) (y : Node) : Prop :=
  y.arenaFrom parent i <+: arena.drop i

def StandAt (arena : List ArenaEntry) (parent start : Nat) (ys : List Node) : Prop :=
  arenaAll parent start ys <+: arena.drop start

section Blocks
variable {arena : List ArenaEntry} {parent : Option Nat} {i j k start : Nat} {x y z : Node} {ys : List Node}

theorem drop_of_prefix {front back : List ArenaEntry} (h : front ++ back <+: arena.drop i) :
    back <+: arena.drop (i + front.length) := by
  obtain ⟨rest,hrest⟩ := h
  refine ⟨rest,?_⟩
  rw [← List.drop_drop,← hrest,List.append_assoc,List.drop_left]

theorem standsAt_arena (x : Node) : StandsAt x.arena none 0 x := List.prefix_refl _

theorem StandsAt.getElem? (h : StandsAt arena parent i y) : arena[i]? = some (y.entry parent i) := by
  obtain ⟨rest,hrest⟩ := h
  have hhead : (arena.drop i)[0]? = some (y.entry parent i) := by
    rw [← hrest,arenaFrom_eq]
    rfl
  rwa [List.getElem?_drop] at hhead

theorem StandsAt.below (h : StandsAt arena parent i y) :
    arenaAll i (i + 1) y.children ++ arenaAll i (i + 1) y.discarded <+: arena.drop (i + 1) := by
  rw [StandsAt,arenaFrom_eq,← List.singleton_append] at h
  exact drop_of_prefix h

theorem StandsAt.children (h : StandsAt arena parent i y) : StandAt arena i (i + 1) y.children :=
  (List.prefix_append _ _).trans h.below

theorem StandsAt.discarded (h : StandsAt arena parent i y) (hnone : y.children = []) :
    StandAt arena i (i + 1) y.discarded := by
  have hbelow := h.below
  rwa [hnone] at hbelow

theorem StandAt.head (h : StandAt arena k start (y :: ys)) : StandsAt arena (some k) start y :=
  (List.prefix_append _ _).trans h

theorem StandAt.tail (h : StandAt arena k start (y :: ys)) : StandAt arena k (start + y.size) ys := by
  rw [StandAt,arenaAll] at h
  have htail := drop_of_prefix h
  rwa [length_arenaFrom] at htail

theorem StandAt.exists_of_number (h : StandAt arena k start ys) (hj : j ∈ numbersFrom start ys) :
    ∃ y ∈ ys, StandsAt arena (some k) j y := by
  induction ys generalizing start with
  | nil => cases hj
  | cons y ys ih =>
    rw [numbersFrom,List.mem_cons] at hj
    rcases hj with rfl | hj
    · exact ⟨y,List.mem_cons_self,h.head⟩
    · obtain ⟨z,hz,hstands⟩ := ih h.tail hj
      exact ⟨z,List.mem_cons_of_mem y hz,hstands⟩

theorem StandAt.exists_number (h : StandAt arena k start ys) (hy : y ∈ ys) :
    ∃ j ∈ numbersFrom start ys, StandsAt arena (some k) j y := by
  induction ys generalizing start with
  | nil => cases hy
  | cons z ys ih =>
    rw [numbersFrom]
    rcases List.mem_cons.mp hy with rfl | hy
    · exact ⟨start,List.mem_cons_self,h.head⟩
    · obtain ⟨j,hj,hstands⟩ := ih h.tail hy
      exact ⟨j,List.mem_cons_of_mem start hj,hstands⟩

/-- A number within the entries of siblings lies in the block of one of them. -/
theorem StandAt.exists_block (h : StandAt arena k start ys) (hstart : start ≤ j)
    (hj : j < start + (visitedAll ys).length) :
    ∃ y ∈ ys, ∃ i, StandsAt arena (some k) i y ∧ start ≤ i ∧ i ≤ j ∧ j < i + y.size := by
  induction ys generalizing start with
  | nil =>
    rw [visitedAll,List.length_nil] at hj
    omega
  | cons y ys ih =>
    rw [length_visitedAll_cons] at hj
    by_cases hin : j < start + y.size
    · exact ⟨y,List.mem_cons_self,start,h.head,Nat.le_refl _,hstart,hin⟩
    · obtain ⟨z,hz,i,hstands,hi⟩ := ih h.tail (by omega) (by omega)
      exact ⟨z,List.mem_cons_of_mem y hz,i,hstands,by omega,hi.2⟩

end Blocks

/-! ## Every number is that of a visited node -/

/-- A node that was visited somewhere in the tree `x`, with the number of its parent and its own number. -/
inductive Occurs (x : Node) : Option Nat → Nat → Node → Prop
  | root : Occurs x none 0 x
  | under {parent k w j y} (hw : Occurs x parent k w) (hkj : k < j) (hy : y ∈ w.children ∨ y ∈ w.discarded)
      (hstands : StandsAt x.arena (some k) j y) : Occurs x (some k) j y

theorem Occurs.standsAt {x y : Node} {parent : Option Nat} {j : Nat} (h : x.Occurs parent j y) :
    StandsAt x.arena parent j y := by
  cases h with
  | root => exact x.standsAt_arena
  | under _ _ _ hstands => exact hstands

/-- What a node hands down to its children and to the discarded ones holds for every visited node. -/
theorem Occurs.induction {x y : Node} {parent : Option Nat} {j : Nat} {P : Node → Prop} (hroot : P x)
    (hstep : ∀ w, P w → ∀ y, y ∈ w.children ∨ y ∈ w.discarded → P y) (h : x.Occurs parent j y) : P y := by
  induction h with
  | root => exact hroot
  | under _ _ hy _ ih => exact hstep _ ih _ hy

/-- If children are either kept or dropped, all numbers of a subtree's block are taken by its visited nodes. -/
theorem Occurs.exists_of_number {x : Node}
    (hexclusive : ∀ {parent k w}, x.Occurs parent k w → w.children = [] ∨ w.discarded = [])
    {parent : Option Nat} {i j : Nat} {w : Node} (h : x.Occurs parent i w) (hi : i ≤ j) (hj : j < i + w.size) :
    ∃ parent' y, x.Occurs parent' j y := by
  rcases Nat.eq_or_lt_of_le hi with rfl | hlt
  · exact ⟨parent,w,h⟩
  rw [size_eq] at hj
  have hblock : ∃ y, (y ∈ w.children ∨ y ∈ w.discarded) ∧ ∃ m, StandsAt x.arena (some i) m y ∧
      i + 1 ≤ m ∧ m ≤ j ∧ j < m + y.size := by
    rcases hexclusive h with hnone | hnone
    · rw [hnone,visitedAll,List.length_nil] at hj
      obtain ⟨y,hy,hm⟩ := (h.standsAt.discarded hnone).exists_block (j := j) hlt (by omega)
      exact ⟨y,Or.inr hy,hm⟩
    · rw [hnone,visitedAll,List.length_nil] at hj
      obtain ⟨y,hy,hm⟩ := h.standsAt.children.exists_block (j := j) hlt (by omega)
      exact ⟨y,Or.inl hy,hm⟩
  obtain ⟨y,hy,m,hstands,him,hmj,hjm⟩ := hblock
  exact Occurs.exists_of_number hexclusive (Occurs.under h him hy hstands) hmj hjm
termination_by j - i

/-! ## The walk by numbers -/

mutual

/-- The nodes of the walk with their numbers. -/
def walkFrom (index : Nat) : Node → List (Nat × Node)
  | mk c s p v cs ds => (index,mk c s p v cs ds) :: walkAllFrom (index + 1) cs

def walkAllFrom (start : Nat) : List Node → List (Nat × Node)
  | [] => []
  | x :: rest => walkFrom start x ++ walkAllFrom (start + x.size) rest

end

theorem walkFrom_eq (index : Nat) (x : Node) :
    x.walkFrom index = (index,x) :: walkAllFrom (index + 1) x.children := by
  cases x
  rfl

mutual

theorem walkFrom_map_snd (index : Nat) : (x : Node) → (x.walkFrom index).map Prod.snd = x.walk
  | mk c s p v cs ds => by
    rw [walkFrom,walk,List.map_cons,walkAllFrom_map_snd (index + 1) cs]

theorem walkAllFrom_map_snd (start : Nat) : (xs : List Node) → (walkAllFrom start xs).map Prod.snd = walkAll xs
  | [] => rfl
  | x :: rest => by
    rw [walkAllFrom,walkAll,List.map_append,walkFrom_map_snd start x,walkAllFrom_map_snd (start + x.size) rest]

end

mutual

theorem bounds_of_mem_walkFrom {index : Nat} {q : Nat × Node} : (x : Node) → q ∈ x.walkFrom index →
    index ≤ q.1 ∧ q.1 < index + x.size
  | mk c s p v cs ds => by
    intro hq
    rw [size_eq]
    rw [walkFrom,List.mem_cons] at hq
    rcases hq with rfl | hq
    · exact ⟨Nat.le_refl _,by omega⟩
    · have h := bounds_of_mem_walkAllFrom cs hq
      simp only [children]
      omega

theorem bounds_of_mem_walkAllFrom {start : Nat} {q : Nat × Node} : (xs : List Node) → q ∈ walkAllFrom start xs →
    start ≤ q.1 ∧ q.1 < start + (visitedAll xs).length
  | [] => fun hq => nomatch hq
  | x :: rest => by
    intro hq
    rw [length_visitedAll_cons]
    rw [walkAllFrom,List.mem_append] at hq
    rcases hq with hq | hq
    · have h := bounds_of_mem_walkFrom x hq
      omega
    · have h := bounds_of_mem_walkAllFrom rest hq
      omega

end

mutual

theorem walkFrom_ascending (index : Nat) : (x : Node) → (x.walkFrom index).Pairwise fun a b => a.1 < b.1
  | mk c s p v cs ds => by
    rw [walkFrom]
    refine .cons ?_ (walkAllFrom_ascending (index + 1) cs)
    intro q hq
    exact (bounds_of_mem_walkAllFrom cs hq).1

theorem walkAllFrom_ascending (start : Nat) : (xs : List Node) →
    (walkAllFrom start xs).Pairwise fun a b => a.1 < b.1
  | [] => .nil
  | x :: rest => by
    rw [walkAllFrom]
    refine List.pairwise_append.mpr ⟨walkFrom_ascending start x,walkAllFrom_ascending (start + x.size) rest,?_⟩
    intro a ha b hb
    exact Nat.lt_of_lt_of_le (bounds_of_mem_walkFrom x ha).2 (bounds_of_mem_walkAllFrom rest hb).1

end

theorem numbersFrom_subset_walkAllFrom (start : Nat) (xs : List Node) :
    numbersFrom start xs ⊆ (walkAllFrom start xs).map Prod.fst := by
  induction xs generalizing start with
  | nil => exact List.Subset.refl _
  | cons x rest ih =>
    intro j hj
    rw [walkAllFrom,walkFrom_eq,List.map_append,List.map_cons]
    rw [numbersFrom,List.mem_cons] at hj
    rcases hj with rfl | hj
    · simp
    · exact List.mem_append_right _ (ih _ hj)

mutual

/-- The children of a node that the walk meets are met too. -/
theorem children_met_walkFrom {k j : Nat} {z : Node} (hj : j ∈ numbersFrom (k + 1) z.children) (index : Nat) :
    (x : Node) → (k,z) ∈ x.walkFrom index → j ∈ (x.walkFrom index).map Prod.fst
  | mk c s p v cs ds => by
    intro hz
    rw [walkFrom,List.map_cons]
    rw [walkFrom,List.mem_cons,Prod.mk.injEq] at hz
    rcases hz with ⟨rfl,rfl⟩ | hz
    · exact List.mem_cons_of_mem _ (numbersFrom_subset_walkAllFrom _ _ hj)
    · exact List.mem_cons_of_mem _ (children_met_walkAllFrom hj (index + 1) cs hz)

theorem children_met_walkAllFrom {k j : Nat} {z : Node} (hj : j ∈ numbersFrom (k + 1) z.children) (start : Nat) :
    (xs : List Node) → (k,z) ∈ walkAllFrom start xs → j ∈ (walkAllFrom start xs).map Prod.fst
  | [] => fun hz => nomatch hz
  | x :: rest => by
    intro hz
    rw [walkAllFrom,List.map_append,List.mem_append]
    rw [walkAllFrom,List.mem_append] at hz
    rcases hz with hz | hz
    · exact Or.inl (children_met_walkFrom hj start x hz)
    · exact Or.inr (children_met_walkAllFrom hj (start + x.size) rest hz)

end

end Node

/-- The entry with this number can be reached from the first one through children. -/
inductive Reachable (arena : List ArenaEntry) : Nat → Prop
  | root : Reachable arena 0
  | child {i j e} (hi : Reachable arena i) (he : arena[i]? = some e) (hj : j ∈ e.children) : Reachable arena j

namespace Node
variable {arena : List ArenaEntry} {parent : Option Nat} {x : Node}

mutual

/-- The walk meets the nodes where they stand, and all of them can be reached. -/
theorem walkFrom_stands {index : Nat} {q : Nat × Node} : (x : Node) → (parent : Option Nat) →
    StandsAt arena parent index x → Reachable arena index → q ∈ x.walkFrom index →
    Reachable arena q.1 ∧ ∃ parent', StandsAt arena parent' q.1 q.2
  | mk c s p v cs ds => by
    intro parent hstands hreach hq
    rw [walkFrom,List.mem_cons] at hq
    rcases hq with rfl | hq
    · exact ⟨hreach,parent,hstands⟩
    · refine walkAllFrom_stands cs index hstands.children ?_ hq
      intro j hj
      exact .child hreach hstands.getElem? hj

theorem walkAllFrom_stands {start : Nat} {q : Nat × Node} : (xs : List Node) → (k : Nat) →
    StandAt arena k start xs → (∀ j ∈ numbersFrom start xs, Reachable arena j) → q ∈ walkAllFrom start xs →
    Reachable arena q.1 ∧ ∃ parent', StandsAt arena parent' q.1 q.2
  | [] => fun _ _ _ hq => nomatch hq
  | x :: rest => by
    intro k hstand hreach hq
    rw [numbersFrom] at hreach
    rw [walkAllFrom,List.mem_append] at hq
    rcases hq with hq | hq
    · exact walkFrom_stands x (some k) hstand.head (hreach start List.mem_cons_self) hq
    · exact walkAllFrom_stands rest k hstand.tail (fun j hj => hreach j (List.mem_cons_of_mem start hj)) hq

end

mutual

/-- With room for the nodes of a subtree its walk comes in front of what is left on the stack. -/
theorem arenaWalkFrom_eq {i room : Nat} {rest : List Nat} : (x : Node) → (parent : Option Nat) →
    StandsAt arena parent i x →
    arenaWalkFrom arena (x.walk.length + room) (i :: rest) =
      (x.walkFrom i).map Prod.fst ++ arenaWalkFrom arena room rest
  | mk c s p v cs ds => by
    intro parent hstands
    have hroom : (mk c s p v cs ds).walk.length + room = ((walkAll cs).length + room) + 1 := by
      rw [walk,List.length_cons]
      omega
    rw [hroom,arenaWalkFrom,hstands.getElem?,walkFrom,List.map_cons,List.cons_append]
    exact congrArg (i :: ·) (arenaWalkFrom_append_eq cs i hstands.children)

theorem arenaWalkFrom_append_eq {start room : Nat} {rest : List Nat} : (xs : List Node) → (k : Nat) →
    StandAt arena k start xs →
    arenaWalkFrom arena ((walkAll xs).length + room) (numbersFrom start xs ++ rest) =
      (walkAllFrom start xs).map Prod.fst ++ arenaWalkFrom arena room rest
  | [] => by
    intro k _
    rw [walkAll,numbersFrom,walkAllFrom,List.length_nil,Nat.zero_add]
    rfl
  | x :: xs => by
    intro k hstand
    rw [walkAll,numbersFrom,walkAllFrom,List.length_append,Nat.add_assoc,List.cons_append,List.map_append,
      List.append_assoc]
    rw [arenaWalkFrom_eq x (some k) hstand.head,arenaWalkFrom_append_eq xs k hstand.tail]

end

theorem arenaWalkFrom_nil (arena : List ArenaEntry) (room : Nat) : arenaWalkFrom arena room [] = [] := by
  cases room <;> rfl

theorem arenaWalk_arena (x : Node) : arenaWalk x.arena = (x.walkFrom 0).map Prod.fst := by
  obtain ⟨room,hroom⟩ := Nat.exists_eq_add_of_le x.walk_sublist_visited.length_le
  have hlength : x.arena.length = x.walk.length + room := (length_arenaFrom none 0 x).trans hroom
  rw [arenaWalk,hlength,arenaWalkFrom_eq x none x.standsAt_arena,arenaWalkFrom_nil,List.append_nil]

/-- No entry is walked twice: the numbers ascend. -/
theorem arenaWalk_ascending (x : Node) : (arenaWalk x.arena).Pairwise (· < ·) := by
  rw [arenaWalk_arena,List.pairwise_map]
  exact x.walkFrom_ascending 0

theorem mem_arenaWalk_iff {i : Nat} : i ∈ arenaWalk x.arena ↔ Reachable x.arena i := by
  rw [arenaWalk_arena]
  constructor
  · intro hi
    obtain ⟨q,hq,rfl⟩ := List.mem_map.mp hi
    exact (walkFrom_stands x none x.standsAt_arena .root hq).1
  · intro hi
    induction hi with
    | root => simp [walkFrom_eq]
    | @child i j e hi he hj ih =>
      obtain ⟨⟨k,z⟩,hz,rfl⟩ := List.mem_map.mp ih
      obtain ⟨parent,hstands⟩ := (walkFrom_stands x none x.standsAt_arena .root hz).2
      obtain rfl := Option.some.inj (hstands.getElem?.symm.trans he)
      exact children_met_walkFrom hj 0 x hz

/-- The walk by numbers meets the nodes of the tree's own walk. -/
theorem arenaWalk_shows (x : Node) :
    List.Forall₂ (fun i y => ∃ e, x.arena[i]? = some e ∧ e.Shows y) (arenaWalk x.arena) x.walk := by
  rw [arenaWalk_arena,← x.walkFrom_map_snd 0,List.forall₂_map_left_iff,List.forall₂_map_right_iff,
    List.forall₂_same]
  intro q hq
  obtain ⟨parent,hstands⟩ := (walkFrom_stands x none x.standsAt_arena .root hq).2
  exact ⟨_,hstands.getElem?,entry_shows parent q.1 q.2⟩

end Node
end RunoffAudit
