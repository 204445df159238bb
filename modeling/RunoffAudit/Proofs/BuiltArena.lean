import RunoffAudit.Proofs.StackSearch

/-! # The list that a search builds

The list built with a stack is the list of the visited nodes of the recursive search. Its numbers are in order:
a node comes behind its parent and in front of its children, its suffix is that of the parent with one
candidate more, and its verdict can be read off the list.
-/
namespace RunoffAudit
open Metered

theorem mem_visitedChildren {pruned : Bool} {child : Candidate → Node} {cs : List Candidate} {y : Node}
    (hy : y ∈ visitedChildren pruned child cs) : ∃ d ∈ cs, child d = y :=
  List.mem_map.mp ((visitedChildren_begins pruned child cs).subset hy)

namespace SearchRule
variable {r : SearchRule} {p : Policy} {all carried : List Numbered} {after s t : Suffix} {c : Candidate} {x y : Node}

theorem Builds.suffix_eq (h : r.Builds p carried after c x) : x.suffix = c :: after := by
  cases h <;> rfl

theorem Builds.candidate_eq (h : r.Builds p carried after c x) : x.candidate = c := by
  cases h <;> rfl

/-- What a longer suffix leaves undetermined was undetermined before. -/
theorem undecidedAt_undecidedAt (ht : t.Nodup) (hs : s <:+ t) :
    undecidedAt (undecidedAt carried s) t = undecidedAt carried t := by
  rw [undecidedAt,undecidedAt,undecidedAt,List.filter_filter]
  apply List.filter_congr
  intro a _
  by_cases he : a.1.effect t = .undetermined
  · have hes : a.1.effect s = .undetermined := by
      by_contra hne
      exact hne ((Assertion.effect_of_suffix ht hs hne).symm.trans he)
    simp [he,hes]
  · simp [he]

/-- Part of a tree that was searched for `all`. The assertions carried down to the node leave undetermined what all
of them do, at the node's suffix and at every longer one. -/
def BuiltFrom (r : SearchRule) (all : List Numbered) (x : Node) : Prop :=
  ∃ p carried after c, r.Builds p carried after c x ∧ (c :: after).Nodup ∧
    ∀ t, t.Nodup → c :: after <:+ t → undecidedAt carried t = undecidedAt all t

theorem Builds.builtFrom (h : r.Builds p all [] c x) : r.BuiltFrom all x :=
  ⟨p,all,[],c,h,List.nodup_singleton c,fun _ _ _ => rfl⟩

theorem BuiltFrom.exclusive (h : r.BuiltFrom all x) : x.children = [] ∨ x.discarded = [] := by
  obtain ⟨_,_,_,_,h,_⟩ := h
  cases h with
  | decided => exact Or.inl rfl
  | stopped => exact Or.inl rfl
  | opened => exact Or.inr rfl
  | passed => exact Or.inr rfl
  | dropped => exact Or.inl rfl

theorem BuiltFrom.under (h : r.BuiltFrom all x) (hy : y ∈ x.children ∨ y ∈ x.discarded) :
    r.BuiltFrom all y ∧ y.suffix = y.candidate :: x.suffix := by
  obtain ⟨p,carried,after,c,h,hnodup,hcarried⟩ := h
  have hchild : ∃ q d, d ∈ unplaced r.n (c :: after) ∧
      r.Builds q (undecidedAt carried (c :: after)) (c :: after) d y := by
    cases h with
    | decided => rcases hy with hy | hy <;> cases hy
    | stopped => rcases hy with hy | hy <;> cases hy
    | opened _ _ hchild =>
      rcases hy with hy | hy
      · obtain ⟨d,hd,rfl⟩ := List.mem_map.mp hy
        exact ⟨p,d,hd,hchild d hd⟩
      · cases hy
    | passed _ _ _ hchild =>
      rcases hy with hy | hy
      · obtain ⟨d,hd,rfl⟩ := List.mem_map.mp hy
        exact ⟨p.next,d,hd,hchild d hd⟩
      · cases hy
    | dropped _ _ _ hchild =>
      rcases hy with hy | hy
      · cases hy
      · obtain ⟨d,hd,rfl⟩ := mem_visitedChildren hy
        exact ⟨p.next,d,hd,hchild d hd⟩
  obtain ⟨q,d,hd,hy⟩ := hchild
  rw [hy.suffix_eq,hy.candidate_eq,h.suffix_eq]
  have hnodup' : (d :: c :: after).Nodup := List.nodup_cons.mpr ⟨(mem_unplaced.mp hd).2,hnodup⟩
  refine ⟨⟨q,_,_,d,hy,hnodup',?_⟩,rfl⟩
  intro t ht hs
  have hst := (List.suffix_cons d (c :: after)).trans hs
  rw [undecidedAt_undecidedAt ht hst,hcarried t ht hst]

theorem BuiltFrom.valid_iff (h : r.BuiltFrom all x) : x.valid = true ↔
    x.pruning = [] ∧ (undecidedAt all x.suffix = [] ∨ ∃ y ∈ x.children, y.valid = true) := by
  obtain ⟨p,carried,after,c,h,hnodup,hcarried⟩ := h
  rw [h.suffix_eq,← hcarried _ hnodup (List.suffix_refl _)]
  cases h with
  | decided hu => simp [Node.valid,Node.pruning,hu]
  | stopped hp => simp [Node.valid,Node.pruning,hp]
  | opened hp hu => simp [Node.valid,Node.pruning,Node.children,hu]
  | passed hp => simp [Node.valid,Node.pruning,hp]
  | dropped hp => simp [Node.valid,Node.pruning,hp]

theorem BuiltFrom.occurs {parent : Option Nat} {j : Nat} (h : r.BuiltFrom all x) (hy : x.Occurs parent j y) :
    r.BuiltFrom all y := hy.induction h fun _ hw _ hz => (hw.under hz).1

end SearchRule

/-- The entry has the number `i` in the list, and its parent, suffix, children and verdict are told by the list. A
valid entry is unpruned, and of the given assertions none is left undetermined or some child is valid. -/
structure ArenaEntry.InPlace (carried : List Numbered) (arena : List ArenaEntry) (i : Nat) (e : ArenaEntry) :
    Prop where
  root : e.parent = none → i = 0 ∧ e.suffix = [e.candidate]
  parent : ∀ k, e.parent = some k → k < i ∧ ∃ f, arena[k]? = some f ∧ e.suffix = e.candidate :: f.suffix
  ascending : e.children.Pairwise (· < ·)
  children : ∀ j ∈ e.children, i < j ∧ ∃ f, arena[j]? = some f ∧ f.parent = some i
  valid : e.valid = true ↔ e.pruning = [] ∧ (SearchRule.undecidedAt carried e.suffix = [] ∨
    ∃ j ∈ e.children, ∃ f, arena[j]? = some f ∧ f.valid = true)

theorem SearchRule.Builds.inPlace {r : SearchRule} {p : Policy} {all : List Numbered} {c : Candidate} {x : Node}
    {i : Nat} {e : ArenaEntry} (h : r.Builds p all [] c x) (he : x.arena[i]? = some e) :
    e.InPlace all x.arena i := by
  have hi : i < x.size := by
    obtain ⟨hlt,_⟩ := List.getElem?_eq_some_iff.mp he
    rwa [Node.arena,Node.length_arenaFrom] at hlt
  obtain ⟨above,y,hy⟩ := Node.Occurs.exists_of_number (x := x) (fun hw => (h.builtFrom.occurs hw).exclusive)
    .root (Nat.zero_le i) (by omega)
  obtain rfl := Option.some.inj (he.symm.trans hy.standsAt.getElem?)
  have hsiblings := hy.standsAt.children
  refine ⟨?root,?below,Node.numbersFrom_ascending _ _,?children,?valid⟩
  case root =>
    rintro rfl
    cases hy
    refine ⟨rfl,?_⟩
    show x.suffix = [x.candidate]
    rw [h.suffix_eq,h.candidate_eq]
  case below =>
    rintro k rfl
    cases hy with
    | under hw hk hy => exact ⟨hk,_,hw.standsAt.getElem?,((h.builtFrom.occurs hw).under hy).2⟩
  case children =>
    intro j hj
    obtain ⟨z,_,hz⟩ := hsiblings.exists_of_number hj
    exact ⟨(Node.bounds_of_mem_numbersFrom hj).1,_,hz.getElem?,rfl⟩
  case valid =>
    have hchild : (∃ z ∈ y.children, z.valid = true) ↔
        ∃ j ∈ Node.numbersFrom (i + 1) y.children, ∃ f, x.arena[j]? = some f ∧ f.valid = true := by
      constructor
      · rintro ⟨z,hz,hv⟩
        obtain ⟨j,hj,hstands⟩ := hsiblings.exists_number hz
        exact ⟨j,hj,_,hstands.getElem?,hv⟩
      · rintro ⟨j,hj,f,hf,hv⟩
        obtain ⟨z,hz,hstands⟩ := hsiblings.exists_of_number hj
        obtain rfl := Option.some.inj (hf.symm.trans hstands.getElem?)
        exact ⟨z,hz,hv⟩
    show y.valid = true ↔ y.pruning = [] ∧ (undecidedAt all y.suffix = [] ∨ _)
    rw [(h.builtFrom.occurs hy).valid_iff,hchild]
    rfl

/-- The stack builds what the recursive search visits, in the order of the first visit: for every number of
candidates, every candidate, assertions that all have a round, any of their positions, and whatever the policy
and the nodes record. Every entry is in its place, and the walk by numbers meets what can be reached from the
root, once and as the walk of the tree does. -/
theorem buildArenaChecked_lists_search {assertions : List Assertion} {positions : List Nat}
    (hround : ∀ a ∈ assertions, a.hasRound) (hpositions : ∀ i ∈ positions, i < assertions.length)
    (r : SearchRule) (p : Policy) (c : Candidate) :
    ∃ x, r.Builds p (numberedAt assertions positions) [] c x ∧
      (searchTreeChecked r p assertions positions c).Gives (.ok x) ∧
      (buildArenaChecked r p assertions positions c).Gives (.ok x.arena) ∧
      List.Forall₂ ArenaEntry.Shows x.arena x.visited ∧
      (∀ (i : Nat) (e : ArenaEntry), x.arena[i]? = some e →
        e.InPlace (numberedAt assertions positions) x.arena i) ∧
      (arenaWalk x.arena).Pairwise (· < ·) ∧ (∀ i, i ∈ arenaWalk x.arena ↔ Reachable x.arena i) ∧
      List.Forall₂ (fun i y => ∃ e, x.arena[i]? = some e ∧ e.Shows y) (arenaWalk x.arena) x.walk := by
  have hbuilds := r.rootTree_built p (numberedAt assertions positions) c
  refine ⟨_,hbuilds,?search,?stack,Node.arenaFrom_shows none 0 _,fun i e he => hbuilds.inPlace he,
    Node.arenaWalk_ascending _,fun i => Node.mem_arenaWalk_iff,Node.arenaWalk_shows _⟩
  case search =>
    rw [searchTreeChecked_eq hround hpositions]
    exact ((searchTree_takes r p _ c).map Except.ok).gives
  case stack =>
    rw [buildArenaChecked,checkAt_eq_ok hround hpositions]
    exact ((buildArena_takes r p _ c).map Except.ok).gives

/-- The search goes on below the pruned node `[1,2]` until it meets a valid child. The two nodes visited there stay in
the list, but the walk does not come to them. -/
theorem buildArenaChecked_lists_dropped :
    (∀ a ∈ [Assertion.neb 0 1,.nen 0 1 (.ofList [0,1,2])], a.hasRound) ∧ (∀ i ∈ [0,1,0], i < 2) ∧
    ∃ x : Node,
      (buildArenaChecked ⟨4,true⟩ .forever [.neb 0 1,.nen 0 1 (.ofList [0,1,2])] [0,1,0] 2).Gives (.ok x.arena) ∧
      List.Forall₂ ArenaEntry.Shows x.arena x.visited ∧
      x.arena.map ArenaEntry.suffix = [[2],[0,2],[1,2],[0,1,2],[3,1,2],[3,2],[0,3,2],[1,3,2]] ∧
      x.arena.map ArenaEntry.pruning = [[],[],[0,0],[1],[],[],[],[0,0]] ∧
      x.arena.map ArenaEntry.children = [[1,2,5],[],[],[],[],[6,7],[],[]] ∧
      arenaWalk x.arena = [0,1,2,5,6,7] ∧ (arenaWalk x.arena).Pairwise (· < ·) := by
  have hround : ∀ a ∈ [Assertion.neb 0 1,.nen 0 1 (.ofList [0,1,2])], a.hasRound := by decide
  have hpositions : ∀ i ∈ [0,1,0], i < 2 := by decide
  obtain ⟨x,_,hsearch,hstack,hshows,_,hascending,_,_⟩ :=
    buildArenaChecked_lists_search hround hpositions ⟨4,true⟩ .forever 2
  have hx := Except.ok.inj (Except.ok.inj (hsearch .unlimited ⟨rfl,rfl⟩))
  refine ⟨hround,hpositions,x,hstack,hshows,?_,?_,?_,?_,hascending⟩
  all_goals
    rw [← hx]
    rfl

end RunoffAudit
