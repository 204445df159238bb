import Mathlib.Data.List.Flatten
import RunoffAudit.Proofs.Outline
import RunoffAudit.Proofs.Requirement

/-! # The suffixes that a search comes to

No suffix is visited twice. A search that stops at pruned nodes comes to a suffix exactly if the assertions
settle no shorter one on the way. A tree whose requirement is met, whatever its policy, has in it all
suffixes that are reached where the selected assertions stop the search.
-/
namespace RunoffAudit

namespace Node

def walkSuffixes (x : Node) : List Suffix := x.walk.map suffix

theorem walkSuffixes_mk (c : Candidate) (after : Suffix) (p : List Nat) (v : Bool) (cs ds : List Node) :
    (mk c after p v cs ds).walkSuffixes = (c :: after) :: cs.flatMap walkSuffixes := by
  rw [walkSuffixes,walk,walkAll_eq_flatMap,List.map_cons,List.map_flatMap]
  rfl

theorem visitedAll_eq_flatMap (xs : List Node) : visitedAll xs = xs.flatMap visited := by
  induction xs with
  | nil => rfl
  | cons x rest ih => rw [visitedAll,ih,List.flatMap_cons]

theorem visitedSuffixes_mk (c : Candidate) (after : Suffix) (p : List Nat) (v : Bool) (cs ds : List Node) :
    (mk c after p v cs ds).visitedSuffixes = (c :: after) :: (cs ++ ds).flatMap visitedSuffixes := by
  rw [visitedSuffixes,visited,visitedAll_eq_flatMap,visitedAll_eq_flatMap,← List.flatMap_append,List.map_cons,
    List.map_flatMap]
  rfl

theorem visitedSuffixes_join (c : Candidate) (after : Suffix) (pruning undecided : List Numbered)
    (xs : List Node) :
    (join c after pruning undecided xs).visitedSuffixes = (c :: after) :: xs.flatMap visitedSuffixes := by
  unfold join
  dsimp only
  split
  · rw [visitedSuffixes_mk,List.append_nil]
  · split
    · rw [visitedSuffixes_mk,List.nil_append]
    · rw [visitedSuffixes_mk,List.append_nil]

mutual

theorem walk_sublist_visited : (x : Node) → x.walk.Sublist x.visited
  | mk c s p v cs ds => by
    rw [walk,visited]
    exact ((walkAll_sublist_visitedAll cs).trans (List.sublist_append_left _ _)).cons_cons _

theorem walkAll_sublist_visitedAll : (xs : List Node) → (walkAll xs).Sublist (visitedAll xs)
  | [] => List.Sublist.refl _
  | x :: rest => by
    rw [walkAll,visitedAll]
    exact (walk_sublist_visited x).append (walkAll_sublist_visitedAll rest)

end

theorem length_walkSuffixes_le (x : Node) : x.walkSuffixes.length ≤ x.size := by
  rw [walkSuffixes,List.length_map]
  exact (walk_sublist_visited x).length_le

theorem foldl_max_le_iff {l : List Nat} {a m : Nat} : l.foldl max a ≤ m ↔ a ≤ m ∧ ∀ k ∈ l, k ≤ m := by
  induction l generalizing a with
  | nil => simp
  | cons k rest ih => rw [List.foldl_cons,ih,Nat.max_le,List.forall_mem_cons,and_assoc]

theorem maxDepth_le_iff {x : Node} {m : Nat} : x.maxDepth ≤ m ↔ ∀ s ∈ x.visitedSuffixes, s.length ≤ m := by
  rw [maxDepth_eq,foldl_max_le_iff,List.forall_mem_map]
  exact and_iff_right (Nat.zero_le m)

end Node

/-! ## No suffix is visited twice -/

theorem visitedChildren_begins (pruned : Bool) (child : Candidate → Node) (cs : List Candidate) :
    visitedChildren pruned child cs <+: cs.map child := by
  induction cs with
  | nil => exact List.prefix_refl _
  | cons c rest ih =>
    rw [visitedChildren,List.map_cons]
    split
    · exact List.cons_prefix_cons.mpr ⟨rfl,List.nil_prefix⟩
    · exact List.cons_prefix_cons.mpr ⟨rfl,ih⟩

namespace SearchRule
variable {r : SearchRule} {p : Policy} {carried : List Numbered} {after t : Suffix} {c : Candidate} {room : Nat}

theorem tree_succ (r : SearchRule) (room : Nat) (p : Policy) (carried : List Numbered) (after : Suffix)
    (c : Candidate) : ∃ q children, r.tree (room + 1) p carried after c =
        .join c after (r.pruningAt p carried (c :: after)) (undecidedAt carried (c :: after)) children ∧
      children <+: (unplaced r.n (c :: after)).map
        (r.tree room q (undecidedAt carried (c :: after)) (c :: after)) := by
  rw [tree]
  split
  · exact ⟨p,[],rfl,List.nil_prefix⟩
  · split
    · exact ⟨p,_,rfl,visitedChildren_begins _ _ _⟩
    · split
      · exact ⟨p.next,_,rfl,visitedChildren_begins _ _ _⟩
      · exact ⟨p,[],rfl,List.nil_prefix⟩

theorem suffix_of_mem_visitedSuffixes (ht : t ∈ (r.tree room p carried after c).visitedSuffixes) :
    c :: after <:+ t := by
  induction room generalizing p carried after c with
  | zero =>
    rw [tree,Node.visitedSuffixes_join,List.flatMap_nil,List.mem_singleton] at ht
    exact ht ▸ List.suffix_refl _
  | succ room ih =>
    obtain ⟨q,children,htree,hfirst⟩ := r.tree_succ room p carried after c
    rw [htree,Node.visitedSuffixes_join] at ht
    rcases List.mem_cons.mp ht with rfl | ht
    · exact List.suffix_refl _
    · obtain ⟨x,hx,ht⟩ := List.mem_flatMap.mp ht
      obtain ⟨d,_,rfl⟩ := List.mem_map.mp (hfirst.subset hx)
      exact (List.suffix_cons d _).trans (ih ht)

theorem nodup_visitedSuffixes (r : SearchRule) (room : Nat) (p : Policy) (carried : List Numbered)
    (after : Suffix) (c : Candidate) : (r.tree room p carried after c).visitedSuffixes.Nodup := by
  induction room generalizing p carried after c with
  | zero =>
    rw [tree,Node.visitedSuffixes_join]
    exact List.nodup_singleton _
  | succ room ih =>
    obtain ⟨q,children,htree,hfirst⟩ := r.tree_succ room p carried after c
    rw [htree,Node.visitedSuffixes_join]
    apply List.Nodup.sublist ((hfirst.sublist.flatMap _).cons_cons _)
    rw [List.flatMap_map]
    refine List.nodup_cons.mpr ⟨?_,List.nodup_flatMap.mpr ⟨fun d _ => ih q _ _ d,?_⟩⟩
    · -- what is visited below the root is longer
      intro hroot
      obtain ⟨d,_,ht⟩ := List.mem_flatMap.mp hroot
      have hlen := (suffix_of_mem_visitedSuffixes ht).length_le
      rw [List.length_cons] at hlen
      omega
    · apply (nodup_unplaced r.n (c :: after)).imp
      intro d e hde t htd hte
      exact hde (eq_of_cons_suffix (suffix_of_mem_visitedSuffixes htd) (suffix_of_mem_visitedSuffixes hte))

end SearchRule

/-! ## What is reached -/

/-- A search from `s` that goes on only where the test fails comes to `t`. -/
structure Reaches (n : Int) (stop : Suffix → Bool) (s t : Suffix) : Prop where
  placed : Placed n t
  ends : s <:+ t
  goesOn : ∀ u, s <:+ u → u <:+ t → u ≠ t → stop u = false

section Reaches
variable {n : Int} {stop stop' : Suffix → Bool} {s t : Suffix}

theorem Reaches.mono (h : Reaches n stop s t)
    (hstop : ∀ u, Placed n u → s <:+ u → stop' u = true → stop u = true) : Reaches n stop' s t := by
  refine ⟨h.placed,h.ends,?_⟩
  intro u hs hu hne
  have hgoes := h.goesOn u hs hu hne
  apply Bool.eq_false_iff.mpr
  intro hstops
  rw [hstop u (h.placed.of_suffix hu) hs hstops] at hgoes
  cases hgoes

theorem reaches_congr (hstop : ∀ u, Placed n u → s <:+ u → stop u = stop' u) :
    Reaches n stop s t ↔ Reaches n stop' s t :=
  ⟨fun h => h.mono fun u hu hs hstops => (hstop u hu hs).trans hstops,
    fun h => h.mono fun u hu hs hstops => (hstop u hu hs).symm.trans hstops⟩

/-- The search is at its end or goes on with an open candidate. -/
theorem reaches_iff (hs : Placed n s) : Reaches n stop s t ↔
    t = s ∨ stop s = false ∧ ∃ d ∈ unplaced n s, Reaches n stop (d :: s) t := by
  constructor
  · intro h
    rcases h.placed.eq_or_cons_suffix h.ends with rfl | ⟨d,hd,hds⟩
    · exact Or.inl rfl
    · have hne : s ≠ t := by
        rintro rfl
        have hlen := hds.length_le
        rw [List.length_cons] at hlen
        omega
      refine Or.inr ⟨h.goesOn s (List.suffix_refl s) h.ends hne,d,hd,h.placed,hds,?_⟩
      exact fun u hdu => h.goesOn u ((List.suffix_cons d s).trans hdu)
  · rintro (rfl | ⟨hstop,d,_,h⟩)
    · refine ⟨hs,List.suffix_refl t,?_⟩
      intro u htu hut hne
      exact absurd (hut.eq_of_length_le htu.length_le) hne
    · refine ⟨h.placed,(List.suffix_cons d s).trans h.ends,?_⟩
      intro u hsu hut hne
      rcases (h.placed.of_suffix hut).eq_or_cons_suffix hsu with rfl | ⟨e,_,heu⟩
      · exact hstop
      · obtain rfl := eq_of_cons_suffix h.ends (heu.trans hut)
        exact h.goesOn u heu hut hne

theorem reaches_of_stop (hs : Placed n s) (hstop : stop s = true) : Reaches n stop s t ↔ t = s := by
  rw [reaches_iff hs,hstop]
  simp

end Reaches

namespace SearchRule
variable {r : SearchRule} {p : Policy} {carried : List Numbered} {after t : Suffix} {c : Candidate} {x : Node}
  {selected : List Nat} {stop : Suffix → Bool}

theorem Builds.visitedSuffixes_eq (h : r.Builds .stopImmediately carried after c x) :
    x.visitedSuffixes = x.walkSuffixes := by
  refine h.stop_induction (motive := fun _ _ _ x => x.visitedSuffixes = x.walkSuffixes) ?leaf ?opened
  case leaf =>
    intro carried after c _
    rfl
  case opened =>
    intro carried after c child _ _ ih
    rw [Node.visitedSuffixes_mk,Node.walkSuffixes_mk,List.append_nil,List.flatMap_map,List.flatMap_map]
    congr 1
    apply List.flatMap_congr
    intro d hd
    exact (ih d hd).2

/-- A search that stops at pruned nodes goes on exactly where the assertions settle nothing. -/
theorem Builds.mem_walkSuffixes_iff (h : r.Builds .stopImmediately carried after c x)
    (hs : Placed r.n (c :: after)) :
    t ∈ x.walkSuffixes ↔ Reaches r.n (settled (carried.map (·.1))) (c :: after) t := by
  refine h.stop_induction (motive := fun carried after c x => Placed r.n (c :: after) →
    (t ∈ x.walkSuffixes ↔ Reaches r.n (settled (carried.map (·.1))) (c :: after) t)) ?leaf ?opened hs
  case leaf =>
    intro carried after c hstop hs
    rw [Node.walkSuffixes_mk,reaches_of_stop hs hstop]
    exact List.mem_singleton
  case opened =>
    intro carried after c child hpruned hu ih hs
    have hr : refuted (carried.map (·.1)) (c :: after) = false := pruningAt_eq_nil_iff.mp hpruned
    rw [Node.walkSuffixes_mk,List.flatMap_map,List.mem_cons,List.mem_flatMap,reaches_iff hs,
      settled_open hpruned hu]
    simp only [true_and]
    apply or_congr_right
    apply exists_congr
    intro d
    apply and_congr_right
    intro hd
    rw [(ih d hd).2 (hs.cons hd),undecidedAt_map]
    apply reaches_congr
    intro u hu hdu
    obtain ⟨hrefuted,hgranted⟩ := agree_undecided hr hu ((List.suffix_cons d _).trans hdu)
    rw [settled,settled,hrefuted,hgranted]

/-- The selected assertions stop the search wherever they contradict a suffix. -/
def StopsFor (carried : List Numbered) (selected : List Nat) (stop : Suffix → Bool) : Prop :=
  ∀ y ∈ carried, y.2 ∈ selected → ∀ s, y.1.effect s = .contradiction → stop s = true

theorem StopsFor.undecided (h : StopsFor carried selected stop) (s : Suffix) :
    StopsFor (undecidedAt carried s) selected stop :=
  fun y hy => h y (mem_undecidedAt.mp hy).1

theorem StopsFor.of_pruning (h : StopsFor carried selected stop)
    (hmet : ∃ i ∈ (r.pruningAt p carried (c :: after)).map (·.2), i ∈ selected) : stop (c :: after) = true := by
  obtain ⟨i,hi,hsel⟩ := hmet
  obtain ⟨y,hy,rfl⟩ := List.mem_map.mp hi
  obtain ⟨hy,he⟩ := mem_of_mem_pruningAt hy
  exact h y hy hsel _ he

theorem mem_walkSuffixes_of_stop {pruning : List Nat} {v : Bool} {cs ds : List Node} (hs : Placed r.n (c :: after))
    (hstop : stop (c :: after) = true) (ht : Reaches r.n stop (c :: after) t) :
    t ∈ (Node.mk c after pruning v cs ds).walkSuffixes := by
  rw [Node.walkSuffixes_mk,(reaches_of_stop hs hstop).mp ht]
  exact List.mem_cons_self

theorem mem_walkSuffixes_of_child {pruning : List Nat} {v : Bool} {child : Candidate → Node} {ds : List Node}
    (hs : Placed r.n (c :: after)) (ht : Reaches r.n stop (c :: after) t)
    (h : ∀ d ∈ unplaced r.n (c :: after), Reaches r.n stop (d :: c :: after) t → t ∈ (child d).walkSuffixes) :
    t ∈ (Node.mk c after pruning v ((unplaced r.n (c :: after)).map child) ds).walkSuffixes := by
  rw [Node.walkSuffixes_mk,List.flatMap_map]
  rcases (reaches_iff hs).mp ht with rfl | ⟨_,d,hd,hdt⟩
  · exact List.mem_cons_self
  · exact List.mem_cons_of_mem _ (List.mem_flatMap.mpr ⟨d,hd,h d hd hdt⟩)

/-- Whatever a search comes to that the selected assertions stop is in any tree whose requirement they meet. -/
theorem Builds.mem_walkSuffixes_of_isMet (h : r.Builds p carried after c x) (hstop : StopsFor carried selected stop)
    (hs : Placed r.n (c :: after)) (hmet : (Requirement.ofNode x).isMet selected = true)
    (ht : Reaches r.n stop (c :: after) t) : t ∈ x.walkSuffixes := by
  induction h with
  | decided hu => exact mem_walkSuffixes_of_stop hs (hstop.of_pruning (Requirement.isMet_leaf_iff.mp hmet)) ht
  | stopped hp hu hc => exact mem_walkSuffixes_of_stop hs (hstop.of_pruning (Requirement.isMet_leaf_iff.mp hmet)) ht
  | opened hp hu hchild ih =>
    apply mem_walkSuffixes_of_child hs ht
    intro d hd hdt
    rcases Requirement.isMet_ofNode_iff.mp hmet with ⟨i,hi,_⟩ | ⟨_,hall⟩
    · cases hi
    · exact ih d hd (hstop.undecided _) (hs.cons hd) (hall _ (List.mem_map_of_mem hd)) hdt
  | passed hp hu hc hchild hv ih =>
    rcases Requirement.isMet_ofNode_iff.mp hmet with hpruning | ⟨_,hall⟩
    · exact mem_walkSuffixes_of_stop hs (hstop.of_pruning hpruning) ht
    · apply mem_walkSuffixes_of_child hs ht
      intro d hd hdt
      exact ih d hd (hstop.undecided _) (hs.cons hd) (hall _ (List.mem_map_of_mem hd)) hdt
  | dropped hp hu hc hchild hv ih =>
    exact mem_walkSuffixes_of_stop hs (hstop.of_pruning (Requirement.isMet_leaf_iff.mp hmet)) ht

end SearchRule
end RunoffAudit
