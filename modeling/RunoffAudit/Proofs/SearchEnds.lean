import Mathlib.Algebra.GroupWithZero.Nat
import Mathlib.Algebra.Order.BigOperators.Group.List
import Mathlib.Algebra.Order.Group.Nat
import RunoffAudit.Proofs.StackSearch

/-! # The search with a stack ends

Between two turns some suffixes are listed and some are pending: those that the frames on the stack have still to
try. A turn takes a node off the stack, or it lists the first pending suffix. If that node's children are to be
visited, their suffixes are pending in its place, and each leaves one candidate less open. So the turns left
can be counted, whatever the assertions and the policy are: where no assertion is ever decided, the
candidates run out. A suffix is pending only if none that ends in it was listed, so none is listed twice.
-/
namespace RunoffAudit
open Metered

/-! ## Suffixes that grow from a candidate -/

/-- The suffixes that a search for `c` can come to, with one open candidate after the other put in front. -/
inductive Grown (n : Int) (c : Candidate) : Suffix → Prop where
  | root : Grown n c [c]
  | cons {s : Suffix} {d : Candidate} (hs : Grown n c s) (hd : d ∈ unplaced n s) : Grown n c (d :: s)

namespace Grown
variable {n : Int} {c : Candidate} {s : Suffix}

theorem nodup (h : Grown n c s) : s.Nodup := by
  induction h with
  | root => exact List.nodup_singleton c
  | cons _ hd ih => exact List.nodup_cons.mpr ⟨(mem_unplaced.mp hd).2,ih⟩

theorem length_add (h : Grown n c s) : s.length + (unplaced n s).length = 1 + (unplaced n [c]).length := by
  induction h with
  | root => rfl
  | cons _ hd ih =>
    have hpos := List.length_pos_of_mem hd
    rw [List.length_cons,length_unplaced_cons hd]
    omega

theorem length_le (h : Grown n c s) : (s.length : Int) ≤ max n 0 + 1 := by
  have hadd := h.length_add
  have hopen := length_unplaced_le n [c]
  omega

theorem length_le_of_inContest (h : Grown n c s) (hc : 0 ≤ c ∧ c < n) : (s.length : Int) ≤ n := by
  have hn : 0 < n := lt_of_le_of_lt hc.1 hc.2
  have hadd := h.length_add
  rw [length_unplaced (placed_singleton hc),List.length_singleton] at hadd
  omega

end Grown

/-! ## Listed and pending suffixes -/

/-- In a search for `c`, no suffix is listed twice, and what is pending is still to come: nothing listed ends in a
pending suffix, and no order ends in two of them. -/
structure Exploration (n : Int) (c : Candidate) (listed pending : List Suffix) : Prop where
  listedGrown : ∀ s ∈ listed, Grown n c s
  pendingGrown : ∀ t ∈ pending, Grown n c t
  distinct : listed.Nodup
  fresh : ∀ t ∈ pending, ∀ s ∈ listed, ¬ t <:+ s
  apart : pending.Pairwise Apart

namespace Exploration
variable {n : Int} {c : Candidate} {t : Suffix} {listed pending pending' rest : List Suffix}

theorem start (n : Int) (c : Candidate) : Exploration n c [] [[c]] where
  listedGrown := by simp
  pendingGrown := by simpa using Grown.root
  distinct := List.nodup_nil
  fresh := by simp
  apart := List.pairwise_singleton _ _

theorem sublist (h : Exploration n c listed pending) (hsub : pending'.Sublist pending) :
    Exploration n c listed pending' where
  listedGrown := h.listedGrown
  pendingGrown t ht := h.pendingGrown t (hsub.subset ht)
  distinct := h.distinct
  fresh t ht := h.fresh t (hsub.subset ht)
  apart := h.apart.sublist hsub

theorem opened (h : Exploration n c listed (t :: rest)) :
    Exploration n c (listed ++ [t]) ((unplaced n t).map (· :: t) ++ rest) := by
  have hgrown := h.pendingGrown t List.mem_cons_self
  have hfresh := h.fresh t List.mem_cons_self
  obtain ⟨hapart,hrest⟩ := List.pairwise_cons.mp h.apart
  refine ⟨?listed,?pending,?distinct,?fresh,?apart⟩
  case listed =>
    intro s hs
    rcases List.mem_append.mp hs with hs | hs
    · exact h.listedGrown s hs
    · exact List.mem_singleton.mp hs ▸ hgrown
  case pending =>
    intro u hu
    rcases List.mem_append.mp hu with hu | hu
    · obtain ⟨d,hd,rfl⟩ := List.mem_map.mp hu
      exact hgrown.cons hd
    · exact h.pendingGrown u (List.mem_cons_of_mem t hu)
  case distinct =>
    have hnew : t ∉ listed := fun ht => hfresh t ht (List.suffix_refl t)
    exact List.nodup_append_comm.mp (List.nodup_cons.mpr ⟨hnew,h.distinct⟩)
  case fresh =>
    intro u hu s hs hus
    rcases List.mem_append.mp hu with hu | hu <;> rcases List.mem_append.mp hs with hs | hs
    · obtain ⟨d,_,rfl⟩ := List.mem_map.mp hu
      exact hfresh s hs ((List.suffix_cons d t).trans hus)
    · -- a child's suffix is longer than its parent's
      obtain ⟨d,_,rfl⟩ := List.mem_map.mp hu
      have hlen := (List.mem_singleton.mp hs ▸ hus).length_le
      rw [List.length_cons] at hlen
      omega
    · exact h.fresh u (List.mem_cons_of_mem t hu) s hs hus
    · exact hapart u hu t (List.suffix_refl t) (List.mem_singleton.mp hs ▸ hus)
  case apart =>
    refine List.pairwise_append.mpr ⟨?_,hrest,?_⟩
    · refine List.pairwise_map.mpr ((nodup_unplaced n t).imp ?_)
      intro d e hde order hd he
      exact hde (eq_of_cons_suffix hd he)
    · intro u hu v hv order huo
      obtain ⟨d,_,rfl⟩ := List.mem_map.mp hu
      exact hapart v hv order ((List.suffix_cons d t).trans huo)

end Exploration

/-! ## The turns that are left -/

/-- The turns for visiting pending suffixes and all that can grow from them. -/
def turnsForAll (n : Int) (pending : List Suffix) : Nat :=
  (pending.map fun t => 1 + turnsFor (unplaced n t).length).sum

theorem turnsForAll_cons (n : Int) (t : Suffix) (rest : List Suffix) :
    turnsForAll n (t :: rest) = 1 + turnsFor (unplaced n t).length + turnsForAll n rest := rfl

theorem turnsForAll_append (n : Int) (front rest : List Suffix) :
    turnsForAll n (front ++ rest) = turnsForAll n front + turnsForAll n rest := by
  simp [turnsForAll]

theorem turnsForAll_le_of_sublist {n : Int} {pending pending' : List Suffix} (h : pending'.Sublist pending) :
    turnsForAll n pending' ≤ turnsForAll n pending :=
  (h.map _).sum_le_sum fun _ _ => Nat.zero_le _

/-- A node takes the turns of its children, and one to be taken off the stack. -/
theorem turnsForAll_children (n : Int) (t : Suffix) :
    turnsForAll n ((unplaced n t).map (· :: t)) + 1 = turnsFor (unplaced n t).length := by
  have hchild : ∀ d ∈ unplaced n t, 1 + turnsFor (unplaced n (d :: t)).length =
      1 + turnsFor ((unplaced n t).length - 1) := by
    intro d hd
    rw [length_unplaced_cons hd]
  rw [turnsForAll,List.map_map,turnsFor_eq]
  simp only [Function.comp_def]
  rw [List.map_congr_left hchild,List.map_const',List.sum_replicate,Nat.nsmul_eq_mul]

/-! ## What a turn does -/

/-- The suffixes that a frame has still to try, if those of the nodes are `listed`. -/
def Frame.pending (listed : List Suffix) (f : Frame) : List Suffix := f.untried.map (· :: listed.getD f.node [])

namespace Construction

def listed (m : Construction) : List Suffix := m.arena.map ArenaEntry.suffix

def pending (m : Construction) : List Suffix := m.stack.flatMap (Frame.pending m.listed)

/-- The frames on the stack are of nodes in the list. -/
def Framed (m : Construction) : Prop := ∀ f ∈ m.stack, f.node < m.arena.length

/-- What a turn does to the suffixes and to the height of the stack. -/
inductive Advances (n : Int) (m m' : Construction) : Prop where
  /-- A node is taken off the stack. With its report the visit of its parent may end. -/
  | closes (hlisted : m'.listed = m.listed) (hpending : m'.pending.Sublist m.pending)
      (hstack : m'.stack.length + 1 = m.stack.length)
  | lists (t : Suffix) (rest : List Suffix) (hfirst : m.pending = t :: rest) (hlisted : m'.listed = m.listed ++ [t])
      (hpending : m'.pending.Sublist rest) (hstack : m'.stack.length = m.stack.length)
  | opens (t : Suffix) (rest : List Suffix) (hfirst : m.pending = t :: rest) (hlisted : m'.listed = m.listed ++ [t])
      (hpending : m'.pending = (unplaced n t).map (· :: t) ++ rest) (hstack : m'.stack.length = m.stack.length + 1)

/-- An upper bound for the turns until the stack is empty. -/
def turnsLeft (n : Int) (m : Construction) : Nat := turnsForAll n m.pending + m.stack.length

variable {n : Int} {c : Candidate} {m m' : Construction}

theorem Advances.explores (h : Advances n m m') (hm : Exploration n c m.listed m.pending) :
    Exploration n c m'.listed m'.pending := by
  cases h with
  | closes hlisted hpending =>
    rw [hlisted]
    exact hm.sublist hpending
  | lists t rest hfirst hlisted hpending =>
    rw [hfirst] at hm
    rw [hlisted]
    exact hm.opened.sublist (hpending.trans (List.sublist_append_right _ rest))
  | opens t rest hfirst hlisted hpending =>
    rw [hfirst] at hm
    rw [hlisted,hpending]
    exact hm.opened

theorem Advances.turnsLeft_lt (h : Advances n m m') : m'.turnsLeft n < m.turnsLeft n := by
  unfold turnsLeft
  cases h with
  | closes _ hpending hstack =>
    have hle := turnsForAll_le_of_sublist (n := n) hpending
    omega
  | lists t rest hfirst _ hpending hstack =>
    have hle := turnsForAll_le_of_sublist (n := n) hpending
    rw [hfirst,turnsForAll_cons]
    omega
  | opens t rest hfirst _ hpending hstack =>
    have hchildren := turnsForAll_children n t
    rw [hfirst,hpending,turnsForAll_cons,turnsForAll_append]
    omega

/-! ## One turn -/

section Framed
variable {t : Suffix} {arena arena' : List ArenaEntry} {below : List Frame} {f : Frame}

theorem pending_cons (arena : List ArenaEntry) (f : Frame) (below : List Frame) :
    pending ⟨arena,f :: below⟩ = f.pending (arena.map ArenaEntry.suffix) ++ pending ⟨arena,below⟩ := List.flatMap_cons

theorem Framed.of_cons (hframed : Framed ⟨arena,f :: below⟩) : Framed ⟨arena,below⟩ :=
  fun g hg => hframed g (List.mem_cons_of_mem f hg)

theorem Framed.cons (hframed : Framed ⟨arena,below⟩) (hf : f.node < arena.length) : Framed ⟨arena,f :: below⟩ := by
  intro g hg
  rcases List.mem_cons.mp hg with rfl | hg
  · exact hf
  · exact hframed g hg

/-- The frames do not notice a node that is put at the end of the list. -/
theorem Framed.after_listing (hframed : Framed ⟨arena,below⟩)
    (hlisted : arena'.map ArenaEntry.suffix = arena.map ArenaEntry.suffix ++ [t]) :
    Framed ⟨arena',below⟩ ∧ pending ⟨arena',below⟩ = pending ⟨arena,below⟩ := by
  have hlength : arena'.length = arena.length + 1 := by simpa using congrArg List.length hlisted
  refine ⟨?_,List.flatMap_congr ?_⟩
  · intro f hf
    have hnode : f.node < arena.length := hframed f hf
    show f.node < arena'.length
    omega
  · intro f hf
    have hnode : f.node < (arena.map ArenaEntry.suffix).length := by simpa using hframed f hf
    simp [Frame.pending,Construction.listed,hlisted,List.getElem?_append_left hnode]

theorem Framed.after_opening (hframed : Framed ⟨arena,below⟩)
    (hlisted : arena'.map ArenaEntry.suffix = arena.map ArenaEntry.suffix ++ [t]) (hnode : f.node = arena.length)
    (huntried : f.untried = unplaced n t) :
    Framed ⟨arena',f :: below⟩ ∧ pending ⟨arena',f :: below⟩ = (unplaced n t).map (· :: t) ++ pending ⟨arena,below⟩ := by
  have hlength : arena'.length = arena.length + 1 := by simpa using congrArg List.length hlisted
  have hown : (arena'.map ArenaEntry.suffix).getD f.node [] = t := by simp [hlisted,hnode]
  obtain ⟨hframed',hpending⟩ := hframed.after_listing hlisted
  refine ⟨hframed'.cons (by omega),?_⟩
  rw [pending_cons,hpending,Frame.pending,hown,huntried]

end Framed

end Construction

namespace SearchRule
variable {r : SearchRule} {p : Policy} {carried : List Numbered} {c : Candidate} {arena : List ArenaEntry}
  {parent : Option Nat} {i : Nat} {f : Frame} {below : List Frame} {m : Construction}

theorem suffixAt_some (arena : List ArenaEntry) (i : Nat) :
    suffixAt arena (some i) = (arena.map ArenaEntry.suffix).getD i [] := by
  rw [suffixAt,Option.bind_some,List.getD_eq_getElem?_getD,List.getElem?_map]

/-- Visiting a node lists its suffix. If there is a frame, all candidates that the suffix leaves open are to be tried. -/
theorem enter_returns (r : SearchRule) (arena : List ArenaEntry) (parent : Option Nat) (c : Candidate)
    (carried : List Numbered) (p : Policy) :
    ∃ arena' frame, (r.enter arena parent c carried p).Returns (arena',frame) ∧
      arena'.map ArenaEntry.suffix = arena.map ArenaEntry.suffix ++ [c :: suffixAt arena parent] ∧
      ∀ f, frame = some f → f.node = arena.length ∧ f.untried = unplaced r.n (c :: suffixAt arena parent) := by
  let placed := r.place arena parent c carried p
  refine ⟨placed.1,placed.2,Returns.tick_bind (returns_pure placed),by simp [placed,place],?_⟩
  intro f hf
  simp only [placed,place] at hf
  split_ifs at hf
  all_goals
    obtain rfl := Option.some.inj hf
    exact ⟨rfl,rfl⟩

theorem map_suffix_modify {g : ArenaEntry → ArenaEntry} (hg : ∀ e, (g e).suffix = e.suffix) :
    (arena.modify i g).map ArenaEntry.suffix = arena.map ArenaEntry.suffix := by
  apply List.ext_getElem?
  intro k
  rw [List.getElem?_map,List.getElem?_map,List.getElem?_modify]
  cases arena[k]? with
  | none => rfl
  | some e => split_ifs <;> simp [hg]

/-- A report changes no suffix. The parent has the same candidates to be tried as before, or none. -/
theorem report_keeps (arena : List ArenaEntry) (f : Frame) (child : Nat) :
    (report arena f child).1.map ArenaEntry.suffix = arena.map ArenaEntry.suffix ∧
      (report arena f child).2.node = f.node ∧ (report arena f child).2.untried.Sublist f.untried := by
  unfold report
  split_ifs
  · exact ⟨map_suffix_modify fun _ => rfl,rfl,List.nil_sublist _⟩
  · exact ⟨map_suffix_modify fun _ => rfl,rfl,List.Sublist.refl _⟩
  · exact ⟨map_suffix_modify fun _ => rfl,rfl,List.Sublist.refl _⟩

theorem framed_after_report (hframed : Construction.Framed ⟨arena,f :: below⟩) (child : Nat) :
    let m : Construction := ⟨(report arena f child).1,(report arena f child).2 :: below⟩
    m.Framed ∧ m.listed = arena.map ArenaEntry.suffix ∧
      m.pending.Sublist (Construction.pending ⟨arena,f :: below⟩) := by
  intro m
  obtain ⟨hlisted,hnode,huntried⟩ := report_keeps arena f child
  have hlength : m.arena.length = arena.length := by simpa using congrArg List.length hlisted
  have hbelow : Construction.pending ⟨m.arena,below⟩ = Construction.pending ⟨arena,below⟩ :=
    congrArg (fun listed => below.flatMap (Frame.pending listed)) hlisted
  refine ⟨?_,hlisted,?_⟩
  · intro g hg
    rw [hlength]
    rcases List.mem_cons.mp hg with rfl | hg
    · exact hnode ▸ hframed f List.mem_cons_self
    · exact hframed.of_cons g hg
  · rw [Construction.pending_cons,Construction.pending_cons,hbelow,hlisted]
    refine List.Sublist.append ?_ (List.Sublist.refl _)
    rw [Frame.pending,Frame.pending,hnode]
    exact huntried.map _

/-- Every turn advances, whatever assertions are carried on and whatever the policies are. -/
theorem turn_advances (hframed : m.Framed) (hopen : m.stack ≠ []) :
    ∃ m', (r.turn m).Returns m' ∧ m'.Framed ∧ m.Advances r.n m' := by
  obtain ⟨arena,stack⟩ := m
  -- no case looks at what an assertion says: only the frames decide which turn it is
  match stack with
  | [] => exact absurd rfl hopen
  | [⟨node,carried,p,[]⟩] =>
    exact ⟨⟨arena,[]⟩,returns_pure _,fun f hf => absurd hf List.not_mem_nil,
      .closes rfl (List.nil_sublist _) rfl⟩
  | ⟨node,carried,p,[]⟩ :: f :: below =>
    obtain ⟨hframed',hlisted,hpending⟩ := framed_after_report hframed.of_cons node
    exact ⟨_,returns_pure _,hframed',.closes hlisted hpending rfl⟩
  | ⟨node,carried,p,d :: untried⟩ :: below =>
    have hparent : Construction.Framed ⟨arena,⟨node,carried,p,untried⟩ :: below⟩ :=
      hframed.of_cons.cons (hframed ⟨node,carried,p,d :: untried⟩ List.mem_cons_self)
    have hfirst : Construction.pending ⟨arena,⟨node,carried,p,d :: untried⟩ :: below⟩ =
        (d :: suffixAt arena (some node)) :: Construction.pending ⟨arena,⟨node,carried,p,untried⟩ :: below⟩ := by
      rw [suffixAt_some]
      rfl
    obtain ⟨arena',frame,henter,hlisted,hframe⟩ := r.enter_returns arena (some node) d carried p
    cases frame with
    | none =>
      obtain ⟨hframed',hpending⟩ := hparent.after_listing hlisted
      obtain ⟨hframed'',hreported,hsub⟩ := framed_after_report hframed' (arena'.length - 1)
      exact ⟨_,henter.bind (returns_pure _),hframed'',.lists _ _ hfirst (hreported.trans hlisted) (hpending ▸ hsub) rfl⟩
    | some child =>
      obtain ⟨hnode,huntried⟩ := hframe child rfl
      obtain ⟨hframed',hpending⟩ := hparent.after_opening hlisted hnode huntried
      exact ⟨_,henter.bind (returns_pure _),hframed',.opens _ _ hfirst hlisted hpending rfl⟩

/-! ## The whole search -/

/-- The loop ends with the list: it takes a turn as long as there is a node on the stack. -/
inductive LoopEnds (r : SearchRule) : Construction → List ArenaEntry → Prop where
  | empty (arena : List ArenaEntry) : LoopEnds r ⟨arena,[]⟩ arena
  | turn {m m' : Construction} {arena : List ArenaEntry} (hopen : m.stack ≠ []) (hturn : (r.turn m).Returns m')
      (hrest : LoopEnds r m' arena) : LoopEnds r m arena

/-- The search visits its root and then ends with the list. -/
def Ends (r : SearchRule) (p : Policy) (carried : List Numbered) (c : Candidate) (arena : List ArenaEntry) : Prop :=
  ∃ first frame, (r.enter [] none c carried p).Returns (first,frame) ∧ r.LoopEnds ⟨first,frame.toList⟩ arena

theorem run_ends {turns : Nat} (hframed : m.Framed) (hexplored : Exploration r.n c m.listed m.pending)
    (hturns : m.turnsLeft r.n ≤ turns) :
    ∃ arena, (r.run turns m).Returns ⟨arena,[]⟩ ∧ r.LoopEnds m arena ∧
      Exploration r.n c (arena.map ArenaEntry.suffix) [] := by
  -- each turn uses up at least one of the turns left, so they last until the stack is empty
  induction turns generalizing m with
  | zero =>
    obtain ⟨arena,stack⟩ := m
    have hstack : stack.length ≤ 0 := (Nat.le_add_left _ _).trans hturns
    obtain rfl := List.length_eq_zero_iff.mp (Nat.le_zero.mp hstack)
    exact ⟨arena,returns_pure _,.empty arena,hexplored⟩
  | succ turns ih =>
    by_cases hopen : m.stack = []
    · obtain ⟨arena,stack⟩ := m
      subst hopen
      exact ⟨arena,returns_pure _,.empty arena,hexplored⟩
    · obtain ⟨m',hturn,hframed',hadvances⟩ := turn_advances hframed hopen
      have hlt := hadvances.turnsLeft_lt
      obtain ⟨arena,hrun,hends,hlast⟩ := ih hframed' (hadvances.explores hexplored) (by omega)
      refine ⟨arena,?_,.turn hopen hturn hends,hlast⟩
      rw [run,if_neg (by simpa using hopen)]
      exact hturn.bind hrun

end SearchRule

theorem buildArena_ends (r : SearchRule) (p : Policy) (carried : List Numbered) (c : Candidate) :
    ∃ arena, (buildArena r p carried c).Returns arena ∧ r.Ends p carried c arena ∧
      Exploration r.n c (arena.map ArenaEntry.suffix) [] := by
  have hstart := (Exploration.start r.n c).opened
  have hempty : Construction.Framed ⟨[],[]⟩ := fun f hf => absurd hf List.not_mem_nil
  obtain ⟨first,frame,henter,hlisted,hframe⟩ := r.enter_returns [] none c carried p
  cases frame with
  | none =>
    refine ⟨first,henter.bind (returns_pure _),⟨first,none,henter,.empty first⟩,?_⟩
    rw [hlisted]
    exact hstart.sublist (List.nil_sublist _)
  | some f =>
    obtain ⟨hnode,huntried⟩ := hframe f rfl
    obtain ⟨hframed,hpending⟩ := hempty.after_opening hlisted hnode huntried
    have hexplored : Exploration r.n c (first.map ArenaEntry.suffix) (Construction.pending ⟨first,[f]⟩) := by
      rw [hlisted,hpending]
      exact hstart
    have hturns : Construction.turnsLeft r.n ⟨first,[f]⟩ ≤ turnsFor f.untried.length := by
      rw [Construction.turnsLeft,hpending,huntried,← turnsForAll_children]
      exact (congrArg (turnsForAll r.n · + 1) (List.append_nil _)).le
    obtain ⟨arena,hrun,hends,hlast⟩ := SearchRule.run_ends hframed hexplored hturns
    exact ⟨arena,henter.bind (hrun.bind (returns_pure _)),⟨first,some f,henter,hends⟩,hlast⟩

/-- The loop ends, with the list that the search returns: for every number of candidates, every candidate, assertions
that all have a round and need not be well formed, any of their positions, and whatever the policy and the nodes
record. Of the nodes in the list, dropped ones included, no two have the same suffix. No suffix has a candidate
twice, and none is longer than the candidates of the contest and the candidate itself allow. -/
theorem buildArenaChecked_ends {assertions : List Assertion} {positions : List Nat}
    (hround : ∀ a ∈ assertions, a.hasRound) (hpositions : ∀ i ∈ positions, i < assertions.length)
    (r : SearchRule) (p : Policy) (c : Candidate) :
    ∃ arena, (buildArenaChecked r p assertions positions c).Gives (.ok arena) ∧
      r.Ends p (numberedAt assertions positions) c arena ∧
      (arena.map ArenaEntry.suffix).Nodup ∧ (∀ e ∈ arena, e.suffix.Nodup) ∧
      ∀ e ∈ arena, (e.suffix.length : Int) ≤ if 0 ≤ c ∧ c < r.n then r.n else max r.n 0 + 1 := by
  obtain ⟨arena,hbuild,hends,hlast⟩ := buildArena_ends r p (numberedAt assertions positions) c
  have hgrown : ∀ e ∈ arena, Grown r.n c e.suffix := fun e he => hlast.listedGrown _ (List.mem_map_of_mem he)
  refine ⟨arena,?built,hends,hlast.distinct,fun e he => (hgrown e he).nodup,?length⟩
  case built =>
    rw [buildArenaChecked,checkAt_eq_ok hround hpositions]
    exact (hbuild.bind (f := fun list => pure (Except.ok list)) (returns_pure _)).gives
  case length =>
    intro e he
    split_ifs with hc
    · exact (hgrown e he).length_le_of_inContest hc
    · exact (hgrown e he).length_le

/-- A candidate that is none of the two, and an assertion whose winner nobody is. Below the pruned node `[1,7]` the valid
child `[0,1,7]` was dropped. It is as long as any suffix can be. -/
theorem buildArenaChecked_ends_stranger :
    (∀ a ∈ [Assertion.neb 0 1,.nen 9 1 (.ofList [0,1,7])], a.hasRound) ∧ (∀ i ∈ [1,0,1], i < 2) ∧
    ∃ arena,
      (buildArenaChecked ⟨2,false⟩ (.other "onwards") [.neb 0 1,.nen 9 1 (.ofList [0,1,7])] [1,0,1] 7).Gives (.ok arena) ∧
      SearchRule.Ends ⟨2,false⟩ (.other "onwards") (numberedAt [.neb 0 1,.nen 9 1 (.ofList [0,1,7])] [1,0,1]) 7 arena ∧
      arena.map ArenaEntry.suffix = [[7],[0,7],[1,0,7],[1,7],[0,1,7]] ∧
      arena.map ArenaEntry.children = [[1,3],[2],[],[],[]] ∧
      (∀ e ∈ arena, e.suffix.Nodup) ∧ ∀ e ∈ arena, (e.suffix.length : Int) ≤ 3 := by
  have hround : ∀ a ∈ [Assertion.neb 0 1,.nen 9 1 (.ofList [0,1,7])], a.hasRound := by decide
  have hpositions : ∀ i ∈ [1,0,1], i < 2 := by decide
  obtain ⟨arena,hbuild,hends,_,hnodup,hlength⟩ :=
    buildArenaChecked_ends hround hpositions ⟨2,false⟩ (.other "onwards") 7
  have harena := Except.ok.inj (Except.ok.inj (hbuild .unlimited ⟨rfl,rfl⟩))
  refine ⟨hround,hpositions,arena,hbuild,hends,?_,?_,hnodup,hlength⟩
  all_goals
    rw [← harena]
    rfl

end RunoffAudit
