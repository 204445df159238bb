import RunoffAudit.Proofs.Numbering
import RunoffAudit.Search.Stack

/-! # The stack builds the tree

Between two turns the list holds what was visited of the tree: the node on top of the stack has an entry as
if the children visited so far were all, and their blocks stand behind it. A child's block is built in
turns of its own and then reported, which leaves the entry as if there were one child more. The turns
that a node takes are bounded by the candidates it leaves open, so the search ends with an empty stack,
and the list is that of the recursive search.
-/
namespace RunoffAudit
open Metered

theorem turnsFor_eq (k : Nat) : turnsFor k = k * (1 + turnsFor (k - 1)) + 1 := by
  cases k with
  | zero => rw [turnsFor,Nat.zero_mul]
  | succ k => rw [turnsFor,Nat.add_sub_cancel]

theorem Node.numbersFrom_append (start : Nat) (xs ys : List Node) :
    numbersFrom start (xs ++ ys) = numbersFrom start xs ++ numbersFrom (start + (visitedAll xs).length) ys := by
  induction xs generalizing start with
  | nil => rfl
  | cons x rest ih =>
    rw [List.cons_append,numbersFrom,numbersFrom,ih,length_visitedAll_cons,Nat.add_assoc,List.cons_append]

theorem Node.arenaAll_append (parent start : Nat) (xs ys : List Node) :
    arenaAll parent start (xs ++ ys) =
      arenaAll parent start xs ++ arenaAll parent (start + (visitedAll xs).length) ys := by
  induction xs generalizing start with
  | nil => rfl
  | cons x rest ih =>
    rw [List.cons_append,arenaAll,arenaAll,ih,length_visitedAll_cons,Nat.add_assoc,List.append_assoc]

/-- A joined node's entry. Whether its children were kept or dropped, their blocks come next. -/
theorem Node.arenaFrom_join (parent : Option Nat) (i : Nat) (c : Candidate) (after : Suffix)
    (pruning undecided : List Numbered) (xs : List Node) :
    (join c after pruning undecided xs).arenaFrom parent i =
      ⟨c,parent,c :: after,pruning.map (·.2),
        if !pruning.isEmpty && xs.any valid then [] else numbersFrom (i + 1) xs,
        pruning.isEmpty && (undecided.isEmpty || xs.any valid)⟩ :: arenaAll i (i + 1) xs := by
  unfold join
  by_cases hp : pruning.isEmpty = true
  · simp [hp,arenaFrom,arenaAll]
  · by_cases hv : xs.any valid = true
    · simp [hp,hv,arenaFrom,arenaAll,numbersFrom]
    · simp [hp,hv,arenaFrom,arenaAll]

theorem Node.arenaFrom_join_nil (parent : Option Nat) (i : Nat) (c : Candidate) (after : Suffix)
    (pruning undecided : List Numbered) : (join c after pruning undecided []).arenaFrom parent i =
      [⟨c,parent,c :: after,pruning.map (·.2),[],pruning.isEmpty && undecided.isEmpty⟩] := by
  simp [arenaFrom_join,arenaAll,numbersFrom]

namespace SearchRule
variable {r : SearchRule} {p q : Policy} {carried pruning undecided : List Numbered} {after s : Suffix}
  {c d : Candidate} {arena front : List ArenaEntry} {parent : Option Nat} {m m' m'' : Construction}
  {bound bound' work work' : Nat}

/-! ## Entering a node -/

theorem judge_fst (stopsAtFirst : Bool) (s : Suffix) (carried : List Numbered) :
    (judge stopsAtFirst s carried).1 =
      if stopsAtFirst then (carried.filter fun a => a.1.effect s = .contradiction).take 1
      else carried.filter fun a => a.1.effect s = .contradiction := by
  induction carried with
  | nil => simp [judge]
  | cons a rest ih =>
    rw [judge]
    cases he : a.1.effect s with
    | contradiction => cases stopsAtFirst <;> simp_all
    | undetermined => simpa [he] using ih
    | satisfied => simpa [he] using ih

theorem judge_pruningAt (r : SearchRule) (p : Policy) (carried : List Numbered) (s : Suffix) :
    (judge (r.stopsAtFirst p) s carried).1 = r.pruningAt p carried s := judge_fst _ s carried

/-- If no assertion was left unevaluated, all that are undetermined are carried on. -/
theorem judge_undecidedAt {stopsAtFirst : Bool}
    (h : stopsAtFirst = false ∨ (judge stopsAtFirst s carried).1 = []) :
    (judge stopsAtFirst s carried).2 = undecidedAt carried s := by
  induction carried with
  | nil => rfl
  | cons a rest ih =>
    rw [judge] at h ⊢
    cases he : a.1.effect s with
    | contradiction => cases stopsAtFirst <;> simp_all [undecidedAt]
    | undetermined =>
      simp only [he] at h
      simpa [undecidedAt,he] using ih h
    | satisfied =>
      simp only [he] at h
      simpa [undecidedAt,he] using ih h

def childPolicy? (r : SearchRule) (p : Policy) (carried : List Numbered) (s : Suffix) : Option Policy :=
  if (undecidedAt carried s).isEmpty then none
  else if (r.pruningAt p carried s).isEmpty then some p
  else if p.continues ((r.pruningAt p carried s).any (·.1.isNEB)) then some p.next
  else none

def frame? (r : SearchRule) (p : Policy) (carried : List Numbered) (s : Suffix) (i : Nat) : Option Frame :=
  (r.childPolicy? p carried s).map fun q => ⟨i,undecidedAt carried s,q,unplaced r.n s⟩

/-- A search that stops at the first contradiction has no frame for a pruned node, whatever it left unevaluated. -/
theorem place_eq (hs : suffixAt arena parent = after) : r.place arena parent c carried p =
    (arena ++ (Node.join c after (r.pruningAt p carried (c :: after)) (undecidedAt carried (c :: after)) []).arenaFrom
      parent arena.length,r.frame? p carried (c :: after) arena.length) := by
  subst hs
  rw [Node.arenaFrom_join_nil]
  unfold place frame? childPolicy?
  dsimp only
  rw [judge_pruningAt]
  cases hstop : r.stopsAtFirst p with
  | false =>
    rw [judge_undecidedAt (Or.inl rfl)]
    split_ifs <;> rfl
  | true =>
    obtain rfl : p = .stopImmediately := by simpa [stopsAtFirst] using (Bool.and_eq_true_iff.mp hstop).2
    by_cases hpruned : r.pruningAt .stopImmediately carried (c :: suffixAt arena parent) = []
    · rw [judge_undecidedAt (Or.inr (by rw [← hstop,judge_pruningAt,hpruned]))]
      split_ifs <;> rfl
    · have hnonempty : (r.pruningAt .stopImmediately carried (c :: suffixAt arena parent)).isEmpty = false := by
        simpa using hpruned
      simp [hnonempty,Policy.continues]

theorem enter_takes (hs : suffixAt arena parent = after) : (r.enter arena parent c carried p).Takes 1
    (arena ++ (Node.join c after (r.pruningAt p carried (c :: after)) (undecidedAt carried (c :: after)) []).arenaFrom
      parent arena.length,r.frame? p carried (c :: after) arena.length) := by
  rw [← place_eq hs]
  exact takes_tick.bind (f := fun _ => pure _) (takes_pure _)

/-! ## Turns -/

/-- Within the bounded number of turns, and spending the given work, the first construction becomes the second. -/
def Goes (r : SearchRule) (bound : Nat) (m : Construction) (work : Nat) (m' : Construction) : Prop :=
  ∃ turns ≤ bound, ∀ more, r.run (turns + more) m = (do spendUnits work; r.run more m')

theorem goes_refl (r : SearchRule) (m : Construction) : r.Goes 0 m 0 m :=
  ⟨0,Nat.le_refl 0,fun more => by simp [spendUnits]⟩

theorem Goes.mono (h : r.Goes bound m work m') (hle : bound ≤ bound') : r.Goes bound' m work m' := by
  obtain ⟨turns,hturns,hrun⟩ := h
  exact ⟨turns,Nat.le_trans hturns hle,hrun⟩

theorem Goes.trans (h : r.Goes bound m work m') (h' : r.Goes bound' m' work' m'') :
    r.Goes (bound + bound') m (work + work') m'' := by
  obtain ⟨turns,hturns,hrun⟩ := h
  obtain ⟨turns',hturns',hrun'⟩ := h'
  refine ⟨turns + turns',Nat.add_le_add hturns hturns',?_⟩
  intro more
  rw [Nat.add_assoc,hrun,hrun',spendUnits_add,bind_assoc]

theorem goes_turn (hstack : m.stack ≠ []) (h : (r.turn m).Takes work m') : r.Goes 1 m work m' := by
  have hopen : ¬ m.stack.isEmpty = true := by simpa using hstack
  refine ⟨1,Nat.le_refl 1,?_⟩
  intro more
  rw [Nat.add_comm,run,if_neg hopen,show r.turn m = _ from h,bind_assoc]
  simp only [pure_bind]

theorem run_of_empty (turns : Nat) (arena : List ArenaEntry) : r.run turns ⟨arena,[]⟩ = pure ⟨arena,[]⟩ := by
  cases turns <;> rfl

/-- Turns that are left over change nothing. -/
theorem Goes.run_takes (h : r.Goes bound m work ⟨arena,[]⟩) : (r.run bound m).Takes work ⟨arena,[]⟩ := by
  obtain ⟨turns,hturns,hrun⟩ := h
  obtain ⟨more,rfl⟩ := Nat.exists_eq_add_of_le hturns
  rw [Takes,hrun,run_of_empty]

/-! ## Reporting a child -/

section Report
variable {i : Nat} {untried : List Candidate} {xs : List Node} {y : Node}

theorem getElem?_block (front : List ArenaEntry) (e : ArenaEntry) (block : List ArenaEntry) :
    (front ++ e :: block)[front.length]? = some e := by
  rw [List.getElem?_append_right (Nat.le_refl _),Nat.sub_self,List.getElem?_cons_zero]

theorem modify_block (front : List ArenaEntry) (e : ArenaEntry) (block : List ArenaEntry)
    (f : ArenaEntry → ArenaEntry) : (front ++ e :: block).modify front.length f = front ++ f e :: block := by
  induction front with
  | nil => rfl
  | cons d front ih => simpa using ih

theorem suffixAt_join :
    suffixAt (front ++ (Node.join c after pruning undecided xs).arenaFrom parent front.length) (some front.length) =
      c :: after := by
  rw [Node.arenaFrom_join,suffixAt,Option.bind_some,getElem?_block]
  rfl

/-- What a report does to the entry of the parent and to its frame. -/
theorem report_block {e child : ArenaEntry} {block : List ArenaEntry} {j : Nat}
    (hchild : (front ++ e :: block)[j]? = some child) :
    report (front ++ e :: block) ⟨front.length,carried,q,untried⟩ j =
      (front ++ { e with
          children := if !e.pruning.isEmpty && child.valid then [] else e.children ++ [j]
          valid := e.valid || (e.pruning.isEmpty && child.valid) } :: block,
        ⟨front.length,carried,q,if !e.pruning.isEmpty && child.valid then [] else untried⟩) := by
  unfold report
  rw [hchild,getElem?_block,modify_block,modify_block,modify_block]
  cases hv : child.valid <;> cases hp : e.pruning.isEmpty <;> simp [hv,hp]

/-- A reported child becomes the last one. Below a pruned node a valid child ends the visit. -/
theorem report_join (hvalid : pruning = [] ∨ xs.any Node.valid = false) :
    let arena := front ++ (Node.join c after pruning undecided xs).arenaFrom parent front.length
    report (arena ++ y.arenaFrom (some front.length) arena.length) ⟨front.length,carried,q,untried⟩ arena.length =
      (front ++ (Node.join c after pruning undecided (xs ++ [y])).arenaFrom parent front.length,
        ⟨front.length,carried,q,if !pruning.isEmpty && y.valid then [] else untried⟩) := by
  intro arena
  have hlength : arena.length = front.length + 1 + (Node.visitedAll xs).length := by
    simp only [arena,List.length_append,Node.length_arenaFrom,Node.size_join]
    omega
  have hchild : (arena ++ y.arenaFrom (some front.length) arena.length)[arena.length]? =
      some (y.entry (some front.length) arena.length) := by
    rw [Node.arenaFrom_eq,getElem?_block]
  have hkept : (!pruning.isEmpty && xs.any Node.valid) = false := by
    rcases hvalid with rfl | h
    · rfl
    · rw [h,Bool.and_false]
  generalize hj : arena.length = j at *
  simp only [arena,Node.arenaFrom_join,hkept] at hchild ⊢
  rw [List.append_assoc,List.cons_append] at hchild ⊢
  rw [report_block hchild,Node.numbersFrom_append,Node.arenaAll_append,← hlength]
  have hentry : (y.entry (some front.length) j).valid = y.valid := rfl
  simp only [Node.numbersFrom,Node.arenaAll,List.append_nil,List.any_append,List.isEmpty_map,hentry]
  cases hp : pruning.isEmpty with
  | true => simp [Bool.or_assoc]
  | false =>
    have hinvalid : xs.any Node.valid = false := by simpa [hp] using hkept
    simp [hinvalid]

end Report

/-! ## Visiting the children -/

/-- Where the node on top of the stack has the suffix `s`, and whatever is below it, the turns visit the next child
`d`: they put the block of the tree `y` at the end of the list and report it. -/
def VisitsChild (r : SearchRule) (bound : Nat) (q : Policy) (carried : List Numbered) (s : Suffix) (d : Candidate)
    (y : Node) : Prop :=
  ∀ arena i untried below, suffixAt arena (some i) = s →
    let reported := report (arena ++ y.arenaFrom (some i) arena.length) ⟨i,carried,q,untried⟩ arena.length
    r.Goes bound ⟨arena,⟨i,carried,q,d :: untried⟩ :: below⟩ y.size ⟨reported.1,reported.2 :: below⟩

theorem goes_children {child : Candidate → Node} {open_ : List Candidate} {xs : List Node} {below : List Frame}
    (hchild : ∀ d ∈ open_, r.VisitsChild bound q carried (c :: after) d (child d))
    (hvalid : pruning = [] ∨ xs.any Node.valid = false) :
    r.Goes (open_.length * bound)
      ⟨front ++ (Node.join c after pruning undecided xs).arenaFrom parent front.length,
        ⟨front.length,carried,q,open_⟩ :: below⟩
      (Node.visitedAll (visitedChildren (!pruning.isEmpty) child open_)).length
      ⟨front ++ (Node.join c after pruning undecided
          (xs ++ visitedChildren (!pruning.isEmpty) child open_)).arenaFrom parent front.length,
        ⟨front.length,carried,q,[]⟩ :: below⟩ := by
  induction open_ generalizing xs with
  | nil =>
    rw [visitedChildren,List.append_nil,List.length_nil,Nat.zero_mul]
    exact r.goes_refl _
  | cons d rest ih =>
    have hs : suffixAt (front ++ (Node.join c after pruning undecided xs).arenaFrom parent front.length)
        (some front.length) = c :: after := suffixAt_join
    have hfirst := hchild d List.mem_cons_self _ front.length rest below hs
    rw [report_join hvalid] at hfirst
    rw [visitedChildren,List.length_cons,Nat.succ_mul,Nat.add_comm]
    by_cases hstop : (!pruning.isEmpty && (child d).valid) = true
    · rw [if_pos hstop] at hfirst ⊢
      rw [Node.length_visitedAll_cons]
      exact hfirst.mono (Nat.le_add_right _ _)
    · rw [if_neg hstop] at hfirst ⊢
      have hvalid' : pruning = [] ∨ (xs ++ [child d]).any Node.valid = false := by
        rcases hvalid with hp | hv
        · exact Or.inl hp
        · rcases List.eq_nil_or_concat pruning with hp | ⟨_,_,hp⟩
          · exact Or.inl hp
          · right
            simpa [hp,hv] using hstop
      rw [Node.length_visitedAll_cons,List.append_cons]
      exact hfirst.trans (ih (fun e he => hchild e (List.mem_cons_of_mem d he)) hvalid')

/-! ## The tree of a node -/

theorem tree_of_childless {room : Nat} (hroom : (unplaced r.n (c :: after)).length ≤ room)
    (hnone : r.childPolicy? p carried (c :: after) = none) : r.tree room p carried after c =
      .join c after (r.pruningAt p carried (c :: after)) (undecidedAt carried (c :: after)) [] := by
  rw [tree_eq_join hroom]
  unfold childPolicy? at hnone
  split_ifs at hnone with hu hp hc
  · rw [if_pos hu]
  · rw [if_neg hu,if_neg hp,if_neg hc]

theorem tree_of_childPolicy {room : Nat} (hroom : (unplaced r.n (c :: after)).length ≤ room)
    (hsome : r.childPolicy? p carried (c :: after) = some q) : r.tree room p carried after c =
      .join c after (r.pruningAt p carried (c :: after)) (undecidedAt carried (c :: after))
        (visitedChildren (!(r.pruningAt p carried (c :: after)).isEmpty)
          (r.tree (room - 1) q (undecidedAt carried (c :: after)) (c :: after)) (unplaced r.n (c :: after))) := by
  rw [tree_eq_join hroom]
  unfold childPolicy? at hsome
  split_ifs at hsome with hu hp hc
  · obtain rfl := Option.some.inj hsome
    rw [if_neg hu,if_pos hp,hp]
    rfl
  · obtain rfl := Option.some.inj hsome
    rw [if_neg hu,if_neg hp,if_pos hc,Bool.eq_false_iff.mpr hp]
    rfl

/-- The children of a node are visited in the turns that its frame is given, less the one that takes it off the
stack. -/
theorem goes_tree (front : List ArenaEntry) (parent : Option Nat) {room : Nat}
    (hroom : (unplaced r.n (c :: after)).length ≤ room)
    (hsome : r.childPolicy? p carried (c :: after) = some q) (below : List Frame)
    (hchild : ∀ d ∈ unplaced r.n (c :: after),
      r.VisitsChild bound q (undecidedAt carried (c :: after)) (c :: after) d
        (r.tree (room - 1) q (undecidedAt carried (c :: after)) (c :: after) d)) :
    r.Goes ((unplaced r.n (c :: after)).length * bound)
      ⟨front ++ (Node.join c after (r.pruningAt p carried (c :: after)) (undecidedAt carried (c :: after)) []).arenaFrom
          parent front.length,
        ⟨front.length,undecidedAt carried (c :: after),q,unplaced r.n (c :: after)⟩ :: below⟩
      ((r.tree room p carried after c).size - 1)
      ⟨front ++ (r.tree room p carried after c).arenaFrom parent front.length,
        ⟨front.length,undecidedAt carried (c :: after),q,[]⟩ :: below⟩ := by
  rw [tree_of_childPolicy hroom hsome,Node.size_join,Nat.add_sub_cancel_left]
  exact goes_children hchild (Or.inr rfl)

section Turn
variable {i : Nat} {untried : List Candidate} {below : List Frame}

/-- A child whose children are not visited is reported in the same turn. -/
theorem goes_childless (hs : suffixAt arena (some i) = s) (hnone : r.childPolicy? q carried (d :: s) = none) :
    let y := Node.join d s (r.pruningAt q carried (d :: s)) (undecidedAt carried (d :: s)) []
    let reported := report (arena ++ y.arenaFrom (some i) arena.length) ⟨i,carried,q,untried⟩ arena.length
    r.Goes 1 ⟨arena,⟨i,carried,q,d :: untried⟩ :: below⟩ 1 ⟨reported.1,reported.2 :: below⟩ := by
  refine goes_turn (by simp) ?_
  rw [turn]
  refine (enter_takes hs).bind (k := 0) ?_
  rw [frame?,hnone,Node.arenaFrom_join_nil]
  dsimp only [Option.map_none]
  rw [List.length_append,List.length_singleton,Nat.add_sub_cancel]
  exact takes_pure _

theorem goes_opened {q' : Policy} (hs : suffixAt arena (some i) = s)
    (hsome : r.childPolicy? q carried (d :: s) = some q') :
    let y := Node.join d s (r.pruningAt q carried (d :: s)) (undecidedAt carried (d :: s)) []
    r.Goes 1 ⟨arena,⟨i,carried,q,d :: untried⟩ :: below⟩ 1
      ⟨arena ++ y.arenaFrom (some i) arena.length,
        ⟨arena.length,undecidedAt carried (d :: s),q',unplaced r.n (d :: s)⟩ ::
          ⟨i,carried,q,untried⟩ :: below⟩ := by
  refine goes_turn (by simp) ?_
  rw [turn]
  refine (enter_takes hs).bind (k := 0) ?_
  rw [frame?,hsome]
  exact takes_pure _

theorem goes_exhausted {f : Frame} : r.Goes 1 ⟨arena,⟨i,carried,q,[]⟩ :: f :: below⟩ 0
    ⟨(report arena f i).1,(report arena f i).2 :: below⟩ :=
  goes_turn (by simp) (takes_pure _)

/-- The last node taken off the stack is the root. -/
theorem goes_finished : r.Goes 1 ⟨arena,[⟨i,carried,q,[]⟩]⟩ 0 ⟨arena,[]⟩ :=
  goes_turn (by simp) (takes_pure _)

end Turn

theorem visitsChild_tree {k room : Nat} (hk : (unplaced r.n (d :: s)).length ≤ k)
    (hroom : (unplaced r.n (d :: s)).length ≤ room) :
    r.VisitsChild (1 + turnsFor k) q carried s d (r.tree room q carried s d) := by
  induction k using Nat.strongRecOn generalizing room q carried s d with
  | ind k ih =>
    intro arena i untried below hs
    cases hsome : r.childPolicy? q carried (d :: s) with
    | none =>
      rw [tree_of_childless hroom hsome,Node.size_join]
      exact (goes_childless hs hsome).mono (Nat.le_add_right 1 _)
    | some q' =>
      have hchild : ∀ e ∈ unplaced r.n (d :: s),
          r.VisitsChild (1 + turnsFor (k - 1)) q' (undecidedAt carried (d :: s)) (d :: s) e
            (r.tree (room - 1) q' (undecidedAt carried (d :: s)) (d :: s) e) := by
        intro e he
        have hlt := length_unplaced_cons_lt he
        exact ih (k - 1) (by omega) (by omega) (by omega)
      have hchildren := goes_tree arena (some i) hroom hsome (⟨i,carried,q,untried⟩ :: below) hchild
      have hall := ((goes_opened hs hsome).trans hchildren).trans goes_exhausted
      have hwork : 1 + ((r.tree room q carried s d).size - 1) + 0 = (r.tree room q carried s d).size := by
        have hpos := (r.tree room q carried s d).size_pos
        omega
      have hbound : 1 + (unplaced r.n (d :: s)).length * (1 + turnsFor (k - 1)) + 1 ≤ 1 + turnsFor k := by
        have hmul := Nat.mul_le_mul_right (1 + turnsFor (k - 1)) hk
        rw [turnsFor_eq k]
        omega
      rw [hwork] at hall
      exact hall.mono hbound

end SearchRule

/-- The stack builds the numbered list of the recursive search, for the same work. -/
theorem buildArena_takes (r : SearchRule) (p : Policy) (carried : List Numbered) (c : Candidate) :
    (buildArena r p carried c).Takes (r.rootTree p carried c).size (r.rootTree p carried c).arena := by
  have hroom := length_unplaced_le r.n [c]
  have hs : SearchRule.suffixAt [] none = [] := rfl
  have henter : (r.enter [] none c carried p).Takes 1 _ := SearchRule.enter_takes hs
  rw [buildArena,SearchRule.rootTree]
  cases hsome : r.childPolicy? p carried [c] with
  | none =>
    rw [SearchRule.tree_of_childless hroom hsome,Node.size_join]
    refine henter.bind (k := 0) ?_
    rw [SearchRule.frame?,hsome]
    exact Metered.takes_pure _
  | some q =>
    have hchild : ∀ d ∈ unplaced r.n [c],
        r.VisitsChild (1 + turnsFor ((unplaced r.n [c]).length - 1)) q (SearchRule.undecidedAt carried [c]) [c] d
          (r.tree (r.n.toNat - 1) q (SearchRule.undecidedAt carried [c]) [c] d) := by
      intro d hd
      have hlt := length_unplaced_cons_lt hd
      exact SearchRule.visitsChild_tree (by omega) (by omega)
    have hchildren := SearchRule.goes_tree [] none hroom hsome [] hchild
    have hrun := (hchildren.trans SearchRule.goes_finished).run_takes
    rw [← turnsFor_eq] at hrun
    have hwork : (r.tree r.n.toNat p carried [] c).size = 1 + ((r.tree r.n.toNat p carried [] c).size - 1 + 0) := by
      have hpos := (r.tree r.n.toNat p carried [] c).size_pos
      omega
    rw [hwork]
    refine henter.bind ?_
    rw [SearchRule.frame?,hsome]
    exact hrun.map Construction.arena

end RunoffAudit
