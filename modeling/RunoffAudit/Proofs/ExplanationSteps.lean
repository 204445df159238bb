import RunoffAudit.Proofs.AllowedOrders
import RunoffAudit.Proofs.ContestStatus

/-! # What the steps of an explanation show

A frontier of an explanation never has two suffixes that some order could both end in. An assertion divides
each suffix of the frontier further and takes part of the result away, so this stays true from step to
step, and every suffix that is shown before a step is either kept or removed by it. How the explanation is
laid out has no part in what is left: without frontiers that build on each other the suffixes are the same, and
from all elimination orders those are left that end in one of them.
-/
namespace RunoffAudit
open Metered

variable {n : Int} {as assertions : List Assertion} {winner : Option Candidate} {a : Assertion} {s t order : Suffix}
  {frontier : List Suffix} {x : Numbered}

/-! ## Frontiers -/

/-- The suffixes place candidates of the contest, and no order ends in two of them. -/
structure IsFrontier (n : Int) (frontier : List Suffix) : Prop where
  placed : ∀ s ∈ frontier, Placed n s
  apart : frontier.Pairwise Apart

theorem IsFrontier.filter (hf : IsFrontier n frontier) (p : Suffix → Bool) : IsFrontier n (frontier.filter p) :=
  ⟨fun s hs => hf.placed s (List.mem_of_mem_filter hs),hf.apart.filter p⟩

/-- Suffixes that are cut from different suffixes of a frontier stay apart. -/
theorem IsFrontier.flatMap_cut (hf : IsFrontier n frontier) (stop : Suffix → Bool) :
    IsFrontier n (frontier.flatMap (cut n stop)) := by
  refine ⟨?placed,List.pairwise_flatMap.mpr ⟨fun s hs => pairwise_apart_cut (hf.placed s hs),?apart⟩⟩
  case placed =>
    intro t ht
    obtain ⟨s,hs,ht⟩ := List.mem_flatMap.mp ht
    exact (of_mem_cut (hf.placed s hs) ht).1
  case apart =>
    apply hf.apart.imp_of_mem
    intro s s' hs hs' hapart t ht t' ht' order hto hto'
    have hst := (of_mem_cut (hf.placed s hs) ht).2.1
    have hst' := (of_mem_cut (hf.placed s' hs') ht').2.1
    exact hapart order (hst.trans hto) (hst'.trans hto')

theorem IsFrontier.flatMap_expansion (hf : IsFrontier n frontier) (a : Assertion) :
    IsFrontier n (frontier.flatMap (expansion n a true)) := by
  rw [funext (expansion_true n a)]
  exact hf.flatMap_cut _

theorem IsFrontier.flatMap_survivors (hf : IsFrontier n frontier) (as : List Assertion) :
    IsFrontier n (frontier.flatMap (survivors n as)) := by
  have h := (hf.flatMap_cut (settled as)).filter (granted as)
  rwa [List.filter_flatMap] at h

theorem isFrontier_singleSuffixes (n : Int) : IsFrontier n (singleSuffixes n) := by
  refine ⟨fun s hs => placed_of_mem_singleSuffixes hs,List.pairwise_map.mpr ?_⟩
  apply (nodup_candidates n).imp
  intro c d hcd order hc hd
  exact hcd (eq_of_cons_suffix hc hd)

theorem isFrontier_allOrders (n : Int) : IsFrontier n (allOrders n) := by
  refine ⟨fun s hs => (mem_allOrders_iff.mp hs).placed,?_⟩
  apply (nodup_allOrders n).imp_of_mem
  intro s t hs ht hne order hso hto
  -- both place all candidates, so they are the same end of the order
  have hlength : s.length = t.length :=
    ((mem_allOrders_iff.mp hs).trans (mem_allOrders_iff.mp ht).symm).length_eq
  exact hne ((List.suffix_of_suffix_length_le hso hto hlength.le).eq_of_length hlength)

theorem isFrontier_explanationStart (n : Int) (winner : Option Candidate) (style : ExplanationStyle) :
    IsFrontier n (explanationStart n winner style) := by
  have hall : IsFrontier n (if style.expandFully then allOrders n else singleSuffixes n) := by
    split
    · exact isFrontier_allOrders n
    · exact isFrontier_singleSuffixes n
  unfold explanationStart
  dsimp only
  split
  · exact hall.filter _
  · exact hall

/-! ## One step -/

/-- The step shows distinct suffixes, each with the effect that its assertion has and that decides it. Those that
satisfy the assertion are kept in their order, and those that contradict it are removed. -/
structure ExplanationStep.Accounts (step : ExplanationStep) : Prop where
  distinct : (step.before.map (·.1)).Nodup
  decided : ∀ q ∈ step.before, q.2 = step.assertion.effect q.1 ∧ q.2 ≠ .undetermined
  kept : step.after = (step.before.filter (·.2 = .satisfied)).map (·.1)
  removed : step.removed = (step.before.filter (·.2 = .contradiction)).map (·.1)
  counted : step.removed.length + step.after.length = step.before.length

theorem effect_ne_undetermined_of_mem_expansion (hs : ∀ s ∈ frontier, Placed n s)
    (ht : t ∈ frontier.flatMap (expansion n a true)) : a.effect t ≠ .undetermined := by
  obtain ⟨s,hmem,ht⟩ := List.mem_flatMap.mp ht
  rw [expansion_true] at ht
  exact settled_singleton_eq_true_iff.mp (of_mem_cut (hs s hmem) ht).2.2

theorem flatMap_survivors_eq_filter (n : Int) (a : Assertion) (frontier : List Suffix) :
    frontier.flatMap (survivors n [a]) =
      (frontier.flatMap (expansion n a true)).filter fun t => a.effect t = .satisfied := by
  rw [List.filter_flatMap]
  apply List.flatMap_congr
  intro s _
  rw [← filter_expansion]
  apply List.filter_congr
  intro t _
  simp [granted]

theorem filter_shown (a : Assertion) (e : Effect) (l : List Suffix) :
    ((l.map fun s => (s,a.effect s)).filter (·.2 = e)).map (·.1) = l.filter fun s => a.effect s = e := by
  rw [List.filter_map,List.map_map]
  exact List.map_id _

theorem ExplanationStep.accounts_ofFrontier (hf : IsFrontier n frontier) (x : Numbered) :
    (ofFrontier n frontier x).Accounts := by
  obtain ⟨a,i⟩ := x
  have hshown : ((ofFrontier n frontier (a,i)).before.map (·.1)) = frontier.flatMap (expansion n a true) := by
    rw [ofFrontier,List.map_map]
    exact List.map_id _
  have hdecided : ∀ t ∈ frontier.flatMap (expansion n a true), a.effect t ≠ .undetermined :=
    fun t ht => effect_ne_undetermined_of_mem_expansion hf.placed ht
  have hkept : (ofFrontier n frontier (a,i)).after =
      (frontier.flatMap (expansion n a true)).filter fun t => a.effect t = .satisfied :=
    flatMap_survivors_eq_filter n a frontier
  have hremoved : (ofFrontier n frontier (a,i)).removed =
      (frontier.flatMap (expansion n a true)).filter fun t => a.effect t = .contradiction := by
    rw [removed,hshown,hkept]
    apply List.filter_congr
    intro t ht
    have hdec := hdecided t ht
    cases he : a.effect t with
    | contradiction => simp [ht,he]
    | satisfied => simp [ht,he]
    | undetermined => exact absurd he hdec
  refine ⟨?distinct,?decided,?kept,?removed,?counted⟩
  case distinct =>
    rw [hshown]
    exact nodup_of_apart (hf.flatMap_expansion a).apart
  case decided =>
    intro q hq
    obtain ⟨t,ht,rfl⟩ := List.mem_map.mp hq
    exact ⟨rfl,hdecided t ht⟩
  case kept => rw [hkept,ofFrontier,filter_shown]
  case removed => rw [hremoved,ofFrontier,filter_shown]
  case counted =>
    have hother : ((frontier.flatMap (expansion n a true)).filter fun t => a.effect t = .contradiction) =
        (frontier.flatMap (expansion n a true)).filter fun t => !decide (a.effect t = .satisfied) := by
      apply List.filter_congr
      intro t ht
      have hdec := hdecided t ht
      cases he : a.effect t with
      | contradiction => rfl
      | satisfied => rfl
      | undetermined => exact absurd he hdec
    rw [hremoved,hkept,hother,Nat.add_comm,← List.length_eq_length_filter_add,ofFrontier,List.length_map]

/-! ## All steps -/

/-- The frontier of the step `k`: what the step before it left, or the start if the steps do not build on each
other. -/
def frontierOf (cumulative : Bool) (start : List Suffix) (steps : List ExplanationStep) : (k : Nat) → List Suffix
  | 0 => start
  | k + 1 => if cumulative then (steps[k]?.map ExplanationStep.after).getD [] else start

def Explanation.frontierAt (e : Explanation) (k : Nat) : List Suffix := frontierOf e.cumulative e.start e.steps k

section Steps
variable {cumulative : Bool} {carried : List Numbered} {step : ExplanationStep} {k : Nat}

theorem frontierOf_cons (first : ExplanationStep) (steps : List ExplanationStep) (start : List Suffix) (k : Nat) :
    frontierOf cumulative start (first :: steps) (k + 1) =
      frontierOf cumulative (if cumulative then first.after else start) steps k := by
  cases cumulative <;> cases k <;> rfl

theorem stepsFrom_numbered (n : Int) (cumulative : Bool) (carried : List Numbered) (frontier : List Suffix) :
    (stepsFrom n cumulative carried frontier).map (fun s => (s.assertion,s.index)) = carried := by
  induction carried generalizing frontier with
  | nil => rfl
  | cons x rest ih =>
    rw [stepsFrom,List.map_cons,ih]
    rfl

/-- Every step starts from its frontier, and its frontier is one. -/
theorem stepsFrom_getElem? (hf : IsFrontier n frontier)
    (h : (stepsFrom n cumulative carried frontier)[k]? = some step) :
    IsFrontier n (frontierOf cumulative frontier (stepsFrom n cumulative carried frontier) k) ∧
      step = .ofFrontier n (frontierOf cumulative frontier (stepsFrom n cumulative carried frontier) k)
        (step.assertion,step.index) ∧ (step.assertion,step.index) ∈ carried := by
  induction carried generalizing frontier k with
  | nil => cases h
  | cons x rest ih =>
    rw [stepsFrom] at h ⊢
    cases k with
    | zero =>
      obtain rfl := Option.some.inj h
      exact ⟨hf,rfl,List.mem_cons_self⟩
    | succ k =>
      rw [List.getElem?_cons_succ] at h
      have hnext : IsFrontier n (if cumulative then frontier.flatMap (survivors n [x.1]) else frontier) := by
        split
        · exact hf.flatMap_survivors _
        · exact hf
      obtain ⟨hfrontier,hstep,hmem⟩ := ih hnext h
      rw [frontierOf_cons]
      exact ⟨hfrontier,hstep,List.mem_cons_of_mem x hmem⟩

end Steps

/-! ## What is left -/

/-- Of complete orders only those survive that satisfy all assertions. -/
theorem flatMap_survivors_of_orders (ha : ∀ a ∈ as, a.WellFormed n) {orders : List Suffix}
    (ho : ∀ order ∈ orders, IsOrder n order) : orders.flatMap (survivors n as) = orders.filter (granted as) := by
  induction orders with
  | nil => rfl
  | cons order rest ih =>
    have hhere : survivors n as order = [order].filter (granted as) := by
      rw [survivors,cut_of_stop (settled_of_isOrder ha (ho order List.mem_cons_self))]
    rw [List.flatMap_cons,hhere,ih fun t ht => ho t (List.mem_cons_of_mem order ht),← List.filter_append]
    rfl

/-- An order satisfies all assertions exactly if it ends in something that survives of a start that covers it. -/
theorem granted_iff_ends_in_survivor (ha : ∀ a ∈ as, a.WellFormed n) (hf : ∀ s ∈ frontier, Placed n s)
    (ho : IsOrder n order) (hcovered : ∃ s ∈ frontier, s <:+ order) :
    granted as order = true ↔ ∃ t ∈ frontier.flatMap (survivors n as), t <:+ order := by
  constructor
  · intro hg
    obtain ⟨s,hs,hso⟩ := hcovered
    obtain ⟨t,ht,hto⟩ := exists_mem_survivors ha ho hso (not_violates_of_granted ha hg ho (List.suffix_refl order))
    exact ⟨t,List.mem_flatMap.mpr ⟨s,hs,ht⟩,hto⟩
  · rintro ⟨t,ht,hto⟩
    obtain ⟨s,hs,ht⟩ := List.mem_flatMap.mp ht
    obtain ⟨_,_,hg⟩ := of_mem_survivors (hf s hs) ht
    exact granted_of_isOrder ha ho (not_violates_of_granted ha hg ho hto)

/-- The elimination orders that an explanation is about. -/
def shownOrders (n : Int) (winner : Option Candidate) (hideWinner : Bool) : List Suffix :=
  if hideWinner then (allOrders n).filter (·.getLast? ≠ winner) else allOrders n

theorem isOrder_of_mem_shownOrders {hide : Bool} (h : order ∈ shownOrders n winner hide) : IsOrder n order := by
  unfold shownOrders at h
  split at h
  · exact mem_allOrders_iff.mp (List.mem_of_mem_filter h)
  · exact mem_allOrders_iff.mp h

/-- Every order that is shown ends in one of the candidates from whom the explanation starts. -/
theorem exists_start_of_shown {style : ExplanationStyle} (hn : 0 < n) (hfully : style.expandFully = false)
    (h : order ∈ shownOrders n winner style.hideWinner) :
    ∃ s ∈ explanationStart n winner style, s <:+ order := by
  obtain ⟨c,hc,hlast⟩ := (isOrder_of_mem_shownOrders h).exists_last hn
  refine ⟨[c],?_,getLast?_eq_some_iff_suffix.mp hlast⟩
  have hsingle : [c] ∈ singleSuffixes n := List.mem_map_of_mem hc
  unfold explanationStart
  unfold shownOrders at h
  rw [hfully]
  cases hh : style.hideWinner with
  | false => exact hsingle
  | true =>
    rw [hh] at h
    have hother := (List.mem_filter.mp h).2
    rw [hlast] at hother
    exact List.mem_filter.mpr ⟨hsingle,hother⟩

theorem remaining_of_orders {style : ExplanationStyle} (hn : 0 < n) (ha : ∀ a ∈ as, a.WellFormed n) :
    (explanationStart n winner { style with expandFully := true }).flatMap (survivors n as) =
      (shownOrders n winner style.hideWinner).filter fun order =>
        ∃ t ∈ (explanationStart n winner { style with expandFully := false }).flatMap (survivors n as),
          t <:+ order := by
  have hstart : explanationStart n winner { style with expandFully := true } =
      shownOrders n winner style.hideWinner := rfl
  rw [hstart,flatMap_survivors_of_orders ha fun _ => isOrder_of_mem_shownOrders]
  apply List.filter_congr
  intro order ho
  rw [Bool.eq_iff_iff,decide_eq_true_iff]
  exact granted_iff_ends_in_survivor ha (isFrontier_explanationStart n winner _).placed
    (isOrder_of_mem_shownOrders ho) (exists_start_of_shown hn rfl ho)

/-- Explanations of a well-formed contest, in whatever style, account for every suffix: each step does, and it starts
from what the step before it left, or from the start if the steps do not build on each other. Whether they do
has no part in what is left. If the explanation starts from all elimination orders, those are left that end in a
suffix which is left otherwise. -/
theorem explain_accounts (hcontest : WellFormedContest n winner assertions) :
    ∃ e : ExplanationStyle → Explanation, ∀ style, (style.hideWinner = true → winner ≠ none) →
      (explain n winner assertions style).Gives (.ok (e style)) ∧
      (e style).cumulative = style.cumulative ∧ (e style).start = explanationStart n winner style ∧
      (e style).steps.map (fun s => (s.assertion,s.index)) = numbered assertions ∧
      (∀ step ∈ (e style).steps, step.Accounts) ∧
      (∀ k step, (e style).steps[k]? = some step →
        (expandAll step.assertion n true ((e style).frontierAt k)).Gives (step.before.map (·.1))) ∧
      (e { style with cumulative := true }).remaining = (e { style with cumulative := false }).remaining ∧
      (e { style with expandFully := true }).remaining = (shownOrders n winner style.hideWinner).filter fun order =>
        ∃ t ∈ (e { style with expandFully := false }).remaining, t <:+ order := by
  refine ⟨fun style => ⟨n,winner,style.cumulative,explanationStart n winner style,
    stepsFrom n style.cumulative (numbered assertions) (explanationStart n winner style),
    (explanationStart n winner style).flatMap (survivors n assertions)⟩,?_⟩
  intro style hhide
  have hf := isFrontier_explanationStart n winner style
  have hreturns := explain_returns_steps hcontest hhide hf.placed
  refine ⟨hreturns.gives,rfl,rfl,stepsFrom_numbered n _ _ _,?accounts,?expands,rfl,
    remaining_of_orders hcontest.count hcontest.assertions⟩
  case accounts =>
    intro step hstep
    obtain ⟨k,hk⟩ := List.mem_iff_getElem?.mp hstep
    obtain ⟨hfrontier,hstep,_⟩ := stepsFrom_getElem? hf hk
    rw [hstep]
    exact ExplanationStep.accounts_ofFrontier hfrontier _
  case expands =>
    intro k step hk
    obtain ⟨hfrontier,hstep,hmem⟩ := stepsFrom_getElem? hf hk
    have hgives := (expandAll_returns true (wellFormed_numbered hcontest.assertions _ hmem) hfrontier.placed).gives
    rw [hstep,ExplanationStep.ofFrontier,List.map_map]
    exact (List.map_id _).symm ▸ hgives

/-- The orders of the winner 0 are hidden. The first step takes the longest of three suffixes, the second one two of
three, and the layout has no part in what is left. -/
theorem explain_accounts_hidden_winner :
    WellFormedContest 3 (some 0) [.nen 1 0 (.ofList [0,1,2]),.neb 0 2] ∧
    ((⟨false,true,true⟩ : ExplanationStyle).hideWinner = true → some (0 : Int) ≠ none) ∧
    ∃ e : ExplanationStyle → Explanation,
      (explain 3 (some 0) [.nen 1 0 (.ofList [0,1,2]),.neb 0 2] ⟨false,true,true⟩).Gives
        (.ok (e ⟨false,true,true⟩)) ∧
      (e ⟨false,true,true⟩).steps.map (·.before) =
        [[([1],.satisfied),([1,0,2],.contradiction),([1,2],.satisfied)],
          [([0,1],.satisfied),([2,1],.contradiction),([1,2],.contradiction)]] ∧
      (e ⟨false,true,true⟩).steps.map (·.after) = [[[1],[1,2]],[[0,1]]] ∧
      (e ⟨false,true,true⟩).remaining = [[0,1]] ∧
      (e ⟨false,true,true⟩).remaining = (e ⟨false,true,false⟩).remaining ∧
      (e ⟨true,true,true⟩).remaining = (shownOrders 3 (some 0) true).filter fun order =>
        ∃ t ∈ (e ⟨false,true,true⟩).remaining, t <:+ order := by
  have hcontest : WellFormedContest 3 (some 0) [.nen 1 0 (.ofList [0,1,2]),.neb 0 2] := by decide
  have hhide : (⟨false,true,true⟩ : ExplanationStyle).hideWinner = true → some (0 : Int) ≠ none := by decide
  obtain ⟨e,he⟩ := explain_accounts hcontest
  obtain ⟨hgives,_,_,_,_,_,hlayout,hfully⟩ := he ⟨false,true,true⟩ hhide
  have hcomputed := Except.ok.inj (Except.ok.inj (hgives .unlimited ⟨rfl,rfl⟩))
  refine ⟨hcontest,hhide,e,hgives,?_,?_,?_,hlayout,hfully⟩
  all_goals
    rw [← hcomputed]
    rfl

end RunoffAudit
