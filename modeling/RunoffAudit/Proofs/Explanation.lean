import RunoffAudit.Explanation
import RunoffAudit.Proofs.Expansion
import RunoffAudit.Proofs.Verification

/-! # Explanations and searches find the same suffixes

An explanation applies the assertions one after the other to a frontier; a search carries all of them down
a tree. What the explanation leaves are the valid leaves of the search trees, in the same order.
-/
namespace RunoffAudit
open Metered

variable {n : Int} {assertions : List Assertion} {winner : Option Candidate} {a : Assertion} {keep : Bool}
  {s t : Suffix} {c : Candidate}

theorem placed_flatMap_expansion {frontier : List Suffix} (hf : ∀ s ∈ frontier, Placed n s) :
    ∀ t ∈ frontier.flatMap (expansion n a keep), Placed n t := by
  intro t ht
  obtain ⟨s,hs,ht⟩ := List.mem_flatMap.mp ht
  exact (of_mem_cut (hf s hs) (List.mem_of_mem_filter ht)).1

/-- Among the decided suffixes, the survivors are those that are not contradicted. -/
theorem survivors_of_mem_expansion (hs : Placed n s) (ht : t ∈ expansion n a keep s) :
    survivors n [a] t = [t].filter (granted [a]) := by
  obtain ⟨_,_,hstop⟩ := of_mem_cut hs (List.mem_of_mem_filter ht)
  rw [survivors,cut_of_stop hstop]

/-- Dropping the contradicted suffixes of an expanded frontier leaves the survivors of the frontier. -/
theorem flatMap_expansion_survivors {frontier : List Suffix} (hf : ∀ s ∈ frontier, Placed n s) :
    (frontier.flatMap (expansion n a true)).flatMap (survivors n [a]) = frontier.flatMap (survivors n [a]) := by
  rw [List.flatMap_assoc]
  apply List.flatMap_congr
  intro s hs
  rw [List.flatMap_congr fun t ht => survivors_of_mem_expansion (hf s hs) ht,← List.filter_flatMap,
    ← filter_expansion,List.flatMap_singleton']

def ExplanationStep.ofFrontier (n : Int) (frontier : List Suffix) (x : Numbered) : ExplanationStep :=
  ⟨x.2,x.1,(frontier.flatMap (expansion n x.1 true)).map fun s => (s,x.1.effect s),
    frontier.flatMap (survivors n [x.1])⟩

def stepsFrom (n : Int) (cumulative : Bool) : List Numbered → (frontier : List Suffix) → List ExplanationStep
  | [], _ => []
  | x :: rest, frontier => .ofFrontier n frontier x ::
    stepsFrom n cumulative rest (if cumulative then frontier.flatMap (survivors n [x.1]) else frontier)

/-- In both layouts an explanation is left with what survives all assertions. -/
theorem explainFrom_returns (cumulative : Bool) {start : List Suffix} {carried : List Numbered}
    {remaining : List Suffix} (ha : ∀ x ∈ carried, x.1.WellFormed n) (hstart : ∀ s ∈ start, Placed n s)
    (hremaining : ∀ s ∈ remaining, Placed n s) :
    (explainFrom n cumulative start carried remaining).Returns
      (stepsFrom n cumulative carried (if cumulative then remaining else start),
        remaining.flatMap (survivors n (carried.map (·.1)))) := by
  induction carried generalizing remaining with
  | nil =>
    rw [List.map_nil,flatMap_survivors_nil]
    exact returns_pure ([],remaining)
  | cons x rest ih =>
    obtain ⟨a,i⟩ := x
    have hax : a.WellFormed n := ha (a,i) List.mem_cons_self
    have hleft : (remaining.flatMap (survivors n [a])).flatMap (survivors n (rest.map (·.1))) =
        remaining.flatMap (survivors n (((a,i) :: rest).map (·.1))) := flatMap_frontier_survivors hremaining
    have hplaced : ∀ s ∈ remaining.flatMap (survivors n [a]), Placed n s := placed_flatMap_survivors hremaining
    have hsteps := ih (fun y hy => ha y (List.mem_cons_of_mem _ hy)) hplaced
    rw [hleft] at hsteps
    cases cumulative with
    | true =>
      have hbefore := expandAll_returns true hax hremaining
      have hexpanded : ∀ s ∈ remaining.flatMap (expansion n a true), Placed n s :=
        placed_flatMap_expansion hremaining
      have hafter := expandAll_false_returns hax hexpanded
      rw [flatMap_expansion_survivors hremaining] at hafter
      exact hbefore.bind (hafter.bind ((returns_pure _).bind (hsteps.bind (returns_pure _))))
    | false =>
      have hbefore := expandAll_returns true hax hstart
      have hexpanded : ∀ s ∈ start.flatMap (expansion n a true), Placed n s := placed_flatMap_expansion hstart
      have hafter := expandAll_false_returns hax hexpanded
      rw [flatMap_expansion_survivors hstart] at hafter
      have hkept := expandAll_false_returns hax hremaining
      exact hbefore.bind (hafter.bind (hkept.bind (hsteps.bind (returns_pure _))))

def explanationStart (n : Int) (winner : Option Candidate) (style : ExplanationStyle) : List Suffix :=
  let all := if style.expandFully then allOrders n else singleSuffixes n
  if style.hideWinner then all.filter (·.getLast? ≠ winner) else all

/-- An explanation goes through the steps from its start and ends with what survives of the start. -/
theorem explain_returns_steps {style : ExplanationStyle} (hcontest : WellFormedContest n winner assertions)
    (hhide : style.hideWinner = true → winner ≠ none)
    (hstart : ∀ s ∈ explanationStart n winner style, Placed n s) :
    (explain n winner assertions style).Returns (.ok
      ⟨n,winner,style.cumulative,explanationStart n winner style,
        stepsFrom n style.cumulative (numbered assertions) (explanationStart n winner style),
        (explanationStart n winner style).flatMap (survivors n assertions)⟩) := by
  have hfaults : contestFaults n winner assertions = [] := contestFaults_eq_nil_iff.mpr hcontest
  have hshown : (style.hideWinner && winner.isNone) = false := by
    cases hh : style.hideWinner with
    | false => rfl
    | true => simpa using Option.ne_none_iff_isSome.mp (hhide hh)
  have hsteps := explainFrom_returns style.cumulative (wellFormed_numbered hcontest.assertions) hstart hstart
  rw [numbered_map_fst,ite_self] at hsteps
  unfold explain
  rw [hshown,hfaults]
  exact hsteps.bind (returns_pure _)

/-- An explanation ends with what survives of its start. -/
theorem explain_returns_of_placed {style : ExplanationStyle} (hcontest : WellFormedContest n winner assertions)
    (hhide : style.hideWinner = true → winner ≠ none)
    (hstart : ∀ s ∈ explanationStart n winner style, Placed n s) :
    ∃ steps, (explain n winner assertions style).Returns (.ok
      ⟨n,winner,style.cumulative,explanationStart n winner style,steps,
        (explanationStart n winner style).flatMap (survivors n assertions)⟩) :=
  ⟨_,explain_returns_steps hcontest hhide hstart⟩

theorem placed_of_mem_singleSuffixes (hs : s ∈ singleSuffixes n) : Placed n s := by
  obtain ⟨c,hc,rfl⟩ := List.mem_map.mp hs
  exact placed_singleton (mem_candidates.mp hc)

def contestSurvivors (n : Int) (assertions : List Assertion) : List Suffix :=
  (candidates n).flatMap fun c => survivors n assertions [c]

theorem explain_returns (cumulative : Bool) (hcontest : WellFormedContest n winner assertions) :
    ∃ steps, (explain n winner assertions ⟨false,false,cumulative⟩).Returns (.ok
      ⟨n,winner,cumulative,singleSuffixes n,steps,contestSurvivors n assertions⟩) := by
  have hsurvivors : contestSurvivors n assertions = (singleSuffixes n).flatMap (survivors n assertions) := by
    rw [singleSuffixes,List.flatMap_map]
    rfl
  rw [hsurvivors]
  exact explain_returns_of_placed hcontest (fun h => absurd h Bool.false_ne_true)
    fun _ => placed_of_mem_singleSuffixes

theorem getLast?_of_mem_survivors (hc : c ∈ candidates n) (hs : s ∈ survivors n assertions [c]) :
    s.getLast? = some c :=
  getLast?_eq_some_iff_suffix.mpr (of_mem_survivors (placed_singleton (mem_candidates.mp hc)) hs).2.1

theorem mem_contestSurvivors_iff : (s ∈ contestSurvivors n assertions ∧ s.getLast? = some c) ↔
    c ∈ candidates n ∧ s ∈ survivors n assertions [c] := by
  constructor
  · rintro ⟨hs,hlast⟩
    obtain ⟨d,hd,hs⟩ := List.mem_flatMap.mp hs
    obtain rfl : d = c := Option.some.inj ((getLast?_of_mem_survivors hd hs).symm.trans hlast)
    exact ⟨hd,hs⟩
  · rintro ⟨hc,hs⟩
    exact ⟨List.mem_flatMap.mpr ⟨c,hc,hs⟩,getLast?_of_mem_survivors hc hs⟩

theorem filter_contestSurvivors (hc : c ∈ candidates n) :
    (contestSurvivors n assertions).filter (·.getLast? = some c) = survivors n assertions [c] := by
  obtain ⟨front,back,h⟩ := List.append_of_mem hc
  obtain ⟨hfront,hback⟩ : c ∉ front ∧ c ∉ back := by
    have hnodup := nodup_candidates n
    rw [h,List.nodup_middle,List.nodup_cons,List.mem_append] at hnodup
    exact not_or.mp hnodup.1
  have hother : ∀ l : List Candidate, l ⊆ candidates n → c ∉ l →
      (l.flatMap fun d => (survivors n assertions [d]).filter (·.getLast? = some c)) = [] := by
    intro l hl hcl
    apply List.flatMap_eq_nil_iff.mpr
    intro d hd
    apply List.filter_eq_nil_iff.mpr
    intro s hs hlast
    have hlast := (getLast?_of_mem_survivors (hl hd) hs).symm.trans (of_decide_eq_true hlast)
    exact hcl (Option.some.inj hlast ▸ hd)
  have hown : (survivors n assertions [c]).filter (·.getLast? = some c) = survivors n assertions [c] :=
    List.filter_eq_self.mpr fun s hs => decide_eq_true (getLast?_of_mem_survivors hc hs)
  have hsubf : front ⊆ candidates n := fun d hd => h ▸ List.mem_append_left _ hd
  have hsubb : back ⊆ candidates n := fun d hd => h ▸ List.mem_append_right _ (List.mem_cons_of_mem c hd)
  rw [contestSurvivors,List.filter_flatMap,h,List.flatMap_append,List.flatMap_cons]
  rw [hother front hsubf hfront,hother back hsubb hback,hown,List.nil_append,List.append_nil]

/-- Without a limit on the work, an explanation is left with the valid leaves of the candidates' search
trees. So both find the same possible winners, with the same suffix as the first example. -/
theorem explain_remaining_eq_validLeaves (cumulative : Bool) (hcontest : WellFormedContest n winner assertions) :
    ∃ (e : Explanation) (v : Candidate → Verdict),
      (explain n winner assertions ⟨false,false,cumulative⟩).Gives (.ok e) ∧
      (∀ c ∈ candidates n, (verify n assertions c).Gives (v c)) ∧
      e.remaining = (candidates n).flatMap (fun c => (v c).validLeaves) ∧
      (∀ c, c ∈ e.possibleWinners ↔ c ∈ candidates n ∧ (v c).valid = true) ∧
      ∀ c ∈ candidates n, (v c).counterexample = e.remaining.find? (·.getLast? = some c) := by
  have ha := hcontest.assertions
  obtain ⟨steps,hsteps⟩ := explain_returns cumulative hcontest
  refine ⟨_,searchVerdict n assertions,hsteps.gives,?_,?_,?_,?_⟩
  · intro c hc
    exact (verify_takes ha (mem_candidates.mp hc)).gives
  · apply List.flatMap_congr
    intro c hc
    exact (searchVerdict_validLeaves (mem_candidates.mp hc)).symm
  · intro c
    have hsome : c ∈ (contestSurvivors n assertions).filterMap List.getLast? ↔
        c ∈ candidates n ∧ survivors n assertions [c] ≠ [] := by
      rw [List.mem_filterMap]
      simp only [mem_contestSurvivors_iff,exists_and_left,← List.isEmpty_eq_false_iff,
        List.isEmpty_eq_false_iff_exists_mem]
    rw [Explanation.possibleWinners,CandidateSet.mem_ofList,hsome]
    apply and_congr_right
    intro hc
    exact (searchVerdict_valid_iff (mem_candidates.mp hc)).symm
  · intro c hc
    rw [searchVerdict_counterexample (mem_candidates.mp hc),← filter_contestSurvivors hc,List.head?_filter]

theorem explain_three_cumulative :
    WellFormedContest 3 (some 0) [.neb 0 1,.nen 0 2 ⟨[0,2],by decide⟩] ∧
    ∃ (e : Explanation) (v : Candidate → Verdict),
      (explain 3 (some 0) [.neb 0 1,.nen 0 2 ⟨[0,2],by decide⟩] ⟨false,false,true⟩).Gives (.ok e) ∧
      (∀ c ∈ candidates 3, (verify 3 [.neb 0 1,.nen 0 2 ⟨[0,2],by decide⟩] c).Gives (v c)) ∧
      e.remaining = (candidates 3).flatMap (fun c => (v c).validLeaves) ∧
      (∀ c, c ∈ e.possibleWinners ↔ c ∈ candidates 3 ∧ (v c).valid = true) ∧
      ∀ c ∈ candidates 3, (v c).counterexample = e.remaining.find? (·.getLast? = some c) :=
  ⟨by decide,explain_remaining_eq_validLeaves true (by decide)⟩

end RunoffAudit
