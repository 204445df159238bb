import RunoffAudit.Proofs.Completion
import RunoffAudit.Proofs.Explanation

/-! # What is left depends on the set of the assertions

Applied in another order, or more than once, the assertions pass through other frontiers: one may split
a suffix that another would have dropped. The last frontier is the same list each time, since it lists
what survives all assertions.
-/
namespace RunoffAudit
open Metered

variable {n : Int} {as bs : List Assertion} {winner : Option Candidate} {style : ExplanationStyle} {s : Suffix}

theorem applyAll_returns {frontier : List Suffix} (ha : ∀ a ∈ as, a.WellFormed n)
    (hf : ∀ s ∈ frontier, Placed n s) :
    (applyAll n as frontier).Returns (frontier.flatMap (survivors n as)) := by
  induction as generalizing frontier with
  | nil =>
    rw [flatMap_survivors_nil]
    exact returns_pure frontier
  | cons a rest ih =>
    have hexpanded := expandAll_false_returns (ha a List.mem_cons_self) hf
    have hplaced : ∀ s ∈ frontier.flatMap (survivors n [a]), Placed n s := placed_flatMap_survivors hf
    have hrest := ih (fun b hb => ha b (List.mem_cons_of_mem a hb)) hplaced
    rw [applyAll,← flatMap_frontier_survivors hf]
    exact hexpanded.bind hrest

theorem placed_nil (n : Int) : Placed n [] := ⟨List.nodup_nil,fun _ hc => absurd hc List.not_mem_nil⟩

theorem allowedSuffixes_returns (ha : ∀ a ∈ as, a.WellFormed n) :
    (allowedSuffixes n as).Returns (survivors n as []) := by
  have hstart : ∀ s ∈ [([] : Suffix)], Placed n s := fun s hs => List.mem_singleton.mp hs ▸ placed_nil n
  have h := applyAll_returns ha hstart
  rwa [List.flatMap_singleton] at h

/-! ## Explanations of every style -/

theorem placed_of_mem_explanationStart (hs : s ∈ explanationStart n winner style) : Placed n s := by
  have hall : s ∈ if style.expandFully then allOrders n else singleSuffixes n := by
    unfold explanationStart at hs
    dsimp only at hs
    split at hs
    · exact (List.mem_filter.mp hs).1
    · exact hs
  cases he : style.expandFully with
  | true => exact (mem_allOrders_iff.mp (by simpa [he] using hall)).placed
  | false => exact placed_of_mem_singleSuffixes (by simpa [he] using hall)

/-- Why an explanation is refused if the assertions are well formed. They have no part in it. -/
def refusal? (n : Int) (winner : Option Candidate) (style : ExplanationStyle) : Option ExplanationError :=
  if style.hideWinner && winner.isNone then some .noWinnerToHide
  else if winnerFaults n winner = [] then none
  else some (.malformed (winnerFaults n winner))

theorem refusal?_eq_none_iff : refusal? n winner style = none ↔
    (∀ w, winner = some w → 0 ≤ w ∧ w < n) ∧ (style.hideWinner = true → winner ≠ none) := by
  rw [← winnerFaults_eq_nil_iff]
  unfold refusal?
  cases style.hideWinner with
  | false => simp
  | true => cases winner <;> simp

theorem contestFaults_of_wellFormed (hn : 0 < n) (ha : ∀ a ∈ as, a.WellFormed n) :
    contestFaults n winner as = winnerFaults n winner := by
  have hnone : contestFaults n none as = [] := contestFaults_eq_nil_iff.mpr ⟨hn,by simp,ha⟩
  unfold contestFaults at hnone ⊢
  rw [if_neg (Int.not_le.mpr hn)] at hnone ⊢
  rw [(List.append_eq_nil_iff.mp hnone).2,List.append_nil]

theorem explain_returns_refused {e : ExplanationError} (hn : 0 < n) (ha : ∀ a ∈ as, a.WellFormed n)
    (he : refusal? n winner style = some e) : (explain n winner as style).Returns (.error e) := by
  unfold refusal? at he
  unfold explain
  rw [contestFaults_of_wellFormed hn ha]
  cases hh : style.hideWinner && winner.isNone with
  | true =>
    rw [hh] at he
    cases he
    exact returns_pure _
  | false =>
    rw [hh] at he
    by_cases hw : winnerFaults n winner = []
    · simp [hw] at he
    · obtain rfl : .malformed (winnerFaults n winner) = e := by simpa [hw] using he
      have hne : (winnerFaults n winner).isEmpty = false := by simpa using hw
      simp only [hne]
      exact returns_pure _

/-- An explanation of well-formed assertions is refused or ends with what survives of its start. -/
theorem explain_returns_remaining (winner : Option Candidate) (style : ExplanationStyle) (hn : 0 < n)
    (ha : ∀ a ∈ as, a.WellFormed n) : ∃ r, (explain n winner as style).Returns r ∧
    r.map Explanation.remaining = match refusal? n winner style with
      | some e => .error e
      | none => .ok ((explanationStart n winner style).flatMap (survivors n as)) := by
  cases he : refusal? n winner style with
  | some e => exact ⟨.error e,explain_returns_refused hn ha he,rfl⟩
  | none =>
    obtain ⟨hw,hhide⟩ := refusal?_eq_none_iff.mp he
    obtain ⟨steps,hsteps⟩ := explain_returns_of_placed ⟨hn,hw,ha⟩ hhide fun _ => placed_of_mem_explanationStart
    exact ⟨_,hsteps,rfl⟩

/-- Lists with the same assertions, in any order and with any repetitions, leave the same list of suffixes,
whether they are applied from scratch or explained in whatever style. A style that is refused for one
is refused for the other, for the same reason. -/
theorem remaining_eq_of_same_assertions (hcontest : WellFormedContest n none as) (hsame : ∀ a, a ∈ as ↔ a ∈ bs) :
    (∃ frontier, (allowedSuffixes n as).Gives frontier ∧ (allowedSuffixes n bs).Gives frontier) ∧
    ∀ (winner : Option Candidate) (style : ExplanationStyle),
      ∃ r r', (explain n winner as style).Gives r ∧ (explain n winner bs style).Gives r' ∧
        r.map Explanation.remaining = r'.map Explanation.remaining ∧
        ((∀ w, winner = some w → 0 ≤ w ∧ w < n) → (style.hideWinner = true → winner ≠ none) →
          ∃ e e', r = .ok e ∧ r' = .ok e' ∧ e.remaining = e'.remaining) := by
  obtain ⟨hn,_,ha⟩ := hcontest
  have hb : ∀ a ∈ bs, a.WellFormed n := fun a h => ha a ((hsame a).mpr h)
  constructor
  · refine ⟨survivors n as [],(allowedSuffixes_returns ha).gives,?_⟩
    rw [survivors_congr_of_mem_iff (placed_nil n) hsame]
    exact (allowedSuffixes_returns hb).gives
  · intro winner style
    obtain ⟨r,hr,hremaining⟩ := explain_returns_remaining winner style hn ha
    obtain ⟨r',hr',hremaining'⟩ := explain_returns_remaining winner style hn hb
    have hleft : (explanationStart n winner style).flatMap (survivors n as) =
        (explanationStart n winner style).flatMap (survivors n bs) :=
      List.flatMap_congr fun s hs => survivors_congr_of_mem_iff (placed_of_mem_explanationStart hs) hsame
    have heq : r.map Explanation.remaining = r'.map Explanation.remaining := by
      rw [hremaining,hremaining',hleft]
    refine ⟨r,r',hr.gives,hr'.gives,heq,?_⟩
    intro hw hhide
    rw [refusal?_eq_none_iff.mpr ⟨hw,hhide⟩] at hremaining hremaining'
    cases r with
    | error e => cases hremaining
    | ok e =>
      cases r' with
      | error e' => cases hremaining'
      | ok e' => exact ⟨e,e',rfl,rfl,Except.ok.inj heq⟩

theorem remaining_eq_of_repeated :
    WellFormedContest 3 none [.neb 0 1,.nen 0 2 (.ofList [0,2])] ∧
    (∀ a, a ∈ [Assertion.neb 0 1,.nen 0 2 (.ofList [0,2])] ↔
      a ∈ [Assertion.nen 0 2 (.ofList [0,2]),.neb 0 1,.nen 0 2 (.ofList [0,2])]) ∧
    (∃ frontier, (allowedSuffixes 3 [.neb 0 1,.nen 0 2 (.ofList [0,2])]).Gives frontier ∧
      (allowedSuffixes 3 [.nen 0 2 (.ofList [0,2]),.neb 0 1,.nen 0 2 (.ofList [0,2])]).Gives frontier) ∧
    ∀ (winner : Option Candidate) (style : ExplanationStyle),
      ∃ r r', (explain 3 winner [.neb 0 1,.nen 0 2 (.ofList [0,2])] style).Gives r ∧
        (explain 3 winner [.nen 0 2 (.ofList [0,2]),.neb 0 1,.nen 0 2 (.ofList [0,2])] style).Gives r' ∧
        r.map Explanation.remaining = r'.map Explanation.remaining ∧
        ((∀ w, winner = some w → 0 ≤ w ∧ w < 3) → (style.hideWinner = true → winner ≠ none) →
          ∃ e e', r = .ok e ∧ r' = .ok e' ∧ e.remaining = e'.remaining) := by
  have hcontest : WellFormedContest 3 none [.neb 0 1,.nen 0 2 (.ofList [0,2])] := by decide
  have hsame : ∀ a, a ∈ [Assertion.neb 0 1,.nen 0 2 (.ofList [0,2])] ↔
      a ∈ [Assertion.nen 0 2 (.ofList [0,2]),.neb 0 1,.nen 0 2 (.ofList [0,2])] := by
    simp only [List.mem_cons,List.not_mem_nil,or_false]
    intro a
    exact ⟨Or.inr,fun h => h.elim Or.inr id⟩
  exact ⟨hcontest,hsame,remaining_eq_of_same_assertions hcontest hsame⟩

end RunoffAudit
