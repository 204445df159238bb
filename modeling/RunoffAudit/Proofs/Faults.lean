import RunoffAudit.WellFormed

/-! # Faults and well-formed contests

The checks made before a search find nothing exactly if the contest is well formed.
-/
namespace RunoffAudit

variable {n : Int} {i : Nat} {a : Assertion} {c : Candidate} {f : Fault} {winner : Option Candidate}
  {assertions : List Assertion}

theorem mem_numbered : (a,i) ∈ numbered assertions ↔ assertions[i]? = some a :=
  List.mk_mem_zipIdx_iff_getElem?

theorem numbered_map_fst : (numbered assertions).map (·.1) = assertions := List.zipIdx_map_fst 0 assertions

theorem numbered_map_snd (assertions : List Assertion) :
    (numbered assertions).map (·.2) = List.range assertions.length := by
  rw [numbered,List.zipIdx_map_snd,List.range_eq_range']

theorem pairwise_numbered (assertions : List Assertion) : (numbered assertions).Pairwise fun x y => x.2 < y.2 := by
  have h : ((numbered assertions).map (·.2)).Pairwise (· < ·) := numbered_map_snd assertions ▸ List.pairwise_lt_range
  exact List.pairwise_map.mp h

theorem wellFormed_numbered (ha : ∀ a ∈ assertions, a.WellFormed n) :
    ∀ x ∈ numbered assertions, x.1.WellFormed n :=
  fun _ hx => ha _ (List.mem_of_getElem? (mem_numbered.mp hx))

theorem inContest_eq_true_iff : inContest n c = true ↔ 0 ≤ c ∧ c < n := by
  simp [inContest]

theorem find?_outside_eq_none_iff :
    (a.mentioned.find? fun c => !inContest n c) = none ↔ ∀ c ∈ a.mentioned, 0 ≤ c ∧ c < n := by
  rw [List.find?_eq_none]
  constructor
  · intro h c hc
    exact inContest_eq_true_iff.mp (by simpa using h c hc)
  · intro h c hc
    simpa using inContest_eq_true_iff.mpr (h c hc)

theorem Assertion.faults_eq_nil_iff : a.faults n i = [] ↔ a.WellFormed n := by
  cases a with
  | neb w l =>
    simp only [WellFormed,← find?_outside_eq_none_iff]
    cases hf : (neb w l).mentioned.find? fun c => !inContest n c with
    | some c => simp [faults,hf]
    | none =>
      simp only [faults,hf,winner,loser,List.append_nil,true_and,and_true]
      by_cases hwl : w = l
      · simp [hwl]
      · simp [hwl]
  | nen w l k =>
    simp only [WellFormed,← find?_outside_eq_none_iff]
    cases hf : (nen w l k).mentioned.find? fun c => !inContest n c with
    | some c => simp [faults,hf]
    | none =>
      have hmissing : [w,l].filter (· ∉ k) = [] ↔ w ∈ k ∧ l ∈ k := by simp [List.filter_eq_nil_iff]
      by_cases hk : k.members = []
      · have hw : w ∉ k := by
          intro h
          have h' : w ∈ k.members := h
          simp [hk] at h'
        simp [faults,hf,hk,hw]
      · simp only [faults,hf,winner,loser,hk,if_false,hmissing,List.append_eq_nil_iff,true_and]
        by_cases hwl : w = l
        · simp [hwl]
        · by_cases hm : w ∈ k ∧ l ∈ k
          · simp [hwl,hm]
          · simp [hwl,hm]

/-- What can be wrong with an assertion, and that nobody else is named for it than the assertion names. -/
theorem Assertion.mem_faults_cases (hf : f ∈ a.faults n i) :
    (∃ c ∈ a.mentioned, f = .mentionOutside i (.int c) n) ∨ f = .sameEndpoints i a ∨ f = .emptyContinuing i ∨
      ∃ missing continuing, f = .missingEndpoints i missing continuing ∧ ∀ c ∈ missing, c ∈ a.mentioned := by
  unfold faults at hf
  cases hfind : a.mentioned.find? fun c => !inContest n c with
  | some c =>
    simp only [hfind,List.mem_singleton] at hf
    exact .inl ⟨c,List.mem_of_find?_eq_some hfind,hf⟩
  | none =>
    simp only [hfind,List.mem_append] at hf
    rcases hf with hf | hf
    · split at hf
      · exact .inr (.inl (List.mem_singleton.mp hf))
      · cases hf
    · cases a with
      | neb w l => cases hf
      | nen w l k =>
        dsimp only at hf
        split at hf
        · exact .inr (.inr (.inl (List.mem_singleton.mp hf)))
        · split at hf
          · cases hf
          · refine .inr (.inr (.inr ⟨_,k,List.mem_singleton.mp hf,fun c hc => ?_⟩))
            exact List.mem_append_left k.members (List.mem_filter.mp hc).1

instance (n : Int) (a : Assertion) : Decidable (a.WellFormed n) :=
  decidable_of_iff ((a.faults n 0).isEmpty = true) (List.isEmpty_iff.trans Assertion.faults_eq_nil_iff)

theorem winnerFaults_eq_nil_iff : winnerFaults n winner = [] ↔ ∀ w, winner = some w → 0 ≤ w ∧ w < n := by
  cases winner with
  | none => simp [winnerFaults]
  | some w => simp [winnerFaults,inContest_eq_true_iff]

theorem contestFaults_eq_nil_iff :
    contestFaults n winner assertions = [] ↔ WellFormedContest n winner assertions := by
  by_cases hn : n ≤ 0
  · rw [contestFaults,if_pos hn]
    exact iff_of_false (List.cons_ne_nil _ _) fun h => Int.not_lt.mpr hn h.count
  · rw [contestFaults,if_neg hn,List.append_eq_nil_iff,winnerFaults_eq_nil_iff,List.flatMap_eq_nil_iff]
    constructor
    · rintro ⟨hw,h⟩
      refine ⟨Int.not_le.mp hn,hw,fun a ha => ?_⟩
      obtain ⟨i,hi⟩ := List.mem_iff_getElem?.mp ha
      exact Assertion.faults_eq_nil_iff.mp (h (a,i) (mem_numbered.mpr hi))
    · rintro ⟨_,hw,ha⟩
      refine ⟨hw,fun ⟨a,i⟩ hai => ?_⟩
      exact Assertion.faults_eq_nil_iff.mpr (ha a (List.mem_of_getElem? (mem_numbered.mp hai)))

theorem searchFaults_eq_nil_iff : searchFaults n c assertions = [] ↔ WellFormedSearch n c assertions := by
  by_cases hn : n ≤ 0
  · rw [searchFaults,if_pos hn]
    refine iff_of_false (List.cons_ne_nil _ _) fun h => ?_
    exact Int.not_lt.mpr hn (Int.lt_of_le_of_lt h.candidate.1 h.candidate.2)
  · rw [searchFaults,if_neg hn,List.append_eq_nil_iff,contestFaults_eq_nil_iff]
    constructor
    · rintro ⟨hc,h⟩
      exact ⟨inContest_eq_true_iff.mp (by simpa using hc),h.assertions⟩
    · rintro ⟨hc,ha⟩
      exact ⟨if_pos (inContest_eq_true_iff.mpr hc),Int.not_le.mp hn,nofun,ha⟩

instance (n : Int) (winner : Option Candidate) (assertions : List Assertion) :
    Decidable (WellFormedContest n winner assertions) :=
  decidable_of_iff ((contestFaults n winner assertions).isEmpty = true)
    (List.isEmpty_iff.trans contestFaults_eq_nil_iff)

instance (n : Int) (c : Candidate) (assertions : List Assertion) : Decidable (WellFormedSearch n c assertions) :=
  decidable_of_iff ((searchFaults n c assertions).isEmpty = true) (List.isEmpty_iff.trans searchFaults_eq_nil_iff)

namespace WellFormedContest

theorem declared {w : Candidate} (h : WellFormedContest n (some w) assertions) : 0 ≤ w ∧ w < n := h.winner w rfl

theorem search (h : WellFormedContest n winner assertions) (hc : 0 ≤ c ∧ c < n) : WellFormedSearch n c assertions :=
  ⟨hc,h.assertions⟩

theorem of_subset {others : List Assertion} (h : WellFormedContest n winner assertions)
    (hsub : ∀ a ∈ others, a ∈ assertions) : WellFormedContest n winner others :=
  ⟨h.count,h.winner,fun a ha => h.assertions a (hsub a ha)⟩

end WellFormedContest

theorem WellFormedSearch.contest (h : WellFormedSearch n c assertions) : WellFormedContest n (some c) assertions :=
  ⟨Int.lt_of_le_of_lt h.candidate.1 h.candidate.2,fun _ hw => Option.some.inj hw ▸ h.candidate,h.assertions⟩

end RunoffAudit
