import RunoffAudit.Proofs.CanonicalOrder
import RunoffAudit.Proofs.Outline
import RunoffAudit.Proofs.TrimOutcome

/-! # Results do not depend on how the assertions are listed

A verification sees the assertions one by one and stops at the first that contradicts a suffix, but the outline
of its trees depends on the set of the assertions only. A trimming selects by position. If it sorts first,
the positions are those of one and the same list, however the assertions stood before.
-/
namespace RunoffAudit
open Metered

variable {n : Int} {winner : Option Candidate} {as bs : List Assertion} {c : Candidate} {b b' : Budget}
  {order order' selected : List Nat}

/-! ## Verdicts and reports -/

/-- The verdicts agree in everything but the positions of pruning assertions. -/
structure Verdict.Alike (v u : Verdict) : Prop where
  candidate : v.candidate = u.candidate
  valid : v.valid = u.valid
  counterexample : v.counterexample = u.counterexample
  nodesExplored : v.nodesExplored = u.nodesExplored
  maxDepth : v.maxDepth = u.maxDepth
  suffixes : v.tree.map Node.visitedSuffixes = u.tree.map Node.visitedSuffixes

theorem verdictTree_outline_eq (hc : 0 ≤ c ∧ c < n) (hsame : ∀ a, a ∈ as ↔ a ∈ bs) :
    (verdictTree n as c).outline = (verdictTree n bs c).outline := by
  apply (verdictTree_builds hc).outline_eq (verdictTree_builds hc) (placed_singleton hc)
  rw [numbered_map_fst,numbered_map_fst]
  exact fun _ _ _ => ⟨refuted_congr hsame,granted_congr hsame⟩

theorem searchVerdict_alike (hc : 0 ≤ c ∧ c < n) (hsame : ∀ a, a ∈ as ↔ a ∈ bs) :
    (searchVerdict n as c).Alike (searchVerdict n bs c) := by
  have houtline := verdictTree_outline_eq hc hsame
  have hsuffixes : (verdictTree n as c).visitedSuffixes = (verdictTree n bs c).visitedSuffixes := by
    rw [← Node.visitedSuffixes_outline,houtline,Node.visitedSuffixes_outline]
  constructor
  case candidate => rfl
  case valid =>
    show (verdictTree n as c).valid = (verdictTree n bs c).valid
    rw [← Node.valid_outline,houtline,Node.valid_outline]
  case counterexample =>
    rw [searchVerdict_counterexample hc,searchVerdict_counterexample hc,
      survivors_congr_of_mem_iff (placed_singleton hc) hsame]
  case nodesExplored =>
    show (verdictTree n as c).size = (verdictTree n bs c).size
    rw [← Node.length_visitedSuffixes,hsuffixes,Node.length_visitedSuffixes]
  case maxDepth =>
    show (verdictTree n as c).maxDepth = (verdictTree n bs c).maxDepth
    rw [Node.maxDepth_eq,hsuffixes,← Node.maxDepth_eq]
  case suffixes => exact congrArg some hsuffixes

namespace ContestReport
variable {r u : ContestReport}

def outcomes (r : ContestReport) : List (Candidate × Bool) := r.verdicts.map fun v => (v.candidate,v.valid)

theorem winnerRuledOut_eq (r : ContestReport) :
    r.winnerRuledOut = r.outcomes.any fun o => some o.1 = r.winner && !o.2 := by
  rw [outcomes,List.any_map]
  rfl

theorem unexcluded_eq (r : ContestReport) :
    r.unexcluded = (r.outcomes.filter fun o => o.2 && some o.1 ≠ r.winner).map (·.1) := by
  rw [outcomes,List.filter_map,List.map_map]
  rfl

/-- The reports come to the same, and their verdicts are alike one by one. -/
structure Alike (r u : ContestReport) : Prop where
  status : r.status = u.status
  unexcluded : r.unexcluded = u.unexcluded
  verdicts : List.Forall₂ Verdict.Alike r.verdicts u.verdicts

theorem outcomes_eq (h : List.Forall₂ Verdict.Alike r.verdicts u.verdicts) : r.outcomes = u.outcomes := by
  have hpairs : List.Forall₂ Eq r.outcomes u.outcomes :=
    List.forall₂_map_left_iff.mpr (List.forall₂_map_right_iff.mpr
      (h.imp fun _ _ halike => Prod.ext halike.candidate halike.valid))
  rwa [List.forall₂_eq_eq_eq] at hpairs

theorem alike_of_verdicts (hwinner : r.winner = u.winner) (hmalformed : r.malformed = u.malformed)
    (hstopped : r.stopped = u.stopped) (h : List.Forall₂ Verdict.Alike r.verdicts u.verdicts) : r.Alike u := by
  have houtcomes := outcomes_eq h
  have hunexcluded : r.unexcluded = u.unexcluded := by rw [unexcluded_eq,unexcluded_eq,houtcomes,hwinner]
  have hruled : r.winnerRuledOut = u.winnerRuledOut := by
    rw [winnerRuledOut_eq,winnerRuledOut_eq,houtcomes,hwinner]
  refine ⟨?_,hunexcluded,h⟩
  rw [ContestReport.status,hmalformed,hstopped,hruled,hunexcluded]
  rfl

end ContestReport

theorem verifyContest_alike (hb : b.Unlimited) (hb' : b'.Unlimited) (hcontest : WellFormedContest n winner as)
    (hsame : ∀ a, a ∈ as ↔ a ∈ bs) (checkWinner : Bool) :
    (verifyContest n winner as checkWinner b).1.Alike (verifyContest n winner bs checkWinner b').1 := by
  obtain ⟨k,hk⟩ := verifyContest_of_unlimited hb hcontest checkWinner
  obtain ⟨k',hk'⟩ := verifyContest_of_unlimited hb' (hcontest.of_subset fun a => (hsame a).mpr) checkWinner
  rw [hk,hk']
  refine ContestReport.alike_of_verdicts rfl rfl rfl ?_
  apply List.forall₂_map_left_iff.mpr
  apply List.forall₂_map_right_iff.mpr
  apply List.forall₂_same.mpr
  intro c hc
  exact searchVerdict_alike (mem_candidates.mp (mem_searched_iff.mp hc).1) hsame

/-! ## Trimmings -/

theorem filterMap_filter_zipIdx {α β : Type} {f : α → Option β} {xs : List α} (h : ∀ x ∈ xs, (f x).isSome)
    (p : Nat → Bool) (k : Nat) :
    (((xs.zipIdx k).filter (p ·.2)).map (·.1)).filterMap f = (((xs.filterMap f).zipIdx k).filter (p ·.2)).map (·.1) := by
  induction xs generalizing k with
  | nil => rfl
  | cons x rest ih =>
    obtain ⟨y,hy⟩ := Option.isSome_iff_exists.mp (h x List.mem_cons_self)
    have hrest := ih (fun z hz => h z (List.mem_cons_of_mem x hz)) (k + 1)
    rw [List.filterMap_cons_some hy,List.zipIdx_cons,List.zipIdx_cons]
    cases hp : p k with
    | true => simpa [List.filter_cons,hp,hy] using hrest
    | false => simpa [List.filter_cons,hp] using hrest

def assertionsAt (ordered : List Assertion) (selected : List Nat) : List Assertion :=
  ((numbered ordered).filter (·.2 ∈ selected)).map (·.1)

theorem filterMap_placesKept (horder : ∀ i ∈ order, i < as.length) :
    (placesKept order selected).filterMap (as[·]?) = assertionsAt (order.filterMap (as[·]?)) selected :=
  filterMap_filter_zipIdx (fun i hi => by simp [horder i hi]) (· ∈ selected) 0

theorem mem_assertionsAt_iff {ordered : List Assertion} {a : Assertion} :
    a ∈ assertionsAt ordered selected ↔ ∃ i ∈ selected, ordered[i]? = some a := by
  constructor
  · intro h
    obtain ⟨x,hx,rfl⟩ := List.mem_map.mp h
    obtain ⟨hx,hselected⟩ := List.mem_filter.mp hx
    exact ⟨x.2,of_decide_eq_true hselected,mem_numbered.mp hx⟩
  · rintro ⟨i,hi,ha⟩
    exact List.mem_map.mpr ⟨(a,i),List.mem_filter.mpr ⟨mem_numbered.mpr ha,decide_eq_true hi⟩,rfl⟩

/-- What a trimming found out, said without positions. -/
def TrimResult.findings (r : TrimResult) : TrimOutcome × List Assertion × List Node :=
  (r.outcome,r.assertions,r.trees)

theorem trimOrdered_findings_eq (algorithm : TrimAlgorithm) (p : Policy) (b : Budget)
    (horder : ∀ i ∈ order, i < as.length) (horder' : ∀ i ∈ order', i < bs.length)
    (hlist : order.filterMap (as[·]?) = order'.filterMap (bs[·]?)) :
    (trimOrdered n winner as algorithm p order b).1.map TrimResult.findings =
      (trimOrdered n winner bs algorithm p order' b).1.map TrimResult.findings := by
  have hkept : ∀ selected, (placesKept order selected).filterMap (as[·]?) =
      (placesKept order' selected).filterMap (bs[·]?) := by
    intro selected
    rw [filterMap_placesKept horder,filterMap_placesKept horder',hlist]
  unfold trimOrdered
  -- from here on both run the same searches and the same selection
  rw [hlist]
  rcases hs : searchLosers ⟨n,true⟩ p (numbered (order'.filterMap (bs[·]?))) winner n.toNat 0 b
    with ⟨⟨trees,ending⟩,b₁⟩
  rw [run_bind hs,run_bind hs]
  cases ending with
  | exhausted e => exact congrArg (fun l => Except.ok (_,l,trees)) hlist
  | survivor c tree => exact congrArg (fun l => Except.ok (_,l,trees)) hlist
  | allRuledOut =>
    dsimp only
    rcases hc : (Requirement.choose (Requirement.ofNodes trees)).runOn b₁ with ⟨e | chosen,b₂⟩
    · rw [attempt_bind hc,attempt_bind hc]
      exact congrArg (fun l => Except.ok (_,l,trees)) hlist
    · rw [attempt_bind hc,attempt_bind hc]
      cases chosen with
      | none => rfl
      | some selected => exact congrArg (fun l => Except.ok (_,l,trees)) (hkept selected)

theorem trim_findings_eq {request : TrimRequest} (hfaults : contestFaults n winner as = [])
    (hfaults' : contestFaults n winner bs = []) (hperm : bs.Perm as) (hsort : request.sort = true) (b : Budget) :
    (trim n winner as request b).1.map TrimResult.findings = (trim n winner bs request b).1.map TrimResult.findings := by
  have hsearched : (searchOrder request.sort as).filterMap (as[·]?) =
      (searchOrder request.sort bs).filterMap (bs[·]?) := by
    rw [hsort,searchOrder,searchOrder,if_pos rfl,if_pos rfl,filterMap_canonicalOrder,filterMap_canonicalOrder,
      canonicallySorted_eq_of_perm hperm]
  cases hown : request.algorithm.policy? with
  | some own =>
    rw [trim_eq_of_policy hfaults hown,trim_eq_of_policy hfaults' hown]
    exact trimOrdered_findings_eq _ _ b (lt_length_of_mem_order (searchOrder_perm request.sort as))
      (lt_length_of_mem_order (searchOrder_perm request.sort bs)) hsearched
  | none =>
    rw [trim_eq_of_no_policy hfaults hown,trim_eq_of_no_policy hfaults' hown]
    by_cases hkeep : request.algorithm = .keepAll
    · rw [if_pos hkeep,if_pos hkeep]
      exact congrArg (fun l => Except.ok (_,l,[])) hsearched
    · rw [if_neg hkeep,if_neg hkeep]

/-- What a trimming shows: its status, the assertions it keeps, the number of nodes and the greatest depth. -/
def TrimResult.shown (r : TrimResult) : String × List Assertion × Nat × Nat :=
  (r.outcome.status,r.assertions,r.nodesExplored,r.maxDepth)

theorem map_shown_eq_of_findings {x y : Except TrimError TrimResult}
    (h : x.map TrimResult.findings = y.map TrimResult.findings) : x.map TrimResult.shown = y.map TrimResult.shown := by
  have hshown : ∀ z : Except TrimError TrimResult, z.map TrimResult.shown = (z.map TrimResult.findings).map
      fun f => (f.1.status,f.2.1,(f.2.2.map Node.size).foldl (· + ·) 0,(f.2.2.map Node.maxDepth).foldl max 0) := by
    intro z
    cases z <;> rfl
  rw [hshown,hshown,h]

/-- Without a limit it does not matter how the assertions of a contest are listed. Lists with the same assertions,
in any order and with any repetitions, are verified with alike reports; and lists that are rearrangements of
each other are trimmed to the same assertions in the same order, with any algorithm and policy, if the
assertions are sorted first. -/
theorem results_independent_of_listing (hb : b.Unlimited) (hb' : b'.Unlimited)
    (hcontest : WellFormedContest n winner as) (hsame : ∀ a, a ∈ as ↔ a ∈ bs) :
    (∀ checkWinner, (verifyContest n winner as checkWinner b).1.Alike
      (verifyContest n winner bs checkWinner b').1) ∧
    (bs.Perm as → ∀ request : TrimRequest, request.sort = true →
      (trim n winner as request b).1.map TrimResult.shown = (trim n winner bs request b').1.map TrimResult.shown ∧
      (request.algorithm ∈ TrimAlgorithm.known → ∃ result, (trim n winner as request b).1 = .ok result)) := by
  have hfaults : contestFaults n winner as = [] := contestFaults_eq_nil_iff.mpr hcontest
  refine ⟨verifyContest_alike hb hb' hcontest hsame,?_⟩
  intro hperm request hsort
  have hfaults' : contestFaults n winner bs = [] :=
    contestFaults_eq_nil_iff.mpr (hcontest.of_subset fun a => (hsame a).mpr)
  obtain ⟨answer,k,hk,hok⟩ := trim_answer_ends request hfaults
  -- the work done before has no part in the answer
  have hbudget : (trim n winner as request b).1 = (trim n winner as request b').1 := by
    rw [hk.unlimited b hb,hk.unlimited b' hb']
  constructor
  · rw [hbudget]
    exact map_shown_eq_of_findings (trim_findings_eq hfaults hfaults' hperm hsort b')
  · intro hknown
    rw [hk.unlimited b hb]
    exact hok hknown

theorem results_independent_of_reversal :
    Budget.unlimited.Unlimited ∧ (⟨none,none,7,0,0⟩ : Budget).Unlimited ∧
    WellFormedContest 3 (some 0) fourForThree ∧
    (∀ a, a ∈ fourForThree ↔ a ∈ fourForThree.reverse) ∧ fourForThree.reverse.Perm fourForThree ∧
    (∀ checkWinner, (verifyContest 3 (some 0) fourForThree checkWinner .unlimited).1.Alike
      (verifyContest 3 (some 0) fourForThree.reverse checkWinner ⟨none,none,7,0,0⟩).1) ∧
    ∃ result, (trim 3 (some 0) fourForThree ⟨.minimizeTree,none,true⟩ .unlimited).1 = .ok result ∧
      (trim 3 (some 0) fourForThree.reverse ⟨.minimizeTree,none,true⟩ ⟨none,none,7,0,0⟩).1.map TrimResult.shown =
        .ok result.shown := by
  have hb : Budget.unlimited.Unlimited := ⟨rfl,rfl⟩
  have hb' : (⟨none,none,7,0,0⟩ : Budget).Unlimited := ⟨rfl,rfl⟩
  have hcontest : WellFormedContest 3 (some 0) fourForThree := by decide
  have hsame : ∀ a, a ∈ fourForThree ↔ a ∈ fourForThree.reverse := fun _ => List.mem_reverse.symm
  have hperm : fourForThree.reverse.Perm fourForThree := List.reverse_perm _
  obtain ⟨hreports,htrims⟩ := results_independent_of_listing hb hb' hcontest hsame
  obtain ⟨hshown,hok⟩ := htrims hperm ⟨.minimizeTree,none,true⟩ rfl
  obtain ⟨result,hresult⟩ := hok (by decide)
  rw [hresult] at hshown
  exact ⟨hb,hb',hcontest,hsame,hperm,hreports,result,hresult,hshown.symm⟩

end RunoffAudit
