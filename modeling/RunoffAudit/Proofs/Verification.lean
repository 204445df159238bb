import RunoffAudit.Proofs.Faults
import RunoffAudit.Proofs.Leaves
import RunoffAudit.Verdict

/-! # Verification agrees with all elimination orders

The verdict on a candidate says that the candidate can win exactly if some elimination order won by the
candidate violates no assertion, and then it names a suffix all of whose orders are such.
-/
namespace RunoffAudit
open Metered

variable {n : Int} {assertions : List Assertion} {c : Candidate}

def Verdict.validLeaves (v : Verdict) : List Suffix := (v.tree.map Node.validLeaves).getD []

/-- The verdict of a search that is not forbidden and not cut short. -/
def searchVerdict (n : Int) (assertions : List Assertion) (c : Candidate) : Verdict :=
  ⟨c,[],some ((⟨n,false⟩ : SearchRule).rootTree .stopImmediately (numbered assertions) c)⟩

theorem verify_takes (ha : ∀ a ∈ assertions, a.WellFormed n) (hc : 0 ≤ c ∧ c < n) :
    (verify n assertions c).Takes (searchVerdict n assertions c).nodesExplored
      (searchVerdict n assertions c) := by
  have hfaults : searchFaults n c assertions = [] := searchFaults_eq_nil_iff.mpr ⟨hc,ha⟩
  have htree := searchTree_takes ⟨n,false⟩ .stopImmediately (numbered assertions) c
  unfold verify
  rw [hfaults]
  exact htree.map fun t => Verdict.mk c [] (some t)

theorem searchVerdict_valid_iff (hc : 0 ≤ c ∧ c < n) :
    (searchVerdict n assertions c).valid = true ↔ survivors n assertions [c] ≠ [] := by
  have h := (SearchRule.rootTree_builds ⟨n,false⟩ .stopImmediately (numbered assertions) hc).valid_iff
    (placed_singleton hc)
  rwa [numbered_map_fst] at h

theorem searchVerdict_validLeaves (hc : 0 ≤ c ∧ c < n) :
    (searchVerdict n assertions c).validLeaves = survivors n assertions [c] := by
  have h := (SearchRule.rootTree_builds ⟨n,false⟩ .stopImmediately (numbered assertions) hc).validLeaves_eq
    (placed_singleton hc)
  rwa [numbered_map_fst] at h

theorem searchVerdict_counterexample (hc : 0 ≤ c ∧ c < n) :
    (searchVerdict n assertions c).counterexample = (survivors n assertions [c]).head? := by
  have hleaves : _ = survivors n assertions [c] := searchVerdict_validLeaves hc
  have hfirst := Node.firstValidLeaf_map_suffix
    ((⟨n,false⟩ : SearchRule).rootTree .stopImmediately (numbered assertions) c)
  rw [show Node.validLeaves _ = _ from hleaves] at hfirst
  show (if (searchVerdict n assertions c).valid = true then _ else none) = _
  by_cases hv : (searchVerdict n assertions c).valid = true
  · rw [if_pos hv,hfirst]
  · rw [if_neg hv,not_not.mp fun h => hv ((searchVerdict_valid_iff hc).mpr h)]
    rfl

/-- Without a limit on the work, a candidate is found to be able to win exactly if some elimination order
won by the candidate violates no assertion. The counterexample then stands for such orders only. -/
theorem verify_valid_iff_exists_order (hsearch : WellFormedSearch n c assertions) :
    ∃ v, (verify n assertions c).Gives v ∧
      (v.valid = true ↔ ∃ order, IsOrder n order ∧ order.getLast? = some c ∧
        ∀ a ∈ assertions, ¬ a.Violates order) ∧
      (v.valid = true → ∃ s, v.counterexample = some s ∧ Placed n s ∧ s.getLast? = some c ∧
        ∀ order, IsOrder n order → s <:+ order → ∀ a ∈ assertions, ¬ a.Violates order) ∧
      (v.valid = false → v.counterexample = none) := by
  obtain ⟨hc,ha⟩ := hsearch
  have hp := placed_singleton hc
  have hvalid : _ ↔ survivors n assertions [c] ≠ [] := searchVerdict_valid_iff hc
  refine ⟨searchVerdict n assertions c,(verify_takes ha hc).gives,?_,?_,?_⟩
  · rw [hvalid,survivors_ne_nil_iff ha hp]
    simp only [getLast?_eq_some_iff_suffix]
  · intro hv
    obtain ⟨s,rest,hs⟩ := List.exists_cons_of_ne_nil (hvalid.mp hv)
    obtain ⟨hps,hsuffix,hg⟩ := of_mem_survivors hp (hs ▸ List.mem_cons_self)
    refine ⟨s,by rw [searchVerdict_counterexample hc,hs]; rfl,hps,getLast?_eq_some_iff_suffix.mpr hsuffix,?_⟩
    intro order ho hso
    exact not_violates_of_granted ha hg ho hso
  · intro hv
    rw [searchVerdict_counterexample hc]
    have hnil : survivors n assertions [c] = [] := by
      by_contra hne
      rw [hvalid.mpr hne] at hv
      cases hv
    rw [hnil]
    rfl

theorem verify_last_of_three :
    WellFormedSearch 3 2 [.nen 0 2 ⟨[0,2],by decide⟩,.nen 1 0 ⟨[0,1,2],by decide⟩] ∧
    ∃ v, (verify 3 [.nen 0 2 ⟨[0,2],by decide⟩,.nen 1 0 ⟨[0,1,2],by decide⟩] 2).Gives v ∧
      (v.valid = true ↔ ∃ order, IsOrder 3 order ∧ order.getLast? = some 2 ∧
        ∀ a ∈ [Assertion.nen 0 2 ⟨[0,2],by decide⟩,.nen 1 0 ⟨[0,1,2],by decide⟩], ¬ a.Violates order) ∧
      (v.valid = true → ∃ s, v.counterexample = some s ∧ Placed 3 s ∧ s.getLast? = some 2 ∧
        ∀ order, IsOrder 3 order → s <:+ order →
          ∀ a ∈ [Assertion.nen 0 2 ⟨[0,2],by decide⟩,.nen 1 0 ⟨[0,1,2],by decide⟩], ¬ a.Violates order) ∧
      (v.valid = false → v.counterexample = none) :=
  ⟨by decide,verify_valid_iff_exists_order (by decide)⟩

end RunoffAudit
