import Mathlib
import RunoffAudit.Proofs.BuiltArena
import RunoffAudit.Proofs.Relisting
import RunoffAudit.Proofs.SelectionShape

/-! # The shape of a trimming's result

Whatever the problem and the budget, the kept positions stand in the order of the search, and all of them are there
unless the search was finished. A finished search picks from the pruning assertions of its nodes. Equal assertions
prune the same nodes and are recorded there by position, so a later copy is never the first one of a node,
nor the only one.
-/
namespace RunoffAudit
open Metered

variable {n : Int} {winner : Option Candidate} {as : List Assertion} {order : List Nat} {a : Assertion}
  {i j : Nat} {b b' : Budget} {result : TrimResult} {request : TrimRequest}

/-! ## The order of the kept positions -/

/-- In the canonical order the assertion at position `i` comes before that at `j`: the keys ascend, and among equal
keys the positions. -/
def CanonicallyBefore (as : List Assertion) (i j : Nat) : Prop :=
  ∀ a b, as[i]? = some a → as[j]? = some b →
    atOrBefore a.canonicalKey b.canonicalKey = true ∧ (a.canonicalKey = b.canonicalKey → i < j)

theorem pairwise_canonicalOrder (as : List Assertion) : (canonicalOrder as).Pairwise (CanonicallyBefore as) := by
  apply List.pairwise_map.mpr
  apply (pairwise_mergeSort_numbered as).imp_of_mem
  intro x y hx hy hxy a b ha hb
  have hax := mem_numbered.mp (List.mem_mergeSort.mp hx)
  have hby := mem_numbered.mp (List.mem_mergeSort.mp hy)
  obtain rfl := Option.some.inj (hax.symm.trans ha)
  obtain rfl := Option.some.inj (hby.symm.trans hb)
  exact hxy

theorem nodup_searchOrder (sort : Bool) (as : List Assertion) : (searchOrder sort as).Nodup :=
  (searchOrder_perm sort as).nodup_iff.mpr List.nodup_range

theorem placesKept_sublist (order selected : List Nat) : (placesKept order selected).Sublist order := by
  have h : (placesKept order selected).Sublist (order.zipIdx.map (·.1)) := List.filter_sublist.map _
  rwa [List.zipIdx_map_fst] at h

/-- A search keeps positions in the order in which it looked at them, and all of them unless it was finished. -/
theorem trimOrdered_keeps {algorithm : TrimAlgorithm} {p : Policy}
    (h : (trimOrdered n winner as algorithm p order b).1 = .ok result) :
    result.original = as ∧ (∀ faults, result.outcome ≠ .malformed faults) ∧ result.kept.Sublist order ∧
      (result.outcome ≠ .trimmed → result.kept = order) := by
  unfold trimOrdered at h
  rcases hs : searchLosers ⟨n,true⟩ p (numbered (order.filterMap (as[·]?))) winner n.toNat 0 b
    with ⟨⟨trees,ending⟩,b₁⟩
  rw [run_bind hs] at h
  cases ending with
  | exhausted e =>
    cases h
    exact ⟨rfl,nofun,List.Sublist.refl _,fun _ => rfl⟩
  | survivor c tree =>
    cases h
    exact ⟨rfl,nofun,List.Sublist.refl _,fun _ => rfl⟩
  | allRuledOut =>
    dsimp only at h
    rcases hc : (Requirement.choose (Requirement.ofNodes trees)).runOn b₁ with ⟨e | chosen,b₂⟩
    · rw [attempt_bind hc] at h
      cases h
      exact ⟨rfl,nofun,List.Sublist.refl _,fun _ => rfl⟩
    · rw [attempt_bind hc] at h
      cases chosen with
      | none => cases h
      | some selected =>
        cases h
        exact ⟨rfl,nofun,placesKept_sublist order selected,fun h => absurd rfl h⟩

/-- Malformed input is kept as it is. Of a well-formed contest positions are kept in the order of the search, and all
of them unless a search was finished. -/
theorem trim_keeps (h : (trim n winner as request b).1 = .ok result) :
    result.original = as ∧
      ((result.kept = List.range as.length ∧ ∃ faults, result.outcome = .malformed faults) ∨
        ((∀ faults, result.outcome ≠ .malformed faults) ∧ result.kept.Sublist (searchOrder request.sort as) ∧
          (result.outcome ≠ .trimmed ∨ request.algorithm = .keepAll →
            result.kept = searchOrder request.sort as))) := by
  by_cases hfaults : contestFaults n winner as = []
  case neg =>
    rw [trim_refused hfaults] at h
    cases h
    exact ⟨rfl,Or.inl ⟨rfl,_,rfl⟩⟩
  case pos =>
    cases hown : request.algorithm.policy? with
    | some own =>
      have hsearched : request.algorithm ≠ .keepAll := by
        intro hkeepAll
        rw [hkeepAll] at hown
        cases hown
      rw [trim_eq_of_policy hfaults hown] at h
      obtain ⟨horiginal,hwellFormed,hsub,hall⟩ := trimOrdered_keeps h
      exact ⟨horiginal,Or.inr ⟨hwellFormed,hsub,fun h => hall (h.resolve_right hsearched)⟩⟩
    | none =>
      rw [trim_eq_of_no_policy hfaults hown] at h
      split at h
      · cases h
        exact ⟨rfl,Or.inr ⟨nofun,List.Sublist.refl _,fun _ => rfl⟩⟩
      · cases h

/-! ## What the selection picks -/

namespace SearchRule
variable {r : SearchRule} {p : Policy} {carried : List Numbered} {after : Suffix} {c : Candidate} {x : Node}

/-- Of the carried assertions that are equal to it, the one at position `i` is the first. -/
def FirstCopy (carried : List Numbered) (i : Nat) (a : Assertion) : Prop :=
  (a,i) ∈ carried ∧ ∀ j, (a,j) ∈ carried → i ≤ j

/-- The first contradiction of a node is the first copy of its assertion. -/
theorem firstCopy_of_pruning (hr : r.recordAll = true) (hcarried : carried.Pairwise fun x y => x.2 < y.2)
    {options : List (Requirement Nat)}
    (hfirst : Requirement.firstChoice?
      (((r.pruningAt p carried (c :: after)).map (·.2)).map .choice ++ options) = some i)
    (hpruned : r.pruningAt p carried (c :: after) ≠ []) :
    ∃ a, FirstCopy carried i a ∧ a.effect (c :: after) = .contradiction := by
  obtain ⟨⟨a,k⟩,rest,hpruning⟩ := List.exists_cons_of_ne_nil hpruned
  rw [hpruning] at hfirst
  obtain rfl : k = i := Option.some.inj hfirst
  have hhead : (a,k) ∈ r.pruningAt p carried (c :: after) := hpruning ▸ List.mem_cons_self
  obtain ⟨hmem,heffect⟩ := mem_of_mem_pruningAt hhead
  refine ⟨a,⟨hmem,?_⟩,heffect⟩
  intro j hj
  have hcopy := mem_pruningAt_of_recordAll (p := p) hr hj heffect
  have hascending := hcarried.sublist (pruningAt_sublist (r := r) (p := p) (s := c :: after))
  rw [hpruning] at hcopy hascending
  rcases List.mem_cons.mp hcopy with heq | hcopy
  · exact Nat.le_of_eq (congrArg Prod.snd heq).symm
  · exact Nat.le_of_lt (List.rel_of_pairwise_cons hascending hcopy)

theorem FirstCopy.of_undecidedAt {s : Suffix} (h : FirstCopy (undecidedAt carried s) i a) :
    FirstCopy carried i a := by
  obtain ⟨hmem,heffect⟩ := mem_undecidedAt.mp h.1
  exact ⟨hmem,fun j hj => h.2 j (mem_undecidedAt.mpr ⟨hj,heffect⟩)⟩

/-- An unpruned node leaves the picking to its children. -/
theorem picks_ofNode {pruning : List Nat} {v : Bool} {cs ds : List Node}
    (h : (Requirement.ofNode (.mk c after pruning v cs ds)).Picks i) :
    (pruning ≠ [] ∧ ∃ options, Requirement.firstChoice? (pruning.map .choice ++ options) = some i) ∨
      ∃ y ∈ cs, (Requirement.ofNode y).Picks i := by
  rw [Requirement.ofNode,Requirement.ofNodes_eq_map] at h
  cases pruning with
  | nil =>
    rcases h with _ | ⟨hr,hpicks⟩
    obtain ⟨y,hy,rfl⟩ := List.mem_map.mp hr
    exact Or.inr ⟨y,hy,hpicks⟩
  | cons k rest =>
    rcases h with _ | _ | hfirst
    exact Or.inl ⟨List.cons_ne_nil k rest,_,hfirst⟩

/-- The position is that of the first copy of an assertion that contradicts the suffix of a node of the tree. -/
def FirstAgainst (carried : List Numbered) (i : Nat) (x : Node) : Prop :=
  ∃ a, FirstCopy carried i a ∧ ∃ y ∈ x.walk, a.effect y.suffix = .contradiction

/-- What is picked for a node is its first contradiction or picked for a child. -/
theorem firstAgainst_of_picks {v : Bool} {cs ds : List Node} (hr : r.recordAll = true)
    (hcarried : carried.Pairwise fun x y => x.2 < y.2)
    (hbelow : ∀ y ∈ cs, (Requirement.ofNode y).Picks i → FirstAgainst (undecidedAt carried (c :: after)) i y)
    (hpicks : (Requirement.ofNode
      (.mk c after ((r.pruningAt p carried (c :: after)).map (·.2)) v cs ds)).Picks i) :
    FirstAgainst carried i (.mk c after ((r.pruningAt p carried (c :: after)).map (·.2)) v cs ds) := by
  rcases picks_ofNode hpicks with ⟨hpruned,_,hfirst⟩ | ⟨y,hy,hpicks⟩
  · obtain ⟨a,ha,heffect⟩ := firstCopy_of_pruning hr hcarried hfirst (by simpa using hpruned)
    exact ⟨a,ha,_,List.mem_cons_self,heffect⟩
  · obtain ⟨a,ha,z,hz,heffect⟩ := hbelow y hy hpicks
    refine ⟨a,ha.of_undecidedAt,z,?_,heffect⟩
    rw [Node.walk,Node.walkAll_eq_flatMap]
    exact List.mem_cons_of_mem _ (List.mem_flatMap.mpr ⟨y,hy,hz⟩)

/-- What is picked for a tree is the first copy of an assertion that contradicts the suffix of a node. -/
theorem Builds.firstAgainst (h : r.Builds p carried after c x) (hr : r.recordAll = true)
    (hcarried : carried.Pairwise fun x y => x.2 < y.2) (hpicks : (Requirement.ofNode x).Picks i) :
    FirstAgainst carried i x := by
  induction h with
  | decided => exact firstAgainst_of_picks hr hcarried nofun hpicks
  | stopped => exact firstAgainst_of_picks hr hcarried nofun hpicks
  | @opened p carried after c hpruned hu child hchild ih =>
    have hnone : (r.pruningAt p carried (c :: after)).map (·.2) = [] := List.map_eq_nil_iff.mpr hpruned
    rw [← hnone] at hpicks ⊢
    refine firstAgainst_of_picks hr hcarried ?_ hpicks
    intro y hy
    obtain ⟨d,hd,rfl⟩ := List.mem_map.mp hy
    exact ih d hd (hcarried.sublist List.filter_sublist)
  | passed hpruned hu hc hchild hv ih =>
    refine firstAgainst_of_picks hr hcarried ?_ hpicks
    intro y hy
    obtain ⟨d,hd,rfl⟩ := List.mem_map.mp hy
    exact ih d hd (hcarried.sublist List.filter_sublist)
  | dropped => exact firstAgainst_of_picks hr hcarried nofun hpicks

end SearchRule

/-- A place that is selected for the trees of losing candidates is that of the first copy of an assertion, and the
assertion contradicts the suffix of a node of one of the trees. -/
theorem firstAgainst_of_selected {p : Policy} {ordered : List Assertion} {trees : List Node} {selected : List Nat}
    (ha : ∀ a ∈ ordered, a.WellFormed n)
    (htrees : trees = (searched n winner).map ((⟨n,true⟩ : SearchRule).rootTree p (numbered ordered)))
    (hinvalid : ∀ x ∈ trees, x.valid = false)
    (hselected : (Requirement.choose (Requirement.ofNodes trees)).Returns (some selected)) (hi : i ∈ selected) :
    ∃ c ∈ searched n winner, ∃ tree ∈ trees, tree.suffix = [c] ∧ SearchRule.FirstAgainst (numbered ordered) i tree := by
  obtain ⟨chosen,hchosen,_,hpicked,_⟩ := Requirement.choose_picks (selectable_ofNodes_trees ha htrees hinvalid)
  obtain rfl := Option.some.inj (hselected.unique hchosen)
  obtain ⟨r,hr,hpicks⟩ := hpicked i hi
  rw [Requirement.ofNodes_eq_map] at hr
  obtain ⟨tree,htree,rfl⟩ := List.mem_map.mp hr
  have hmem := htree
  rw [htrees] at hmem
  obtain ⟨c,hc,rfl⟩ := List.mem_map.mp hmem
  have hbuilds := SearchRule.rootTree_built ⟨n,true⟩ p (numbered ordered) c
  exact ⟨c,hc,_,htree,hbuilds.suffix_eq,hbuilds.firstAgainst rfl (pairwise_numbered ordered) hpicks⟩

/-- Of equal assertions at most the first is selected. -/
theorem nodup_of_firstCopy {ordered : List Assertion} {selected : List Nat}
    (h : ∀ i ∈ selected, ∃ a, SearchRule.FirstCopy (numbered ordered) i a) :
    (assertionsAt ordered selected).Nodup := by
  apply List.pairwise_map.mpr
  apply ((pairwise_numbered ordered).filter _).imp_of_mem
  intro x y hx hy hxy heq
  obtain ⟨hx,_⟩ := List.mem_filter.mp hx
  obtain ⟨hy,hselected⟩ := List.mem_filter.mp hy
  obtain ⟨a,hmem,hfirst⟩ := h y.2 (of_decide_eq_true hselected)
  obtain rfl := Option.some.inj ((mem_numbered.mp hmem).symm.trans (mem_numbered.mp hy))
  exact Nat.not_le_of_lt hxy (hfirst x.2 (heq ▸ hx))

/-! ## The shape of a result -/

theorem map_eq_map_some_filterMap {α β : Type} {f : α → Option β} {xs : List α} (h : ∀ x ∈ xs, (f x).isSome) :
    xs.map f = (xs.filterMap f).map some := by
  induction xs with
  | nil => rfl
  | cons x rest ih =>
    obtain ⟨y,hy⟩ := Option.isSome_iff_exists.mp (h x List.mem_cons_self)
    rw [List.map_cons,List.filterMap_cons_some hy,List.map_cons,hy,ih fun z hz => h z (List.mem_cons_of_mem x hz)]

/-- What a result of trimming the assertions looks like, however it ended. -/
structure TrimResult.Shape (n : Int) (winner : Option Candidate) (as : List Assertion) (request : TrimRequest)
    (result : TrimResult) : Prop where
  nodup : result.kept.Nodup
  /-- The kept assertions are those at the kept positions, in the same order. -/
  assertions : result.kept.map (as[·]?) = result.assertions.map some
  sorted : result.outcome.status ≠ "INVALID_INPUT" → request.sort = true →
    result.kept.Pairwise (CanonicallyBefore as)
  listed : result.outcome.status ≠ "INVALID_INPUT" → request.sort = false → result.kept.Pairwise (· < ·)
  /-- Nothing is dropped unless a search was finished. -/
  complete : result.outcome.status ∈ ["INVALID_INPUT","INSUFFICIENT","UNOPTIMIZED"] ∨ request.algorithm = .keepAll →
    result.kept.Perm (List.range as.length)
  distinct : result.outcome.status = "TRIMMED" →
    request.algorithm = .minimizeTree ∨ request.algorithm = .minimizeAssertions → result.assertions.Nodup
  /-- Each kept assertion contradicts the suffix of a node in the tree of a losing candidate. -/
  contradicts : result.outcome.status = "TRIMMED" →
    request.algorithm = .minimizeTree ∨ request.algorithm = .minimizeAssertions →
    ∀ a ∈ result.assertions, ∃ c ∈ searched n winner, ∃ tree ∈ result.trees, tree.suffix = [c] ∧
      ∃ y ∈ tree.walk, a.effect y.suffix = .contradiction

theorem TrimOutcome.status_eq_trimmed_iff {o : TrimOutcome} : o.status = "TRIMMED" ↔ o = .trimmed := by
  cases o <;> simp [status]

theorem TrimOutcome.status_eq_invalidInput_iff {o : TrimOutcome} :
    o.status = "INVALID_INPUT" ↔ ∃ faults, o = .malformed faults := by
  cases o <;> simp [status]

/-- A finished search keeps at most one of equal assertions, and none that contradicts nothing. -/
theorem trim_selects (halgorithm : request.algorithm ≠ .keepAll)
    (h : (trim n winner as request b).1 = .ok result) (htrimmed : result.outcome = .trimmed) :
    result.assertions.Nodup ∧ ∀ a ∈ result.assertions, ∃ c ∈ searched n winner, ∃ tree ∈ result.trees,
      tree.suffix = [c] ∧ ∃ y ∈ tree.walk, a.effect y.suffix = .contradiction := by
  obtain ⟨hfaults,p,hordered⟩ := trim_eq_trimOrdered halgorithm h htrimmed
  obtain ⟨_,_,ha⟩ := contestFaults_eq_nil_iff.mp hfaults
  obtain ⟨horiginal,htrees,hinvalid,selected,hselected,hkept⟩ :=
    trimOrdered_chooses ha (Prod.ext hordered rfl) htrimmed
  have hassertions : result.assertions =
      assertionsAt ((searchOrder request.sort as).filterMap (as[·]?)) selected := by
    rw [TrimResult.assertions,hkept,horiginal]
    exact filterMap_placesKept (lt_length_of_mem_order (searchOrder_perm request.sort as))
  have hfirst := fun i => firstAgainst_of_selected (i := i)
    (fun a hm => ha a (mem_of_mem_filterMap_order hm)) htrees hinvalid hselected
  constructor
  · rw [hassertions]
    apply nodup_of_firstCopy
    intro i hi
    obtain ⟨_,_,_,_,_,a,hcopy,_⟩ := hfirst i hi
    exact ⟨a,hcopy⟩
  · intro a hm
    rw [hassertions] at hm
    obtain ⟨i,hi,ha⟩ := mem_assertionsAt_iff.mp hm
    obtain ⟨c,hc,tree,htree,hsuffix,a,hcopy,hcontradicts⟩ := hfirst i hi
    obtain rfl := Option.some.inj ((mem_numbered.mp hcopy.1).symm.trans ha)
    exact ⟨c,hc,tree,htree,hsuffix,hcontradicts⟩

/-- Every result of a trimming has this shape, whatever the number of candidates, the winner, the assertions, the
request and the budget. -/
theorem trim_shape (h : (trim n winner as request b).1 = .ok result) : result.Shape n winner as request := by
  obtain ⟨horiginal,hkeeps⟩ := trim_keeps h
  have hlt : ∀ i ∈ result.kept, i < as.length := by
    rcases hkeeps with ⟨hrange,_⟩ | ⟨_,hsub,_⟩
    · exact fun i hi => List.mem_range.mp (hrange ▸ hi)
    · exact fun i hi => lt_length_of_mem_order (searchOrder_perm request.sort as) i (hsub.subset hi)
  have hsearched : request.algorithm = .minimizeTree ∨ request.algorithm = .minimizeAssertions →
      request.algorithm ≠ .keepAll := by
    rintro (h | h) <;> rw [h] <;> exact nofun
  have hordered : result.outcome.status ≠ "INVALID_INPUT" → result.kept.Sublist (searchOrder request.sort as) := by
    intro hstatus
    rcases hkeeps with ⟨_,hmalformed⟩ | ⟨_,hsub,_⟩
    · exact absurd (TrimOutcome.status_eq_invalidInput_iff.mpr hmalformed) hstatus
    · exact hsub
  constructor
  case nodup =>
    rcases hkeeps with ⟨hrange,_⟩ | ⟨_,hsub,_⟩
    · rw [hrange]
      exact List.nodup_range
    · exact (nodup_searchOrder request.sort as).sublist hsub
  case assertions =>
    rw [TrimResult.assertions,horiginal]
    exact map_eq_map_some_filterMap fun i hi => by simp [hlt i hi]
  case sorted =>
    intro hstatus hsort
    have hsub := hordered hstatus
    rw [hsort] at hsub
    exact (pairwise_canonicalOrder as).sublist hsub
  case listed =>
    intro hstatus hsort
    have hsub := hordered hstatus
    rw [hsort] at hsub
    exact List.pairwise_lt_range.sublist hsub
  case complete =>
    intro hall
    rcases hkeeps with ⟨hrange,_⟩ | ⟨_,_,hkept⟩
    · rw [hrange]
    · have huncut : result.outcome ≠ .trimmed ∨ request.algorithm = .keepAll := by
        refine hall.imp_left fun hstatus htrimmed => ?_
        rw [htrimmed] at hstatus
        simp [TrimOutcome.status] at hstatus
      rw [hkept huncut]
      exact searchOrder_perm request.sort as
  case distinct =>
    exact fun hstatus halgorithm =>
      (trim_selects (hsearched halgorithm) h (TrimOutcome.status_eq_trimmed_iff.mp hstatus)).1
  case contradicts =>
    exact fun hstatus halgorithm =>
      (trim_selects (hsearched halgorithm) h (TrimOutcome.status_eq_trimmed_iff.mp hstatus)).2

/-- Every assertion is there twice, and one of each pair is kept at most. -/
theorem trim_shape_of_copies : ∃ result,
    (trim 3 (some 0) (fourForThree.reverse ++ fourForThree) ⟨.minimizeTree,none,true⟩ .unlimited).1 = .ok result ∧
    (result.outcome.status,result.kept) = ("TRIMMED",[2,3,0]) ∧
    result.Shape 3 (some 0) (fourForThree.reverse ++ fourForThree) ⟨.minimizeTree,none,true⟩ := by
  have hshown : (trim 3 (some 0) (fourForThree.reverse ++ fourForThree) ⟨.minimizeTree,none,true⟩ .unlimited).1.map
      (fun r => (r.outcome.status,r.kept)) = .ok ("TRIMMED",[2,3,0]) := by cbv
  cases hresult : (trim 3 (some 0) (fourForThree.reverse ++ fourForThree) ⟨.minimizeTree,none,true⟩ .unlimited).1 with
  | error e =>
    rw [hresult] at hshown
    cases hshown
  | ok result =>
    rw [hresult] at hshown
    exact ⟨result,rfl,Except.ok.inj hshown,trim_shape hresult⟩

end RunoffAudit
