import RunoffAudit.Proofs.Outline

/-! # Policies do not change the verdict

What a policy decides is only how far to search below pruned nodes. Searches with the same assertions have the same
nodes as long as they pass no pruned node on the way down, so they come to the same verdict and find
the same first valid leaf. Below a pruned node nothing is valid.
-/
namespace RunoffAudit

namespace Node

mutual

/-- The walk that does not go below pruned nodes. It meets the nodes all of whose proper ancestors are unpruned. -/
def openWalk : Node → List Node
  | mk c s p v cs ds => mk c s p v cs ds :: if p.isEmpty then openWalkAll cs else []

def openWalkAll : List Node → List Node
  | [] => []
  | x :: rest => x.openWalk ++ openWalkAll rest

end

theorem openWalkAll_eq_flatMap (xs : List Node) : openWalkAll xs = xs.flatMap openWalk := by
  induction xs with
  | nil => rfl
  | cons x rest ih => rw [openWalkAll,ih,List.flatMap_cons]

/-- What a node is, whatever prunes it. -/
def sighting (y : Node) : Suffix × Bool × Bool := (y.suffix, y.pruned, y.valid)

theorem openWalk_childless (c : Candidate) (after : Suffix) (p : List Nat) (v : Bool) (ds : List Node) :
    (mk c after p v [] ds).openWalk = [mk c after p v [] ds] := by
  rw [openWalk,openWalkAll,ite_self]

theorem openWalk_pruned {p : List Nat} (hp : p ≠ []) (c : Candidate) (after : Suffix) (v : Bool) (cs ds : List Node) :
    (mk c after p v cs ds).openWalk = [mk c after p v cs ds] := by
  rw [openWalk,if_neg (by simpa using hp)]

theorem map_sighting_opened (c : Candidate) (after : Suffix) (v : Bool) (cs ds : List Node) :
    (mk c after [] v cs ds).openWalk.map sighting =
      (c :: after,false,v) :: cs.flatMap fun y => y.openWalk.map sighting := by
  rw [openWalk,openWalkAll_eq_flatMap,List.isEmpty_nil,if_pos rfl,List.map_cons,List.map_flatMap]
  rfl

theorem exists_openWalk_eq_cons (x : Node) : ∃ rest, x.openWalk = x :: rest := by
  cases x
  exact ⟨_,rfl⟩

/-- A node is the first of its walk. -/
theorem sighting_eq_of_openWalk {x y : Node} (h : x.openWalk.map sighting = y.openWalk.map sighting) :
    x.sighting = y.sighting := by
  obtain ⟨restx,hx⟩ := x.exists_openWalk_eq_cons
  obtain ⟨resty,hy⟩ := y.exists_openWalk_eq_cons
  rw [hx,hy,List.map_cons,List.map_cons] at h
  exact (List.cons.inj h).1

theorem valid_eq_of_openWalk {x y : Node} (h : x.openWalk.map sighting = y.openWalk.map sighting) :
    x.valid = y.valid := congrArg (·.2.2) (sighting_eq_of_openWalk h)

/-! ## What children keep holds on the whole walk -/

mutual

theorem walk_induction {P : Node → Prop} (hstep : ∀ x, P x → ∀ y ∈ x.children, P y) :
    (x : Node) → P x → ∀ z ∈ x.walk, P z
  | mk c s p v cs ds => by
    intro hx z hz
    rw [walk,List.mem_cons] at hz
    rcases hz with rfl | hz
    · exact hx
    · exact walkAll_induction hstep cs (hstep _ hx) z hz

theorem walkAll_induction {P : Node → Prop} (hstep : ∀ x, P x → ∀ y ∈ x.children, P y) :
    (xs : List Node) → (∀ x ∈ xs, P x) → ∀ z ∈ walkAll xs, P z
  | [] => fun _ _ hz => nomatch hz
  | x :: rest => by
    intro hall z hz
    rw [walkAll,List.mem_append] at hz
    rcases hz with hz | hz
    · exact walk_induction hstep x (hall x List.mem_cons_self) z hz
    · exact walkAll_induction hstep rest (fun y hy => hall y (List.mem_cons_of_mem x hy)) z hz

end

end Node

namespace SearchRule
variable {r r' : SearchRule} {p q : Policy} {carried : List Numbered} {after : Suffix} {c : Candidate} {x y : Node}

/-! ## Two policies -/

theorem isEmpty_pruningAt {s : Suffix} :
    (r.pruningAt p carried s).isEmpty = !refuted (carried.map (·.1)) s := by
  rw [Bool.eq_iff_iff,List.isEmpty_iff,pruningAt_eq_nil_iff,Bool.not_eq_true']

/-- In every search there are nodes where the assertions settle the suffix, and unpruned nodes with a child for
every open candidate. The policy may go on below the first but has no part in the second. -/
theorem Builds.open_induction {motive : List Numbered → Suffix → Candidate → Node → Prop}
    (leaf : ∀ carried after c x, r.Builds p carried after c x → settled (carried.map (·.1)) (c :: after) = true →
      motive carried after c x)
    (opened : ∀ carried after c (child : Candidate → Node),
      r.pruningAt p carried (c :: after) = [] → undecidedAt carried (c :: after) ≠ [] →
      (∀ d ∈ unplaced r.n (c :: after), motive (undecidedAt carried (c :: after)) (c :: after) d (child d)) →
      motive carried after c (.mk c after [] ((unplaced r.n (c :: after)).any fun d => (child d).valid)
        ((unplaced r.n (c :: after)).map child) []))
    (h : r.Builds p carried after c x) : motive carried after c x := by
  generalize hq : p = q at h
  induction h with
  | decided hu =>
    subst hq
    exact leaf _ _ _ _ (.decided hu) ((settled_map_iff (r := r) (p := p)).mpr (Or.inr hu))
  | stopped hpruned hu hc =>
    subst hq
    exact leaf _ _ _ _ (.stopped hpruned hu hc) (settled_map_iff.mpr (Or.inl hpruned))
  | opened hpruned hu hchild ih =>
    subst hq
    exact opened _ _ _ _ hpruned hu fun d hd => ih d hd rfl
  | passed hpruned hu hc hchild hv =>
    subst hq
    exact leaf _ _ _ _ (.passed hpruned hu hc hchild hv) (settled_map_iff.mpr (Or.inl hpruned))
  | dropped hpruned hu hc hchild hv =>
    subst hq
    exact leaf _ _ _ _ (.dropped hpruned hu hc hchild hv) (settled_map_iff.mpr (Or.inl hpruned))

/-- Where the assertions settle the suffix, the walk meets one node, and the policy has no part in what it is. -/
theorem Builds.openWalk_of_settled (h : r.Builds p carried after c x)
    (hstop : settled (carried.map (·.1)) (c :: after) = true) : x.openWalk.map Node.sighting =
      [(c :: after,refuted (carried.map (·.1)) (c :: after),!refuted (carried.map (·.1)) (c :: after))] := by
  have hrefuted : r.pruningAt p carried (c :: after) ≠ [] → refuted (carried.map (·.1)) (c :: after) = true := by
    intro hp
    by_contra hr
    exact hp (pruningAt_eq_nil_iff.mpr (Bool.eq_false_iff.mpr hr))
  have hmapped : r.pruningAt p carried (c :: after) ≠ [] → (r.pruningAt p carried (c :: after)).map (·.2) ≠ [] :=
    fun hp hnil => hp (List.map_eq_nil_iff.mp hnil)
  cases h with
  | decided hu =>
    rw [Node.openWalk_childless]
    simp [Node.sighting,Node.suffix,Node.pruned,Node.pruning,Node.valid,isEmpty_pruningAt]
  | stopped hp hu hc =>
    rw [Node.openWalk_childless]
    simp [Node.sighting,Node.suffix,Node.pruned,Node.pruning,Node.valid,hp,hrefuted hp]
  | opened hp hu hchild =>
    rw [settled_open hp hu] at hstop
    cases hstop
  | passed hp hu hc hchild hv =>
    rw [Node.openWalk_pruned (hmapped hp)]
    simp [Node.sighting,Node.suffix,Node.pruned,Node.pruning,Node.valid,hp,hrefuted hp]
  | dropped hp hu hc hchild hv =>
    rw [Node.openWalk_childless]
    simp [Node.sighting,Node.suffix,Node.pruned,Node.pruning,Node.valid,hp,hrefuted hp]

/-- Two searches of the same assertions meet the same nodes as long as they pass no pruned one. -/
theorem Builds.openWalk_eq (h : r.Builds p carried after c x) (h' : r'.Builds q carried after c y)
    (hn : r.n = r'.n) : x.openWalk.map Node.sighting = y.openWalk.map Node.sighting := by
  refine h.open_induction (motive := fun carried after c x => ∀ y, r'.Builds q carried after c y →
    x.openWalk.map Node.sighting = y.openWalk.map Node.sighting) ?leaf ?opened y h'
  case leaf =>
    intro carried after c x h hstop y h'
    rw [h.openWalk_of_settled hstop,h'.openWalk_of_settled hstop]
  case opened =>
    intro carried after c child hpruned hu ih y h'
    obtain ⟨child',hchild',rfl⟩ := h'.eq_of_not_settled (settled_open hpruned hu)
    rw [← hn] at hchild' ⊢
    have hwalk : ∀ d ∈ unplaced r.n (c :: after),
        (child d).openWalk.map Node.sighting = (child' d).openWalk.map Node.sighting :=
      fun d hd => ih d hd (child' d) (hchild' d hd)
    have hvalid : ((unplaced r.n (c :: after)).any fun d => (child d).valid) =
        (unplaced r.n (c :: after)).any fun d => (child' d).valid := by
      rw [Bool.eq_iff_iff,List.any_eq_true,List.any_eq_true]
      apply exists_congr
      intro d
      apply and_congr_right
      intro hd
      rw [Node.valid_eq_of_openWalk (hwalk d hd)]
    rw [Node.map_sighting_opened,Node.map_sighting_opened,hvalid,List.flatMap_map,List.flatMap_map]
    exact congrArg _ (List.flatMap_congr hwalk)

/-! ## Below a pruned node -/

def Built (r : SearchRule) (x : Node) : Prop := ∃ p carried after c, r.Builds p carried after c x

theorem Builds.built (h : r.Builds p carried after c x) : r.Built x := ⟨p,carried,after,c,h⟩

theorem Built.child (h : r.Built x) : ∀ y ∈ x.children, r.Built y := by
  obtain ⟨p,carried,after,c,h⟩ := h
  intro y hy
  cases h with
  | decided => cases hy
  | stopped => cases hy
  | opened _ _ hchild =>
    obtain ⟨d,hd,rfl⟩ := List.mem_map.mp hy
    exact (hchild d hd).built
  | passed _ _ _ hchild =>
    obtain ⟨d,hd,rfl⟩ := List.mem_map.mp hy
    exact (hchild d hd).built
  | dropped => cases hy

theorem Built.child_invalid (h : r.Built x) (hinvalid : x.valid = false) : ∀ y ∈ x.children, y.valid = false := by
  obtain ⟨p,carried,after,c,h⟩ := h
  intro y hy
  cases h with
  | decided => cases hy
  | stopped => cases hy
  | opened =>
    obtain ⟨d,hd,rfl⟩ := List.mem_map.mp hy
    exact Bool.eq_false_iff.mpr (List.any_eq_false.mp hinvalid d hd)
  | passed _ _ _ _ hvalid =>
    obtain ⟨d,hd,rfl⟩ := List.mem_map.mp hy
    exact hvalid d hd
  | dropped => cases hy

theorem Built.invalid_of_pruned (h : r.Built x) (hpruned : x.pruned = true) : x.valid = false := by
  obtain ⟨p,carried,after,c,h⟩ := h
  cases h with
  | decided => simpa [Node.pruned,Node.pruning,Node.valid] using hpruned
  | stopped => rfl
  | opened => cases hpruned
  | passed => rfl
  | dropped => rfl

theorem Built.walk_invalid (h : r.Built x) (hinvalid : x.valid = false) : ∀ z ∈ x.walk, z.valid = false := by
  have hwalk := Node.walk_induction (P := fun y => r.Built y ∧ y.valid = false)
    (fun y hy z hz => ⟨hy.1.child z hz,hy.1.child_invalid hy.2 z hz⟩) x ⟨h,hinvalid⟩
  exact fun z hz => (hwalk z hz).2

theorem Built.invalid_below_pruned (h : r.Built x) :
    ∀ y ∈ x.walk, y.pruned = true → ∀ z ∈ y.walk, z.valid = false := by
  intro y hy hpruned
  have hbuilt : r.Built y := Node.walk_induction (fun _ => Built.child) x h y hy
  exact hbuilt.walk_invalid (hbuilt.invalid_of_pruned hpruned)

end SearchRule

/-- Whatever the policies and whatever they record, two searches of the same assertions for a candidate return trees of
the same verdict and the same first valid leaf. The nodes all of whose proper ancestors are unpruned are
the same in both, and the same of them are pruned. Below a pruned node there is nothing valid. -/
theorem searchTree_independent_of_policy {n : Int} {c : Candidate} (hc : 0 ≤ c ∧ c < n) (carried : List Numbered)
    (p q : Policy) (recordAll recordAll' : Bool) :
    ∃ x y, (searchTree ⟨n,recordAll⟩ p carried c).Returns x ∧ (searchTree ⟨n,recordAll'⟩ q carried c).Returns y ∧
      x.valid = y.valid ∧ x.firstValidLeaf.map Node.suffix = y.firstValidLeaf.map Node.suffix ∧
      x.openWalk.map Node.sighting = y.openWalk.map Node.sighting ∧
      (∀ z ∈ x.walk, z.pruned = true → ∀ below ∈ z.walk, below.valid = false) ∧
      ∀ z ∈ y.walk, z.pruned = true → ∀ below ∈ z.walk, below.valid = false := by
  have hx := SearchRule.rootTree_builds ⟨n,recordAll⟩ p carried hc
  have hy := SearchRule.rootTree_builds ⟨n,recordAll'⟩ q carried hc
  have hwalk := hx.openWalk_eq hy rfl
  have hs : Placed n [c] := placed_singleton hc
  refine ⟨_,_,(searchTree_takes _ p carried c).returns,(searchTree_takes _ q carried c).returns,
    Node.valid_eq_of_openWalk hwalk,?leaf,hwalk,hx.built.invalid_below_pruned,hy.built.invalid_below_pruned⟩
  case leaf =>
    rw [Node.firstValidLeaf_map_suffix,Node.firstValidLeaf_map_suffix,hx.validLeaves_eq hs,hy.validLeaves_eq hs]

/-- One search goes on below the pruned node of the suffix `[1,2]`, meets a valid child there and drops it. -/
theorem searchTree_independent_of_discarded :
    ((0 : Int) ≤ 2 ∧ (2 : Int) < 4) ∧
    ∃ x y, (searchTree ⟨4,true⟩ .forever (numbered [.neb 0 1,.nen 0 1 (.ofList [0,1,2])]) 2).Returns x ∧
      (searchTree ⟨4,false⟩ .stopImmediately (numbered [.neb 0 1,.nen 0 1 (.ofList [0,1,2])]) 2).Returns y ∧
      x.size = 8 ∧ y.size = 6 ∧ x.valid = y.valid ∧ x.firstValidLeaf.map Node.suffix = some [0,2] ∧
      x.firstValidLeaf.map Node.suffix = y.firstValidLeaf.map Node.suffix ∧
      x.openWalk.map Node.sighting = [([2],false,true),([0,2],false,true),([1,2],true,false),([3,2],false,true),
        ([0,3,2],false,true),([1,3,2],true,false)] ∧
      x.openWalk.map Node.sighting = y.openWalk.map Node.sighting ∧
      ∀ z ∈ x.walk, z.pruned = true → ∀ below ∈ z.walk, below.valid = false := by
  have hc : (0 : Int) ≤ 2 ∧ (2 : Int) < 4 := by decide
  obtain ⟨x,y,hx,hy,hvalid,hleaf,hwalk,hbelow,_⟩ := searchTree_independent_of_policy hc
    (numbered [.neb 0 1,.nen 0 1 (.ofList [0,1,2])]) .forever .stopImmediately true false
  obtain rfl := hx.eq_of_runOn (b := .unlimited) (y := SearchRule.rootTree ⟨4,true⟩ .forever
    (numbered [.neb 0 1,.nen 0 1 (.ofList [0,1,2])]) 2) rfl
  obtain rfl := hy.eq_of_runOn (b := .unlimited) (y := SearchRule.rootTree ⟨4,false⟩ .stopImmediately
    (numbered [.neb 0 1,.nen 0 1 (.ofList [0,1,2])]) 2) rfl
  exact ⟨hc,_,_,hx,hy,by decide,by decide,hvalid,by decide,hleaf,by decide,hwalk,hbelow⟩

end RunoffAudit
