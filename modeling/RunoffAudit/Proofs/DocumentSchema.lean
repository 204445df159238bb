import RunoffAudit.Proofs.Rejection

/-! # The documents that hold a problem

Reading accepts a document exactly if every field of it has its form: each check of a field succeeds exactly on the
form, and no check looks at what another has found, but for the number of the candidates, which is compared with that
of their names. A value that is to be a name must also have a text, which an integer of too many digits has not.
-/
namespace RunoffAudit

/-! ## Computations that succeed -/

def Succeeds {ε α : Type} (x : Except ε α) : Prop := ∃ a, x = .ok a

section Succeeds
variable {ε ε' α β : Type} {x : Except ε α} {f : α → Except ε β} {a : α} {e : ε} {P Q : Prop}

@[simp] theorem succeeds_ok (a : α) : Succeeds (.ok a : Except ε α) := ⟨a,rfl⟩

@[simp] theorem not_succeeds_error (e : ε) : ¬ Succeeds (.error e : Except ε α) := nofun

theorem succeeds_bind_iff : Succeeds (x >>= f) ↔ ∃ a, x = .ok a ∧ Succeeds (f a) := by
  constructor
  · rintro ⟨b,h⟩
    obtain ⟨a,ha,hb⟩ := exists_of_bind_eq_ok h
    exact ⟨a,ha,b,hb⟩
  · rintro ⟨a,ha,b,hb⟩
    exact ⟨b,(bind_eq_of_ok ha).trans hb⟩

theorem succeeds_bind_iff_and (hx : Succeeds x ↔ P) (hf : ∀ a, x = .ok a → (Succeeds (f a) ↔ Q)) :
    Succeeds (x >>= f) ↔ P ∧ Q := by
  rw [succeeds_bind_iff,← hx]
  constructor
  · rintro ⟨a,ha,hfa⟩
    exact ⟨⟨a,ha⟩,(hf a ha).mp hfa⟩
  · rintro ⟨⟨a,ha⟩,hQ⟩
    exact ⟨a,ha,(hf a ha).mpr hQ⟩

theorem succeeds_map_iff {g : α → β} : (Succeeds do return g (← x)) ↔ Succeeds x :=
  (succeeds_bind_iff_and Iff.rfl fun a _ => iff_true_intro (succeeds_ok (g a))).trans (and_iff_left trivial)

theorem succeeds_mapError_iff {g : ε → ε'} : Succeeds (x.mapError g) ↔ Succeeds x := by
  cases x with
  | error e => exact iff_of_false (not_succeeds_error (g e)) (not_succeeds_error e)
  | ok a => exact iff_of_true (succeeds_ok a) (succeeds_ok a)

theorem succeeds_guard_iff [Decidable P] :
    (Succeeds (ε := ε) do
      if P then throw e
      return a) ↔ ¬ P := by
  split
  case isTrue h => exact iff_of_false (not_succeeds_error e) (not_not.mpr h)
  case isFalse h => exact iff_of_true (succeeds_ok a) h

theorem succeeds_mapM_iff {as : List α} : Succeeds (as.mapM f) ↔ ∀ a ∈ as, Succeeds (f a) := by
  induction as with
  | nil => exact iff_of_true (succeeds_ok _) nofun
  | cons a rest ih =>
    rw [List.mapM_cons,List.forall_mem_cons]
    exact succeeds_bind_iff_and Iff.rfl fun _ _ => succeeds_map_iff.trans ih

theorem length_of_mapM {as : List α} {bs : List β} (h : as.mapM f = .ok bs) : bs.length = as.length := by
  induction as generalizing bs with
  | nil =>
    cases h
    rfl
  | cons a rest ih =>
    rw [List.mapM_cons] at h
    obtain ⟨b,_,h⟩ := exists_of_bind_eq_ok h
    obtain ⟨others,hothers,h⟩ := exists_of_bind_eq_ok h
    cases h
    rw [List.length_cons,List.length_cons,ih hothers]

end Succeeds

/-! ## The forms of the fields -/

theorem Value.isText_iff {v : Value} {s : String} : v.isText s = true ↔ v = .text s := by
  cases v <;> simp [isText]

/-- The fields of an assertion are those of the mapping in its entry `assertion`, or its own. -/
def Entries.Holds (outer e : Entries) : Prop :=
  outer.get "assertion" = .mapping e ∨ e = outer ∧ ∀ inner, outer.get "assertion" ≠ .mapping inner

def Entries.listed (e : Entries) : List Value :=
  match e.get "candidates" with
  | .list items => items
  | _ => []

namespace Problem

/-- The type of an assertion, which for NEN comes with the continuing candidates. -/
def HasType (e : Entries) : Prop :=
  e.get "type" = .text "NEB" ∨ e.get "type" = .text "NEN" ∧
    ∃ members, e.get "continuing" = .list members ∧ ∀ m ∈ members, ∃ c, m = .int c

def IsAssertion (v : Value) : Prop :=
  ∃ outer e, v = .mapping outer ∧ Entries.Holds outer e ∧
    (∃ w, e.get "winner" = .int w) ∧ (∃ l, e.get "loser" = .int l) ∧ HasType e

def IsLimits (v : Value) : Prop :=
  v = .null ∨ ∃ limits, v = .mapping limits ∧
    (Entries.get limits "work_limit" = .null ∨ ∃ w, Entries.get limits "work_limit" = .int w ∧ 0 < w) ∧
    (Entries.get limits "seconds_limit" = .null ∨ (∃ s, Entries.get limits "seconds_limit" = .int s ∧ 0 < s) ∨
      ∃ s, Entries.get limits "seconds_limit" = .float s ∧ ¬ s ≤ 0)

def IsFlag (v : Value) : Prop := v = .null ∨ ∃ b, v = .bool b

/-- The form of the document of a problem. A field that is not there counts as null only where it is looked up by
`Entries.get`. -/
structure Schema (e : Entries) : Prop where
  version : ∀ v, Value.find "schema_version" e = some v → v.HasText schemaVersion
  candidates : e.get "candidates" = .null ∨ ∃ items, e.get "candidates" = .list items
  count : (∃ n, e.get "num_candidates" = .int n) ∨ e.get "num_candidates" = .null ∧ e.listed ≠ []
  counted : e.listed ≠ [] → ∀ n, e.get "num_candidates" = .int n → (e.listed.length : Int) = n
  winner : ∃ w, e.get "winner" = .int w
  assertions : ∀ v, Value.find "assertions" e = some v → ∃ items, v = .list items ∧ ∀ a ∈ items, IsAssertion a
  algorithm : ∀ v, Value.find "trim_algorithm" e = some v →
    ∃ word ∈ ["none","minimize_tree","minimize_assertions"], v = .text word
  continuation : e.get "continuation" = .null ∨
    ∃ word ∈ ["stop_immediately","continue_once","forever","stop_on_neb"], e.get "continuation" = .text word
  sortAssertions : IsFlag (e.get "sort_assertions")
  checkWinner : IsFlag (e.get "check_winner")
  limits : IsLimits (e.get "budget")

/-- What is to be a name has a text. A value that says nothing is not taken for the name of the problem. -/
structure Named (e : Entries) : Prop where
  candidates : ∀ v ∈ e.listed, ∃ s, v.HasText s
  own : (e.get "name").isEmpty = false → ∃ s, (e.get "name").HasText s

def SecondsFit (e : Entries) : Prop :=
  ∀ limits s, e.get "budget" = .mapping limits → Entries.get limits "seconds_limit" = .int s →
    s < Decimal.overflowBound

/-! ## The checks of the fields -/

section Fields
variable {e : Entries} {v : Value} {items : List Value} {names : List Text} {field defaultName : String} {i : Int}

theorem succeeds_written_iff : Succeeds (written v) ↔ ∃ s, v.HasText s :=
  exists_congr fun _ => written_eq_ok_iff

theorem succeeds_parseInt_iff : Succeeds (parseInt field v) ↔ ∃ n, v = .int n := by
  cases v <;> simp [parseInt]

theorem succeeds_parseBool_iff {default : Bool} : Succeeds (parseBool field default v) ↔ IsFlag v := by
  cases v <;> simp [parseBool,IsFlag]

theorem succeeds_parseContinuing_iff {k : Nat} :
    Succeeds (parseContinuing i k items) ↔ ∀ m ∈ items, ∃ c, m = .int c := by
  induction items generalizing k with
  | nil => exact iff_of_true (succeeds_ok _) nofun
  | cons v rest ih =>
    rw [parseContinuing,List.forall_mem_cons]
    exact succeeds_bind_iff_and succeeds_parseInt_iff fun _ _ => succeeds_map_iff.trans ih

theorem holds_iff {outer : Entries} : Entries.Holds outer e ↔ e = unwrap outer := by
  unfold Entries.Holds unwrap
  split
  case h_1 inner hinner => simp [hinner,eq_comm]
  case h_2 hother =>
    have hnone : ∀ inner, Entries.get outer "assertion" ≠ .mapping inner := hother
    simp [hnone]

theorem succeeds_parseAssertion_iff : Succeeds (parseAssertion i v) ↔ IsAssertion v := by
  cases v with
  | mapping outer =>
    have hfields : Succeeds (parseAssertion i (.mapping outer)) ↔
        (∃ w, (unwrap outer).get "winner" = .int w) ∧ (∃ l, (unwrap outer).get "loser" = .int l) ∧
          HasType (unwrap outer) := by
      refine succeeds_bind_iff_and succeeds_parseInt_iff fun winner _ => ?_
      refine succeeds_bind_iff_and succeeds_parseInt_iff fun loser _ => ?_
      dsimp only
      unfold HasType
      -- only an NEN is asked for its continuing candidates
      rw [← Value.isText_iff,← Value.isText_iff]
      split
      case isTrue hneb => exact iff_of_true (succeeds_ok _) (Or.inl hneb)
      case isFalse hneb =>
        split
        case isTrue hnen =>
          split
          case h_1 members hmembers =>
            refine (succeeds_map_iff.trans succeeds_parseContinuing_iff).trans ?_
            simp [hneb,hnen,hmembers]
          case h_2 hother =>
            have hnone : ∀ members, (unwrap outer).get "continuing" ≠ .list members := hother
            refine iff_of_false (not_succeeds_error _) ?_
            simp [hneb,hnone]
        case isFalse hnen =>
          refine iff_of_false (not_succeeds_error _) ?_
          simp [hneb,hnen]
    unfold IsAssertion
    simp only [hfields,holds_iff,Value.mapping.injEq]
    simp
  | _ => simp [IsAssertion,parseAssertion]

theorem succeeds_parseAssertions_iff {k : Nat} :
    Succeeds (parseAssertions k items) ↔ ∀ a ∈ items, IsAssertion a := by
  induction items generalizing k with
  | nil => exact iff_of_true (succeeds_ok _) nofun
  | cons v rest ih =>
    rw [parseAssertions,List.forall_mem_cons]
    exact succeeds_bind_iff_and succeeds_parseAssertion_iff fun _ _ => succeeds_map_iff.trans ih

theorem succeeds_parseAllAssertions_iff : Succeeds (parseAllAssertions e) ↔
    ∀ v, Value.find "assertions" e = some v → ∃ items, v = .list items ∧ ∀ a ∈ items, IsAssertion a := by
  unfold parseAllAssertions
  cases Value.find "assertions" e with
  | none => exact iff_of_true (succeeds_ok _) nofun
  | some v => cases v <;> simp [succeeds_parseAssertions_iff]

theorem succeeds_parseSchema_iff :
    Succeeds (parseSchema e) ↔ ∀ v, Value.find "schema_version" e = some v → v.HasText schemaVersion := by
  unfold parseSchema
  rw [succeeds_bind_iff]
  cases Value.find "schema_version" e with
  | none => exact iff_of_true ⟨_,rfl,_,rfl⟩ nofun
  | some v => simp [written_eq_ok_iff,apply_ite Succeeds]

theorem succeeds_parseNames_iff : Succeeds (parseNames e) ↔
    (e.get "candidates" = .null ∨ ∃ items, e.get "candidates" = .list items) ∧ ∀ v ∈ e.listed, ∃ s, v.HasText s := by
  unfold parseNames Entries.listed
  cases e.get "candidates" <;> simp [succeeds_mapM_iff,succeeds_written_iff]

theorem length_of_parseNames (h : parseNames e = .ok names) : names.length = e.listed.length := by
  unfold parseNames at h
  unfold Entries.listed
  split at h
  case h_1 hnull =>
    cases h
    rw [hnull]
    rfl
  case h_2 items hitems =>
    rw [hitems]
    exact length_of_mapM h
  case h_3 => cases h

theorem succeeds_parseCount_iff (hlength : names.length = e.listed.length) : Succeeds (parseCount e names) ↔
    ((∃ n, e.get "num_candidates" = .int n) ∨ e.get "num_candidates" = .null ∧ e.listed ≠ []) ∧
      (e.listed ≠ [] → ∀ n, e.get "num_candidates" = .int n → (e.listed.length : Int) = n) := by
  -- of the names only their number matters
  have hnil : names ≠ [] ↔ e.listed ≠ [] := by
    rw [← List.length_pos_iff,hlength,List.length_pos_iff]
  have hcompared : ∀ n : Int, Succeeds (do
      if names ≠ [] ∧ (names.length : Int) ≠ n then throw (.showing (.int n) (.countMismatch names.length n))
      return n : Except FormatError Int) ↔ ¬ (names ≠ [] ∧ (names.length : Int) ≠ n) := fun _ => succeeds_guard_iff
  unfold parseCount
  rw [succeeds_bind_iff]
  simp only [hcompared]
  simp only [givenCount_eq_ok_iff,hnil,hlength]
  cases e.get "num_candidates" <;> simp

theorem find?_word_isSome {α : Type} {word : α → String} {known : List α} {w : String} :
    (known.find? (word · = w)).isSome ↔ w ∈ known.map word := by
  simp [List.find?_isSome]

theorem succeeds_parseAlgorithm_iff : Succeeds (parseAlgorithm e) ↔ ∀ v, Value.find "trim_algorithm" e = some v →
    ∃ word ∈ ["none","minimize_tree","minimize_assertions"], v = .text word := by
  unfold parseAlgorithm
  cases Value.find "trim_algorithm" e with
  | none => exact iff_of_true (succeeds_ok _) nofun
  | some v =>
    cases v with
    | text w =>
      have hw : (TrimAlgorithm.named? w).isSome ↔ w ∈ ["none","minimize_tree","minimize_assertions"] :=
        find?_word_isSome
      cases hnamed : TrimAlgorithm.named? w <;> simpa [hnamed] using hw
    | _ => simp

theorem succeeds_parseContinuation_iff : Succeeds (parseContinuation e) ↔ e.get "continuation" = .null ∨
    ∃ word ∈ ["stop_immediately","continue_once","forever","stop_on_neb"], e.get "continuation" = .text word := by
  unfold parseContinuation
  cases e.get "continuation" with
  | text w =>
    have hw : (Policy.named? w).isSome ↔ w ∈ ["stop_immediately","continue_once","forever","stop_on_neb"] :=
      find?_word_isSome
    cases hnamed : Policy.named? w <;> simpa [hnamed] using hw
  | _ => simp

theorem succeeds_parseName_iff : Succeeds (parseName e defaultName) ↔
    ((e.get "name").isEmpty = false → ∃ s, (e.get "name").HasText s) := by
  unfold parseName
  dsimp only
  cases (e.get "name").isEmpty <;> simp [succeeds_written_iff]

theorem succeeds_parseWorkLimit_iff : Succeeds (parseWorkLimit v) ↔ v = .null ∨ ∃ w, v = .int w ∧ 0 < w := by
  cases v with
  | int w =>
    have hguard : Succeeds (parseWorkLimit (.int w)) ↔ ¬ w ≤ 0 := succeeds_guard_iff (P := w ≤ 0)
    simp [hguard]
  | _ => simp [parseWorkLimit,parseInt,succeeds_bind_iff]

theorem succeeds_parseSecondsLimit_iff (hfits : ∀ s, v = .int s → s < Decimal.overflowBound) :
    Succeeds (parseSecondsLimit v) ↔
      v = .null ∨ (∃ s, v = .int s ∧ 0 < s) ∨ ∃ s, v = .float s ∧ ¬ s ≤ 0 := by
  cases v with
  | int n =>
    unfold parseSecondsLimit
    by_cases hn : 0 < n
    · have hsome : Decimal.ofInt? n ≠ none := mt (ofInt?_eq_none_iff hn).mp (Int.not_le.mpr (hfits n rfl))
      obtain ⟨s,hs⟩ := Option.ne_none_iff_exists'.mp hsome
      simp [hs,hn,Int.not_le.mpr hn]
    · simp [hn,Int.not_lt.mp hn]
  | float s => simp [parseSecondsLimit,apply_ite Succeeds]
  | _ => simp [parseSecondsLimit]

theorem succeeds_parseLimits_iff
    (hfits : ∀ limits s, v = .mapping limits → Entries.get limits "seconds_limit" = .int s →
      s < Decimal.overflowBound) : Succeeds (parseLimits v) ↔ IsLimits v := by
  cases v with
  | mapping limits =>
    have hentries : Succeeds (parseLimits (.mapping limits)) ↔
        (Entries.get limits "work_limit" = .null ∨ ∃ w, Entries.get limits "work_limit" = .int w ∧ 0 < w) ∧
        (Entries.get limits "seconds_limit" = .null ∨ (∃ s, Entries.get limits "seconds_limit" = .int s ∧ 0 < s) ∨
          ∃ s, Entries.get limits "seconds_limit" = .float s ∧ ¬ s ≤ 0) :=
      succeeds_bind_iff_and (succeeds_mapError_iff.trans succeeds_parseWorkLimit_iff) fun _ _ =>
        succeeds_map_iff.trans (succeeds_parseSecondsLimit_iff fun s hs => hfits limits s rfl hs)
    simp [hentries,IsLimits]
  | _ => simp [parseLimits,IsLimits]

theorem succeeds_parseContest_iff :
    Succeeds (parseContest e defaultName) ∧ IsLimits (e.get "budget") ↔ Schema e ∧ Named e := by
  have hfields : Succeeds (parseContest e defaultName) ↔
      (∀ v, Value.find "schema_version" e = some v → v.HasText schemaVersion) ∧
      ((e.get "candidates" = .null ∨ ∃ items, e.get "candidates" = .list items) ∧
        ∀ v ∈ e.listed, ∃ s, v.HasText s) ∧
      (((∃ n, e.get "num_candidates" = .int n) ∨ e.get "num_candidates" = .null ∧ e.listed ≠ []) ∧
        (e.listed ≠ [] → ∀ n, e.get "num_candidates" = .int n → (e.listed.length : Int) = n)) ∧
      (∃ w, e.get "winner" = .int w) ∧
      (∀ v, Value.find "assertions" e = some v → ∃ items, v = .list items ∧ ∀ a ∈ items, IsAssertion a) ∧
      (∀ v, Value.find "trim_algorithm" e = some v →
        ∃ word ∈ ["none","minimize_tree","minimize_assertions"], v = .text word) ∧
      (e.get "continuation" = .null ∨
        ∃ word ∈ ["stop_immediately","continue_once","forever","stop_on_neb"], e.get "continuation" = .text word) ∧
      ((e.get "name").isEmpty = false → ∃ s, (e.get "name").HasText s) ∧
      IsFlag (e.get "sort_assertions") ∧ IsFlag (e.get "check_winner") :=
    succeeds_bind_iff_and succeeds_parseSchema_iff fun _ _ =>
    succeeds_bind_iff_and succeeds_parseNames_iff fun _ hnames =>
    succeeds_bind_iff_and (succeeds_parseCount_iff (length_of_parseNames hnames)) fun _ _ =>
    succeeds_bind_iff_and succeeds_parseInt_iff fun _ _ =>
    succeeds_bind_iff_and succeeds_parseAllAssertions_iff fun _ _ =>
    succeeds_bind_iff_and succeeds_parseAlgorithm_iff fun _ _ =>
    succeeds_bind_iff_and succeeds_parseContinuation_iff fun _ _ =>
    succeeds_bind_iff_and succeeds_parseName_iff fun _ _ =>
    succeeds_bind_iff_and succeeds_parseBool_iff fun _ _ =>
    succeeds_map_iff.trans succeeds_parseBool_iff
  rw [hfields]
  constructor
  · rintro ⟨⟨version,⟨candidates,named⟩,⟨count,counted⟩,winner,assertions,algorithm,continuation,own,sort,check⟩,limits⟩
    exact ⟨⟨version,candidates,count,counted,winner,assertions,algorithm,continuation,sort,check,limits⟩,⟨named,own⟩⟩
  · rintro ⟨h,hnamed⟩
    exact ⟨⟨h.version,⟨h.candidates,hnamed.candidates⟩,⟨h.count,h.counted⟩,h.winner,h.assertions,h.algorithm,
      h.continuation,hnamed.own,h.sortAssertions,h.checkWinner⟩,h.limits⟩

/-- Whatever else the document says, the limits are put into it last. -/
theorem limits_of_parseContest {contest : Limits → Problem} (h : parseContest e defaultName = .ok contest)
    (limits : Limits) : (contest limits).limits = limits := by
  unfold parseContest at h
  repeat obtain ⟨_,_,h⟩ := exists_of_bind_eq_ok h
  cases h
  rfl

theorem parseLimits_of_parse {p : Problem} (h : parse e defaultName = .ok p) :
    parseLimits (e.get "budget") = .ok p.limits := by
  obtain ⟨contest,hcontest,h⟩ := exists_of_bind_eq_ok h
  obtain ⟨limits,hlimits,h⟩ := exists_of_bind_eq_ok h
  have hcontest := eq_ok_of_mapError hcontest
  cases h
  rw [limits_of_parseContest hcontest]
  exact hlimits

theorem toBudget_of_parseLimits {l : Limits} (h : parseLimits v = .ok l) (now : Float) :
    ∃ b, l.toBudget now = .ok b := by
  obtain ⟨hwork,hseconds⟩ := parseLimits_ok h
  have hwork : l.work.any (· ≤ 0) = false := by
    cases hw : l.work with
    | none => rfl
    | some w => simpa using hwork w hw
  have hseconds : l.seconds.any (· ≤ 0) = false := by
    cases hs : l.seconds with
    | none => rfl
    | some s => simpa using hseconds s hs
  unfold Limits.toBudget Budget.make
  simp [hwork,hseconds]

end Fields

/-! ## The documents that are accepted -/

theorem parse_accepts_iff {e : Entries} (hfits : SecondsFit e) (defaultName : String) :
    ((∃ p, parse e defaultName = .ok p) ↔ Schema e ∧ Named e) ∧
      ∀ p, parse e defaultName = .ok p → ∀ now, ∃ b, p.limits.toBudget now = .ok b := by
  constructor
  · have hboth : Succeeds (parse e defaultName) ↔ Succeeds (parseContest e defaultName) ∧ IsLimits (e.get "budget") :=
      succeeds_bind_iff_and succeeds_mapError_iff fun _ _ =>
      succeeds_map_iff.trans (succeeds_parseLimits_iff hfits)
    exact hboth.trans succeeds_parseContest_iff
  · intro p h now
    exact toBudget_of_parseLimits (parseLimits_of_parse h) now

/-- A document that names its candidates without counting them, has its only assertion wrapped, and limits the
seconds by an integer. -/
def wrappedAssertion : Entries :=
  [(.text "candidates",.list [.text "Ann",.text "Bo"]),(.text "winner",.int 1),
    (.text "assertions",.list [.record [("assertion",.record [("type",.text "NEN"),("winner",.int 1),
      ("loser",.int 0),("continuing",.ints [0,1])])]]),
    (.text "budget",.record [("seconds_limit",.int 5)])]

theorem parse_accepts_iff_wrapped : SecondsFit wrappedAssertion ∧ Schema wrappedAssertion ∧ Named wrappedAssertion ∧
    ∃ p, parse wrappedAssertion unnamed = .ok p ∧ ∀ now, ∃ b, p.limits.toBudget now = .ok b := by
  have hfits : SecondsFit wrappedAssertion := by
    rintro _ _ ⟨⟩ ⟨⟩
    decide +kernel
  obtain ⟨haccepts,hbudget⟩ := parse_accepts_iff hfits unnamed
  have hparse : ∃ p, parse wrappedAssertion unnamed = .ok p := ⟨_,rfl⟩
  obtain ⟨hschema,hnamed⟩ := haccepts.mp hparse
  obtain ⟨p,hp⟩ := hparse
  exact ⟨hfits,hschema,hnamed,p,hp,hbudget p hp⟩

/-- A document whose name is the least integer that has no text. -/
def longNamed : Entries :=
  [(.text "num_candidates",.int 2),(.text "winner",.int 0),(.text "name",.int Text.digitBound)]

theorem longNamed_not_accepted :
    SecondsFit longNamed ∧ Schema longNamed ∧ ¬ ∃ p, parse longNamed unnamed = .ok p := by
  have hschema : Schema longNamed := by
    refine ⟨?_,Or.inl rfl,Or.inl ⟨2,rfl⟩,fun h => absurd rfl h,⟨0,rfl⟩,?_,?_,Or.inl rfl,Or.inl rfl,Or.inl rfl,Or.inl rfl⟩
    all_goals rintro _ ⟨⟩
  have hrefused : parse longNamed unnamed = .error (.format .tooManyDigits) :=
    CommandLine.parse_longName (Int.natAbs_natCast Text.digitBound).ge unnamed
  refine ⟨?_,hschema,?_⟩
  · rintro _ _ ⟨⟩
  · rw [hrefused]
    rintro ⟨_,⟨⟩⟩

end Problem
end RunoffAudit
