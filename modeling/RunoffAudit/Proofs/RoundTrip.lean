import RunoffAudit.Proofs.ReadProblem
import RunoffAudit.Proofs.SavedFile

/-! # Problems written and read again

The document of a problem leaves out what is not set and spells out all else, so no default comes in when it is read
again. Every problem that was read comes back as it was.
-/
namespace RunoffAudit
open Metered

theorem insertAscending_head {c : Candidate} {l : List Candidate} (h : (c :: l).Pairwise (· < ·)) :
    insertAscending c l = c :: l := by
  cases l with
  | nil => rfl
  | cons d rest => rw [insertAscending,if_pos (List.rel_of_pairwise_cons h List.mem_cons_self)]

/-- The members of a set, as they are listed, make the set. -/
theorem CandidateSet.ofList_members (s : CandidateSet) : ofList s.members = s := by
  obtain ⟨members,ascending⟩ := s
  induction members with
  | nil => rfl
  | cons c rest ih =>
    have hrest : ofList rest = ⟨rest,(List.pairwise_cons.mp ascending).2⟩ := ih _
    simp only [ofList,hrest,insertAscending_head ascending]

namespace Entries

def ofFields (fields : List (String × Value)) : Entries := fields.map fun f => (.text f.1,f.2)

variable {fields : List (String × Value)} {key : String}

theorem find_ofFields : Value.find key (ofFields fields) = fields.lookup key := by
  induction fields with
  | nil => rfl
  | cons f rest ih =>
    obtain ⟨k,v⟩ := f
    by_cases h : k = key
    · subst h
      simp [ofFields,Value.find,Value.isText]
    · have hne : (key == k) = false := beq_eq_false_iff_ne.mpr (Ne.symm h)
      simpa [ofFields,Value.find,Value.isText,List.lookup,h,hne] using ih

theorem get_ofFields : (ofFields fields).get key = (fields.lookup key).getD .null :=
  congrArg (Option.getD · Value.null) find_ofFields

end Entries

/-! ## The fields of an assertion -/

namespace Problem
variable {p : Problem} {a : Assertion} {i : Int}

theorem parseContinuing_ints (i : Int) (k : Nat) (members : List Candidate) :
    parseContinuing i k (members.map .int) = .ok members := by
  induction members generalizing k with
  | nil => rfl
  | cons c rest ih =>
    rw [List.map_cons,parseContinuing,ih]
    rfl

theorem parseAssertion_toValue (i : Int) (a : Assertion) : parseAssertion i a.toValue = .ok a := by
  cases a with
  | neb w l => rfl
  | nen w l s =>
    have h : parseContinuing i 0 (s.members.map .int) = .ok s.members := parseContinuing_ints i 0 s.members
    show (do return Assertion.nen w l (.ofList (← parseContinuing i 0 (s.members.map .int)))) = _
    rw [h]
    exact congrArg (fun t => Except.ok (Assertion.nen w l t)) s.ofList_members

theorem parseAssertions_toValue (i : Nat) (as : List Assertion) :
    parseAssertions i (as.map Assertion.toValue) = .ok as := by
  induction as generalizing i with
  | nil => rfl
  | cons a rest ih =>
    rw [List.map_cons,parseAssertions,parseAssertion_toValue,ih]
    rfl

/-! ## The fields of a problem -/

def entries (p : Problem) : Entries := .ofFields p.fields

theorem toValue_eq (p : Problem) : p.toValue = .mapping p.entries := rfl

/-- The fields that a document may lack. -/
theorem lookup_optional (p : Problem) :
    p.fields.lookup "candidates" = (if p.names = [] then none else some (.list (p.names.map .ofText))) ∧
    p.fields.lookup "continuation" = p.continuation.map (fun c => .text c.word) ∧
    p.fields.lookup "budget" = (if p.limits.fields = [] then none else some (.record p.limits.fields)) := by
  unfold fields
  cases p.continuation <;> by_cases hn : p.names = [] <;> by_cases hf : p.limits.fields = [] <;>
    simp [hn,hf,List.lookup]

theorem written_ofText (t : Text) : written (.ofText t) = .ok t :=
  written_eq_ok_iff.mpr ⟨Value.isWritable_ofText t,Value.plain_ofText t⟩

theorem mapM_written_ofText (names : List Text) : (names.map Value.ofText).mapM written = .ok names := by
  induction names with
  | nil => rfl
  | cons t rest ih =>
    rw [List.map_cons,List.mapM_cons,written_ofText,ih]
    rfl

theorem parseNames_entries (p : Problem) : parseNames p.entries = .ok p.names := by
  have hget : p.entries.get "candidates" = if p.names = [] then .null else .list (p.names.map .ofText) := by
    rw [entries,Entries.get_ofFields,p.lookup_optional.1]
    split <;> rfl
  unfold parseNames
  rw [hget]
  by_cases hnames : p.names = []
  · rw [if_pos hnames,hnames]
  · rw [if_neg hnames]
    exact mapM_written_ofText p.names

theorem parseCount_entries (h : p.names ≠ [] → (p.names.length : Int) = p.n) :
    parseCount p.entries p.names = .ok p.n := by
  have hgiven : givenCount p.entries p.names = .ok p.n := rfl
  have hagree : ¬ (p.names ≠ [] ∧ (p.names.length : Int) ≠ p.n) := fun hbad => hbad.2 (h hbad.1)
  unfold parseCount
  rw [hgiven]
  exact if_neg hagree

theorem parseAlgorithm_entries (h : p.algorithm ∈ TrimAlgorithm.known) :
    parseAlgorithm p.entries = .ok p.algorithm := by
  have hnamed : ∀ a ∈ TrimAlgorithm.known, TrimAlgorithm.named? a.word = some a := by decide
  unfold parseAlgorithm
  rw [show Value.find "trim_algorithm" p.entries = some (.text p.algorithm.word) from rfl]
  dsimp only
  rw [hnamed _ h]

theorem parseContinuation_entries (h : ∀ q, p.continuation = some q → q ∈ Policy.all) :
    parseContinuation p.entries = .ok p.continuation := by
  have hnamed : ∀ q ∈ Policy.all, Policy.named? q.word = some q := by decide
  unfold parseContinuation
  rw [entries,Entries.get_ofFields,p.lookup_optional.2.1]
  cases hc : p.continuation with
  | none => rfl
  | some q =>
    dsimp only [Option.map_some,Option.getD_some]
    rw [hnamed q (h q hc)]

theorem parseWorkLimit_getD {work : Option Int} (h : ∀ w, work = some w → 0 < w) :
    parseWorkLimit ((work.map .int).getD .null) = .ok work := by
  cases work with
  | none => rfl
  | some w => exact if_neg (Int.not_le.mpr (h w rfl))

theorem parseSecondsLimit_getD {seconds : Option Float} (h : ∀ s, seconds = some s → ¬ s ≤ 0) :
    parseSecondsLimit ((seconds.map .float).getD .null) = .ok seconds := by
  cases seconds with
  | none => rfl
  | some s => exact if_neg (h s rfl)

/-- If no limits are set, none are written, and none are read where nothing is written. -/
theorem parseLimits_fields {l : Limits} (hwork : ∀ w, l.work = some w → 0 < w)
    (hseconds : ∀ s, l.seconds = some s → ¬ s ≤ 0) :
    parseLimits (if l.fields = [] then .null else .record l.fields) = .ok l := by
  have hlookup : l.fields.lookup "work_limit" = l.work.map .int ∧
      l.fields.lookup "seconds_limit" = l.seconds.map .float := by
    unfold Limits.fields
    cases l.work <;> cases l.seconds <;> exact ⟨rfl,rfl⟩
  split
  case isTrue hnil =>
    rw [hnil] at hlookup
    obtain ⟨work,seconds⟩ := l
    obtain rfl := Option.map_eq_none_iff.mp hlookup.1.symm
    obtain rfl := Option.map_eq_none_iff.mp hlookup.2.symm
    rfl
  case isFalse =>
    show parseLimits (.mapping (Entries.ofFields l.fields)) = .ok l
    unfold parseLimits
    dsimp only
    rw [Entries.get_ofFields,Entries.get_ofFields,hlookup.1,hlookup.2,parseWorkLimit_getD hwork,
      parseSecondsLimit_getD hseconds]
    rfl

/-- Whatever it would be called without a name, a problem is read from its own document as it is. -/
theorem parse_entries (h : p.Readable) (defaultName : String) : parse p.entries defaultName = .ok p := by
  have hbudget : p.entries.get "budget" = if p.limits.fields = [] then .null else .record p.limits.fields := by
    rw [entries,Entries.get_ofFields,p.lookup_optional.2.2]
    split <;> rfl
  have hname : parseName p.entries defaultName = .ok p.name := by
    show (if (Value.ofText p.name).isEmpty then .ok defaultName else written (.ofText p.name)) = _
    rw [Value.isEmpty_ofText h.name_ne,written_ofText]
    rfl
  have hcontest : parseContest p.entries defaultName = .ok fun limits => { p with limits } := by
    unfold parseContest
    rw [bind_eq_of_ok (show parseSchema p.entries = .ok () from rfl),bind_eq_of_ok (parseNames_entries p),
      bind_eq_of_ok (parseCount_entries h.count),
      bind_eq_of_ok (show parseInt "winner" (p.entries.get "winner") = .ok p.winner from rfl),
      bind_eq_of_ok (show parseAllAssertions p.entries = .ok p.assertions from parseAssertions_toValue 0 p.assertions),
      bind_eq_of_ok (parseAlgorithm_entries h.algorithm),bind_eq_of_ok (parseContinuation_entries h.continuation),
      bind_eq_of_ok hname,bind_eq_of_ok (show parseBool "sort_assertions" true (p.entries.get "sort_assertions") =
        .ok p.sortAssertions from rfl),
      bind_eq_of_ok (show parseBool "check_winner" false (p.entries.get "check_winner") = .ok p.checkWinner from rfl)]
    rfl
  unfold parse
  rw [hcontest,hbudget,parseLimits_fields h.work h.seconds]
  rfl

/-! ## Files -/

section Files
variable {format : DocumentFormat} {l : Location} {d d' : Disk}

theorem eq_write_of_save (h : (save (Disk.access format) l p).run d = (.ok (),d')) :
    ∃ d₁ : Disk, d' = d₁.write l (p.toText format) := ⟨d,(save_eq_ok_iff.mp h).1⟩

theorem ofText_toText (hp : p.Readable) (hread : format.read (format.write p.toValue) = .ok p.toValue)
    (path defaultName : String) : ofText format path defaultName (p.toText format) = .ok p := by
  unfold ofText toText
  rw [hread,toValue_eq]
  dsimp only
  rw [parse_entries hp]
  rfl

end Files

/-- A problem that was read can be written and read again and is the same, whatever name it would have without its
own. If the text that is written stands for the problem's document, a file can be saved and loaded so. -/
theorem parse_roundTrip {e : Entries} {defaultName : String} (hname : defaultName ≠ "")
    (h : parse e defaultName = .ok p) :
    (∃ written, p.toValue = .mapping written ∧ ∀ otherName, parse written otherName = .ok p) ∧
    ∀ (format : DocumentFormat) (l : Location) (d d' : Disk),
      (save (Disk.access format) l p).run d = (.ok (),d') →
      format.read (format.write p.toValue) = .ok p.toValue → (load (Disk.access format) l).run d' = (.ok p,d') := by
  have hp := readable_of_parse hname h
  refine ⟨⟨p.entries,rfl,parse_entries hp⟩,?_⟩
  intro format l d d' hsave hread
  obtain ⟨d₁,rfl⟩ := eq_write_of_save hsave
  rw [load_of_file (kind_write d₁ l _) (text?_write d₁ l _),ofText_toText hp hread]
  rfl

def wrappedEntries : Entries :=
  [(.text "winner",.int 0),(.text "num_candidates",.int 2),
    (.text "assertions",.list [.record [("assertion",(Assertion.neb 0 1).toValue),("difficulty",.float 3.4)]])]

def wrappedProblem : Problem := ⟨"t",2,0,[.neb 0 1],[],.minimizeTree,none,true,false,⟨none,none⟩⟩

def wrappedTokens : List Yaml.Token :=
  [.blockMapping,.key,.plain "schema_version",.value,.quoted [49],.key,.plain "name",.value,.plain "t",
    .key,.plain "num_candidates",.value,.plain "2",.key,.plain "winner",.value,.plain "0",
    .key,.plain "assertions",.value,.blockEntry,.blockMapping,.key,.plain "type",.value,.plain "NEB",
    .key,.plain "winner",.value,.plain "0",.key,.plain "loser",.value,.plain "1",.blockEnd,
    .key,.plain "trim_algorithm",.value,.plain "minimize_tree",.key,.plain "sort_assertions",.value,.plain "true",
    .key,.plain "check_winner",.value,.plain "false",.blockEnd]

theorem wrappedProblem_tokens :
    (Yaml.tokens (Yaml.normalizeBreaks (Yaml.write wrappedProblem.toValue).toList)).toOption =
      some wrappedTokens := by decide +kernel

theorem wrappedProblem_yaml : Yaml.read (Yaml.write wrappedProblem.toValue) = .ok wrappedProblem.toValue := by
  unfold Yaml.read
  rw [eq_ok_of_toOption wrappedProblem_tokens]
  rfl

theorem parse_roundTrip_wrapped :
    "t" ≠ "" ∧ parse wrappedEntries "t" = .ok wrappedProblem ∧
    (∃ written, wrappedProblem.toValue = .mapping written ∧
      ∀ otherName, parse written otherName = .ok wrappedProblem) ∧
    ∃ d', (save (Disk.access .yaml) ["","t.yaml"] wrappedProblem).run ⟨[],[]⟩ = (.ok (),d') ∧
      Yaml.read (Yaml.write wrappedProblem.toValue) = .ok wrappedProblem.toValue ∧
      (load (Disk.access .yaml) ["","t.yaml"]).run d' = (.ok wrappedProblem,d') := by
  have hname : "t" ≠ "" := by decide
  have hparse : parse wrappedEntries "t" = .ok wrappedProblem := rfl
  obtain ⟨hwritten,hfile⟩ := parse_roundTrip hname hparse
  have hwritable : wrappedProblem.toValue.isWritable = true := by decide +kernel
  have hsave : (save (Disk.access .yaml) ["","t.yaml"] wrappedProblem).run ⟨[],[]⟩ = (.ok (),_) :=
    save_eq_ok_iff.mpr ⟨rfl,hwritable,by decide,⟨by decide,by decide,by decide,by decide,trivial⟩,by decide,by decide⟩
  exact ⟨hname,hparse,hwritten,_,hsave,wrappedProblem_yaml,hfile _ _ _ _ hsave wrappedProblem_yaml⟩

end Problem
end RunoffAudit
