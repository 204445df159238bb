import RunoffAudit.Proofs.ReadProblem

/-! # Documents whose integers can be written

Names and messages are made of the values of a document, and an integer with too many digits cannot be part
of them. If no integer of the document is too long, reading never fails for this reason.
-/
namespace RunoffAudit

/-! ## The values of a document -/

namespace Entries
variable {e : Entries} {key : String} {v : Value}

def Writable (e : Entries) : Prop := Value.entriesWritable e = true

theorem Writable.of_find (h : e.Writable) (hv : Value.find key e = some v) : v.isWritable = true := by
  induction e with
  | nil => cases hv
  | cons f rest ih =>
    obtain ⟨k,w⟩ := f
    obtain ⟨hw,hrest⟩ := Bool.and_eq_true_iff.mp h
    rw [Value.find] at hv
    split at hv
    · cases hv
      exact (Bool.and_eq_true_iff.mp hw).2
    · exact ih hrest hv

theorem Writable.getD_find (h : e.Writable) (hv : v.isWritable = true) :
    ((Value.find key e).getD v).isWritable = true := by
  cases hfound : Value.find key e with
  | none => exact hv
  | some w => exact h.of_find hfound

theorem Writable.get (h : e.Writable) (key : String) : (e.get key).isWritable = true := h.getD_find rfl

end Entries

/-! ## Reading without long integers -/

def Writes {α : Type} (x : Except FormatError α) : Prop := x ≠ .error .tooManyDigits

section Writes
variable {α β : Type} {x : Except FormatError α} {f : α → Except FormatError β} {v : Value} {cause : FormatError}

theorem writes_ok (a : α) : Writes (.ok a : Except FormatError α) := nofun

theorem FormatError.eq_tooManyDigits (h : cause.isReported = false) : cause = tooManyDigits := by
  cases cause with
  | tooManyDigits => rfl
  | _ => cases h

theorem writes_error (h : cause.isReported = true) : Writes (.error cause : Except FormatError α) := by
  rintro ⟨⟩
  cases h

theorem Writes.bind (hx : Writes x) (hf : ∀ a, x = .ok a → Writes (f a)) : Writes (x >>= f) := by
  intro h
  rcases bind_eq_error_iff.mp h with h | ⟨a,ha,h⟩
  · exact hx h
  · exact hf a ha h

theorem writes_showing (hv : v.isWritable = true) (h : cause.isReported = true) :
    Writes (.error (.showing v cause) : Except FormatError α) := by
  rw [FormatError.showing,if_pos hv]
  exact writes_error h

end Writes

namespace Problem
variable {e : Entries} {v : Value} {items : List Value}

theorem writes_written (hv : v.isWritable = true) : Writes (written v) := by
  rw [written,if_pos hv]
  exact writes_ok _

theorem writes_mapM_written (h : ∀ v ∈ items, v.isWritable = true) : Writes (items.mapM written) := by
  induction items with
  | nil => exact writes_ok _
  | cons v rest ih =>
    obtain ⟨hv,hrest⟩ := List.forall_mem_cons.mp h
    rw [List.mapM_cons]
    exact (writes_written hv).bind fun _ _ => (ih hrest).bind fun _ _ => writes_ok _

theorem writes_parseInt (field : String) (hv : v.isWritable = true) : Writes (parseInt field v) := by
  unfold parseInt
  split
  · exact writes_ok _
  · exact writes_showing hv rfl

theorem writes_parseBool (field : String) (default : Bool) (v : Value) : Writes (parseBool field default v) := by
  unfold parseBool
  split
  · exact writes_ok _
  · exact writes_ok _
  · exact writes_error rfl

theorem writes_parseContinuing (i : Int) (k : Nat) (h : ∀ v ∈ items, v.isWritable = true) :
    Writes (parseContinuing i k items) := by
  induction items generalizing k with
  | nil => exact writes_ok _
  | cons v rest ih =>
    obtain ⟨hv,hrest⟩ := List.forall_mem_cons.mp h
    rw [parseContinuing]
    exact (writes_parseInt _ hv).bind fun _ _ => (ih (k + 1) hrest).bind fun _ _ => writes_ok _

theorem writable_unwrap (h : e.Writable) : (unwrap e).Writable := by
  unfold unwrap
  split
  case h_1 inner hinner =>
    have hv := h.get "assertion"
    rw [hinner] at hv
    exact hv
  case h_2 => exact h

theorem writes_parseAssertion (i : Int) (hv : v.isWritable = true) : Writes (parseAssertion i v) := by
  unfold parseAssertion
  split
  case h_1 outer =>
    have he : (unwrap outer).Writable := writable_unwrap hv
    refine (writes_parseInt _ (he.get "winner")).bind fun winner _ => ?_
    refine (writes_parseInt _ (he.get "loser")).bind fun loser _ => ?_
    dsimp only
    split
    · exact writes_ok _
    · split
      · split
        case h_1 members hmembers =>
          have hlist := he.get "continuing"
          rw [hmembers] at hlist
          exact (writes_parseContinuing i 0 (Value.itemsWritable_iff.mp hlist)).bind fun _ _ => writes_ok _
        case h_2 => exact writes_error rfl
      · exact writes_showing (he.get "type") rfl
  case h_2 => exact writes_error rfl

theorem writes_parseAssertions (i : Nat) (h : ∀ v ∈ items, v.isWritable = true) :
    Writes (parseAssertions i items) := by
  induction items generalizing i with
  | nil => exact writes_ok _
  | cons v rest ih =>
    obtain ⟨hv,hrest⟩ := List.forall_mem_cons.mp h
    rw [parseAssertions]
    exact (writes_parseAssertion i hv).bind fun _ _ => (ih (i + 1) hrest).bind fun _ _ => writes_ok _

theorem writes_parseAllAssertions (h : e.Writable) : Writes (parseAllAssertions e) := by
  have hv : ((Value.find "assertions" e).getD (.list [])).isWritable = true := h.getD_find rfl
  unfold parseAllAssertions
  split
  case h_1 items hitems =>
    rw [hitems] at hv
    exact writes_parseAssertions 0 (Value.itemsWritable_iff.mp hv)
  case h_2 => exact writes_error rfl

theorem writes_parseSchema (h : e.Writable) : Writes (parseSchema e) := by
  refine (writes_written (h.getD_find rfl)).bind fun version _ => ?_
  split
  · exact writes_ok _
  · exact writes_error rfl

theorem writes_parseNames (h : e.Writable) : Writes (parseNames e) := by
  have hv := h.get "candidates"
  unfold parseNames
  split
  · exact writes_ok _
  · rename_i names hnames
    rw [hnames] at hv
    exact writes_mapM_written (Value.itemsWritable_iff.mp hv)
  · exact writes_error rfl

theorem writes_givenCount (h : e.Writable) (names : List Text) : Writes (givenCount e names) := by
  unfold givenCount
  split
  · split
    · exact writes_error rfl
    · exact writes_ok _
  · exact writes_parseInt _ (h.get "num_candidates")

theorem givenCount_eq_ok_iff {names : List Text} {n : Int} : givenCount e names = .ok n ↔
    e.get "num_candidates" = .int n ∨ e.get "num_candidates" = .null ∧ names ≠ [] ∧ (names.length : Int) = n := by
  unfold givenCount
  cases e.get "num_candidates" with
  | null => by_cases h : names = [] <;> simp [h]
  | _ => simp [parseInt]

theorem writes_parseCount (h : e.Writable) (names : List Text) : Writes (parseCount e names) := by
  refine (writes_givenCount h names).bind fun n hn => ?_
  split
  case isTrue hne =>
    rcases givenCount_eq_ok_iff.mp hn with hn | ⟨_,_,hlen⟩
    · have hv := h.get "num_candidates"
      rw [hn] at hv
      exact (writes_showing hv rfl).bind fun _ _ => writes_ok _
    · exact absurd hlen hne.2
  case isFalse => exact writes_ok _

theorem writes_parseAlgorithm (e : Entries) : Writes (parseAlgorithm e) := by
  unfold parseAlgorithm
  split
  · exact writes_ok _
  · split
    · exact writes_ok _
    · exact writes_error rfl
  · exact writes_error rfl

theorem writes_parseContinuation (e : Entries) : Writes (parseContinuation e) := by
  unfold parseContinuation
  split
  · exact writes_ok _
  · split
    · exact writes_ok _
    · exact writes_error rfl
  · exact writes_error rfl

theorem writes_parseName (h : e.Writable) (defaultName : String) : Writes (parseName e defaultName) := by
  unfold parseName
  dsimp only
  split
  · exact writes_ok _
  · exact writes_written (h.get "name")

theorem writes_parseWorkLimit (hv : v.isWritable = true) : Writes (parseWorkLimit v) := by
  unfold parseWorkLimit
  split
  · exact writes_ok _
  · refine (writes_parseInt _ hv).bind fun w _ => ?_
    split
    · exact writes_error rfl
    · exact writes_ok _

theorem writes_parseContest (h : e.Writable) (defaultName : String) : Writes (parseContest e defaultName) := by
  refine (writes_parseSchema h).bind fun _ _ => ?_
  refine (writes_parseNames h).bind fun names _ => ?_
  refine (writes_parseCount h names).bind fun n _ => ?_
  refine (writes_parseInt "winner" (h.get "winner")).bind fun winner _ => ?_
  refine (writes_parseAllAssertions h).bind fun assertions _ => ?_
  refine (writes_parseAlgorithm e).bind fun algorithm _ => ?_
  refine (writes_parseContinuation e).bind fun continuation _ => ?_
  refine (writes_parseName h defaultName).bind fun name _ => ?_
  refine (writes_parseBool "sort_assertions" true _).bind fun sortAssertions _ => ?_
  exact (writes_parseBool "check_winner" false _).bind fun checkWinner _ => writes_ok _

theorem parseSecondsLimit_ne_tooManyDigits (v : Value) : parseSecondsLimit v ≠ .error (.format .tooManyDigits) := by
  unfold parseSecondsLimit
  split
  · nofun
  · split
    · nofun
    · split <;> nofun
  · split <;> nofun
  · nofun

theorem parseLimits_ne_tooManyDigits (hv : v.isWritable = true) : parseLimits v ≠ .error (.format .tooManyDigits) := by
  unfold parseLimits
  split
  · nofun
  case h_2 budget =>
    have hbudget : Entries.Writable budget := hv
    intro h
    rcases bind_eq_error_iff.mp h with h | ⟨work,_,h⟩
    · obtain ⟨cause,hcause,hformat⟩ := mapError_eq_error_iff.mp h
      cases hformat
      exact writes_parseWorkLimit (hbudget.get "work_limit") hcause
    · rcases bind_eq_error_iff.mp h with h | ⟨seconds,_,h⟩
      · exact parseSecondsLimit_ne_tooManyDigits _ h
      · cases h
  · nofun

/-- Only a document with an integer that is too long fails to be read because of one. -/
theorem not_writable_of_parse {defaultName : String} (h : parse e defaultName = .error (.format .tooManyDigits)) :
    ¬ e.Writable := by
  intro he
  rcases bind_eq_error_iff.mp h with h | ⟨contest,_,h⟩
  · obtain ⟨cause,hcause,hformat⟩ := mapError_eq_error_iff.mp h
    cases hformat
    exact writes_parseContest he defaultName hcause
  · rcases bind_eq_error_iff.mp h with h | ⟨limits,_,h⟩
    · exact parseLimits_ne_tooManyDigits (he.get "budget") h
    · cases h

end Problem
end RunoffAudit
