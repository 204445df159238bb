import RunoffAudit.Screening
import RunoffAudit.Proofs.Faults
import RunoffAudit.Proofs.Texts
import RunoffAudit.Proofs.Work

/-! # What screening lets through

Faults can be put in words if no integer in their messages is too long. Then a screened command does what the command
does, and otherwise it does nothing. Of a contest of short integers all faults can be put in words.
-/
namespace RunoffAudit
open Metered

variable {α : Type} {n : Int} {i : Nat} {a : Assertion} {c : Candidate} {f : Fault} {winner : Option Candidate}
  {assertions : List Assertion} {faults found : List Fault} {e : Text.DigitError}

theorem screen_eq_ok_iff : screen faults = .ok found ↔ found = faults ∧ ∀ f ∈ faults, f.isWritable = true := by
  unfold screen
  rw [← List.all_eq_true]
  split
  case isTrue h => simp [h,eq_comm]
  case isFalse h => simp [h]

theorem screen_eq_error_iff : screen faults = .error e ↔ ∃ f ∈ faults, f.isWritable = false := by
  unfold screen
  split
  case isTrue h =>
    have hall := List.all_eq_true.mp h
    refine iff_of_false nofun ?_
    rintro ⟨f,hf,hlong⟩
    exact Bool.false_ne_true (hlong.symm.trans (hall f hf))
  case isFalse h =>
    refine iff_of_true rfl ?_
    simpa using h

theorem screen_eq_nil_iff : screen faults = .ok [] ↔ faults = [] := by
  rw [screen_eq_ok_iff]
  constructor
  · exact fun h => h.1.symm
  · rintro rfl
    exact ⟨rfl,nofun⟩

theorem screen_fails_iff : (∃ e, screen faults = .error e) ↔ ∃ f ∈ faults, f.isWritable = false :=
  ⟨fun ⟨_,h⟩ => screen_eq_error_iff.mp h,fun h => ⟨.tooMany,screen_eq_error_iff.mpr h⟩⟩

/-! ## Commands -/

section Commands
variable {m : Type → Type} [Monad m]

theorem afterScreen_of_ok (h : screen faults = .ok found) (command : m α) :
    afterScreen faults command = Except.ok <$> command := by
  unfold afterScreen
  rw [h]

theorem afterScreen_of_error (h : screen faults = .error e) (command : m α) :
    afterScreen faults command = pure (.error e) := by
  unfold afterScreen
  rw [h]

end Commands

variable {b b' : Budget} {x : α}

theorem afterScreen_apply {command : StateM Budget α} (h : screen faults = .ok found) (hcommand : command b = (x,b')) :
    afterScreen faults command b = (.ok x,b') := by
  rw [afterScreen_of_ok h]
  exact congrArg (fun r => (Except.ok r.1,r.2)) hcommand

theorem afterScreen_runOn {command : Metered α} (h : screen faults = .ok found)
    (hcommand : command.runOn b = (.ok x,b')) : (afterScreen faults command).runOn b = (.ok (.ok x),b') := by
  rw [afterScreen_of_ok h]
  exact runOn_map_ok hcommand

/-- What a screened command returns was returned by the command. -/
theorem eq_of_afterScreen {command : StateM Budget α} (h : (afterScreen faults command b).1 = .ok x) :
    (command b).1 = x := by
  cases hs : screen faults with
  | error e =>
    rw [afterScreen_of_error hs] at h
    cases h
  | ok found =>
    rw [afterScreen_of_ok hs] at h
    exact Except.ok.inj h

/-! ## Short integers -/

theorem natAbs_sub_one_lt {bound : Nat} (hn : 0 < n) (h : n.natAbs < bound) : (n - 1).natAbs < bound := by
  omega

theorem isWritable_single {v : Value} (h : v.isWritable = true) : Value.itemsWritable [v] = true :=
  Value.itemsWritable_iff.mpr (List.forall_mem_singleton.mpr h)

/-- A candidate and the last one in range. -/
theorem isWritable_outside {k : Int} (hc : c.natAbs < Text.digitBound) (hk : k.natAbs < Text.digitBound) :
    Value.itemsWritable [.int c,.int k] = true := by
  rw [Value.itemsWritable_iff,List.forall_mem_cons,List.forall_mem_singleton]
  exact ⟨Value.isWritable_int_iff.mpr hc,Value.isWritable_int_iff.mpr hk⟩

theorem Assertion.isWritable_of_mem_faults (hn : (n - 1).natAbs < Text.digitBound) (ha : a.isWritable = true)
    (hf : f ∈ a.faults n i) : f.isWritable = true := by
  have hmentioned := Value.isWritable_ints_iff.mp ha
  rcases mem_faults_cases hf with ⟨c,hc,rfl⟩ | rfl | rfl | ⟨missing,_,rfl,hmissing⟩
  · exact isWritable_outside (hmentioned c hc) hn
  · exact isWritable_single ha
  · rfl
  · exact isWritable_single (Value.isWritable_ints_iff.mpr fun c hc => hmentioned c (hmissing c hc))

/-- No integer of the contest is too long. -/
structure ShortContest (n : Int) (winner : Option Candidate) (assertions : List Assertion) : Prop where
  count : n.natAbs < Text.digitBound
  winner : ∀ w, winner = some w → w.natAbs < Text.digitBound
  assertions : ∀ a ∈ assertions, ∀ c ∈ a.mentioned, c.natAbs < Text.digitBound

theorem ShortContest.isWritable_of_mem (h : ShortContest n winner assertions)
    (hf : f ∈ contestFaults n winner assertions) : f.isWritable = true := by
  unfold contestFaults at hf
  split at hf
  · rw [List.mem_singleton.mp hf]
    exact isWritable_single (Value.isWritable_int_iff.mpr h.count)
  case isFalse hn =>
    have hlast := natAbs_sub_one_lt (Int.not_le.mp hn) h.count
    rcases List.mem_append.mp hf with hf | hf
    · cases winner with
      | none => cases hf
      | some w =>
        rw [winnerFaults] at hf
        split at hf
        · cases hf
        · rw [List.mem_singleton.mp hf]
          exact isWritable_outside (h.winner w rfl) hlast
    · obtain ⟨⟨a,i⟩,hai,hf⟩ := List.mem_flatMap.mp hf
      have ha := h.assertions a (List.mem_of_getElem? (mem_numbered.mp hai))
      exact Assertion.isWritable_of_mem_faults hlast (Value.isWritable_ints_iff.mpr ha) hf

theorem screenContest_of_short (h : ShortContest n winner assertions) :
    screenContest n winner assertions = .ok (contestFaults n winner assertions) :=
  screen_eq_ok_iff.mpr ⟨rfl,fun _ hf => h.isWritable_of_mem hf⟩

/-- What is searched for counts as the winner here. -/
theorem screenSearch_of_short (h : ShortContest n (some c) assertions) :
    screenSearch n c assertions = .ok (searchFaults n c assertions) := by
  refine screen_eq_ok_iff.mpr ⟨rfl,fun f hf => ?_⟩
  unfold searchFaults at hf
  split at hf
  case isTrue hn =>
    refine h.isWritable_of_mem ?_
    rwa [contestFaults,if_pos hn]
  case isFalse hn =>
    rcases List.mem_append.mp hf with hf | hf
    · split at hf
      · cases hf
      · rw [List.mem_singleton.mp hf]
        have hlast := natAbs_sub_one_lt (Int.not_le.mp hn) h.count
        exact isWritable_outside (h.winner c rfl) hlast
    · have hnobody : ShortContest n none assertions := ⟨h.count,by rintro _ ⟨⟩,h.assertions⟩
      exact hnobody.isWritable_of_mem hf

end RunoffAudit
