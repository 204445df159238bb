import RunoffAudit.CommandLine.Run
import RunoffAudit.Proofs.WritableDocument

/-! # Documents that are no problems

A document that cannot be read is reported as such, in a line of its own and with the exit code for unusable input,
unless its limit in seconds is an integer beyond the largest double or an integer has too many digits to be
written. Such a limit is found out last, such an integer where a name or a message needs it, and no command
handles them.
-/
namespace RunoffAudit
open Metered

namespace Problem
variable {e : Entries} {defaultName : String} {v : Value}

theorem ofInt?_eq_none_iff {n : Int} (hn : 0 < n) : Decimal.ofInt? n = none ↔ (Decimal.overflowBound : Int) ≤ n := by
  have hsize : n.natAbs < Decimal.overflowBound ↔ ¬ (Decimal.overflowBound : Int) ≤ n := by omega
  unfold Decimal.ofInt?
  split
  case isTrue h => simpa using hsize.mp h
  case isFalse h => simpa using Decidable.not_not.mp (mt hsize.mpr h)

theorem parseSecondsLimit_overflow_iff : parseSecondsLimit v = .error .secondsOverflow ↔
    ∃ n, v = .int n ∧ (Decimal.overflowBound : Int) ≤ n := by
  unfold parseSecondsLimit
  constructor
  · intro h
    split at h
    · cases h
    case h_2 n =>
      split at h
      case isTrue => cases h
      case isFalse hn =>
        split at h
        case h_1 => cases h
        case h_2 hnone => exact ⟨n,rfl,(ofInt?_eq_none_iff (Int.not_le.mp hn)).mp hnone⟩
    · split at h
      · cases h
      · cases h
    · cases h
  · rintro ⟨n,rfl,hn⟩
    have hpos : 0 < n := Int.lt_of_lt_of_le (by decide +kernel) hn
    dsimp only
    rw [if_neg (Int.not_le.mpr hpos),(ofInt?_eq_none_iff hpos).mpr hn]

/-- A limit in seconds that is an integer beyond the largest double, in limits that are otherwise well-formed. -/
def OverflowingLimits (v : Value) : Prop :=
  ∃ budget, v = .mapping budget ∧ (∃ work, parseWorkLimit (Entries.get budget "work_limit") = .ok work) ∧
    ∃ n, Entries.get budget "seconds_limit" = .int n ∧ (Decimal.overflowBound : Int) ≤ n

theorem parseLimits_overflow_iff : parseLimits v = .error .secondsOverflow ↔ OverflowingLimits v := by
  unfold parseLimits
  constructor
  · intro h
    split at h
    · cases h
    case h_2 budget =>
      rcases bind_eq_error_iff.mp h with h | ⟨work,hwork,h⟩
      · obtain ⟨cause,_,hcause⟩ := mapError_eq_error_iff.mp h
        cases hcause
      · rcases bind_eq_error_iff.mp h with h | ⟨seconds,_,h⟩
        · exact ⟨budget,rfl,⟨work,eq_ok_of_mapError hwork⟩,parseSecondsLimit_overflow_iff.mp h⟩
        · cases h
    · cases h
  · rintro ⟨budget,rfl,⟨work,hwork⟩,hseconds⟩
    dsimp only
    rw [hwork,parseSecondsLimit_overflow_iff.mpr hseconds]
    rfl

/-- All is well but the limit in seconds. -/
def SecondsOverflow (e : Entries) (defaultName : String) : Prop :=
  (∃ contest, parseContest e defaultName = .ok contest) ∧ OverflowingLimits (e.get "budget")

theorem parse_overflow_iff : parse e defaultName = .error .secondsOverflow ↔ SecondsOverflow e defaultName := by
  unfold parse
  constructor
  · intro h
    rcases bind_eq_error_iff.mp h with h | ⟨contest,hcontest,h⟩
    · obtain ⟨cause,_,hcause⟩ := mapError_eq_error_iff.mp h
      cases hcause
    · rcases bind_eq_error_iff.mp h with h | ⟨limits,_,h⟩
      · exact ⟨⟨contest,eq_ok_of_mapError hcontest⟩,parseLimits_overflow_iff.mp h⟩
      · cases h
  · rintro ⟨⟨contest,hcontest⟩,hlimits⟩
    rw [hcontest,parseLimits_overflow_iff.mpr hlimits]
    rfl

end Problem

/-! ## Commands -/

namespace CommandLine
open Problem
variable {format : DocumentFormat} {d : Disk} {here l : Location} {e : Entries}

/-- How every command ends that comes to the file at `l`. -/
structure EndsAt (format : DocumentFormat) (d : Disk) (here l : Location) (r : Run) : Prop where
  /-- A command that takes one file. -/
  one : ∀ path run, ((Disk.access format).lookup here path).run d = (.found l,d) →
    (withFile (Disk.access format) here path run).run d = (r,d)
  /-- The command that takes several, of which those before can be read. -/
  several : ∀ targets style before after,
    ((Disk.access format).targets here targets).run d = (.ok (before ++ l :: after),d) →
    (∀ k ∈ before, ∃ p, (load (Disk.access format) k).run d = (.ok p,d)) →
    (runVerify (Disk.access format) here targets style).run d = (r,d)

theorem loadAll_error {before : List Location} {err : LoadError} (after : List Location)
    (hbefore : ∀ k ∈ before, ∃ p, (load (Disk.access format) k).run d = (.ok p,d))
    (h : (load (Disk.access format) l).run d = (.error err,d)) :
    (loadAll (Disk.access format) (before ++ l :: after)).run d = (.error err,d) := by
  induction before with
  | nil =>
    rw [List.nil_append,loadAll]
    exact run_bind h
  | cons k rest ih =>
    obtain ⟨p,hp⟩ := hbefore k List.mem_cons_self
    have hrest := ih fun k hk => hbefore k (List.mem_cons_of_mem _ hk)
    rw [List.cons_append,loadAll]
    refine (run_bind hp).trans ?_
    exact run_bind hrest

theorem endsAt_of_load {err : LoadError} (hkind : d.kind l = .file)
    (h : (load (Disk.access format) l).run d = (.error err,d)) : EndsAt format d here l (refuseLoad err) := by
  constructor
  case one =>
    intro path run hfound
    have hkind : (Disk.access format).kind l d = (.file,d) := by
      show (d.kind l,d) = _
      rw [hkind]
    unfold withFile
    refine (run_bind hfound).trans ?_
    dsimp only
    rw [run_bind hkind,if_neg (by decide)]
    exact run_bind h
  case several =>
    intro targets style before after hfound hbefore
    have hall := loadAll_error after hbefore h
    obtain ⟨k,rest,hcons⟩ :=
      List.exists_cons_of_ne_nil (List.append_ne_nil_of_right_ne_nil before (List.cons_ne_nil l after))
    rw [hcons] at hfound hall
    unfold runVerify
    refine (run_bind hfound).trans ?_
    exact run_bind hall

/-- A document in a file is read or reported, except for two faults that no command handles: a limit in seconds
that is too large, if nothing else is wrong, and an integer that is too long for a name or a message. -/
theorem document_outcome (here : Location) {text : String} (hkind : d.kind l = .file) (htext : d.text? l = some text)
    (hread : format.read text = .ok (.mapping e)) :
    (∃ p, parse e (nameOfFile l) = .ok p) ∨
    (∃ cause, parse e (nameOfFile l) = .error (.format cause) ∧ cause.isReported = true ∧
      EndsAt format d here l ⟨[],[errorLine cause.message],.exit 2⟩) ∨
    (SecondsOverflow e (nameOfFile l) ∧ parse e (nameOfFile l) = .error .secondsOverflow ∧
      EndsAt format d here l ⟨[],[],.failed (.text (.problem .secondsOverflow))⟩) ∨
    (¬ e.Writable ∧ parse e (nameOfFile l) = .error (.format .tooManyDigits) ∧
      EndsAt format d here l ⟨[],[],.failed (.text (.problem (.format .tooManyDigits)))⟩) := by
  have hends : ∀ err, parse e (nameOfFile l) = .error err →
      EndsAt format d here l (refuseLoad (.text (.problem err))) := by
    intro err hparse
    apply endsAt_of_load hkind
    rw [load_of_file hkind htext,ofText,hread]
    dsimp only
    rw [hparse]
    rfl
  cases hparse : parse e (nameOfFile l) with
  | ok p => exact Or.inl ⟨p,rfl⟩
  | error err =>
    have hrun := hends err hparse
    right
    cases err with
    | format cause =>
      cases hreported : cause.isReported with
      | true =>
        rw [refuseLoad,if_pos hreported] at hrun
        exact Or.inl ⟨cause,rfl,hreported,hrun⟩
      | false =>
        obtain rfl := FormatError.eq_tooManyDigits hreported
        exact Or.inr (Or.inr ⟨not_writable_of_parse hparse,rfl,hrun⟩)
    | secondsOverflow => exact Or.inr (Or.inl ⟨parse_overflow_iff.mp hparse,rfl,hrun⟩)

def unfinished : Disk := ⟨[],[(["","a.yaml"],"x: 1")]⟩

theorem document_outcome_unfinished :
    unfinished.kind ["","a.yaml"] = .file ∧ unfinished.text? ["","a.yaml"] = some "x: 1" ∧
    Yaml.read "x: 1" = .ok (.mapping [(.text "x",.int 1)]) ∧
    EndsAt .yaml unfinished [""] ["","a.yaml"] ⟨[],[errorLine FormatError.countMissing.message],.exit 2⟩ := by
  have hkind : unfinished.kind ["","a.yaml"] = .file := by decide
  have htext : unfinished.text? ["","a.yaml"] = some "x: 1" := by decide
  have htokens : (Yaml.tokens (Yaml.normalizeBreaks "x: 1".toList)).toOption =
      some [.blockMapping,.key,.plain "x",.value,.plain "1",.blockEnd] := by decide +kernel
  have hyaml : Yaml.read "x: 1" = .ok (.mapping [(.text "x",.int 1)]) := by
    rw [Yaml.read,eq_ok_of_toOption htokens]
    rfl
  have hparse : parse [(.text "x",.int 1)] (nameOfFile ["","a.yaml"]) = .error (.format .countMissing) := rfl
  refine ⟨hkind,htext,hyaml,?_⟩
  rcases document_outcome [""] hkind htext (show DocumentFormat.yaml.read _ = _ from hyaml) with ⟨p,hp⟩ | ⟨cause,hp,_,hends⟩ | ⟨_,hp,_⟩ | ⟨_,hp,_⟩
  · rw [hparse] at hp
    cases hp
  · rw [hparse] at hp
    cases hp
    exact hends
  · rw [hparse] at hp
    cases hp
  · rw [hparse] at hp
    cases hp

/-- A problem whose limit in seconds is the least integer that is too large. -/
def endlessLimit : Entries :=
  [(.text "num_candidates",.int 2),(.text "winner",.int 0),
    (.text "budget",.record [("seconds_limit",.int Decimal.overflowBound)])]

theorem endlessLimit_not_reported : ¬ ((∃ p, parse endlessLimit unnamed = .ok p) ∨
    ∃ cause, parse endlessLimit unnamed = .error (.format cause) ∧ cause.isReported = true) := by
  have hoverflow : parse endlessLimit unnamed = .error .secondsOverflow :=
    parse_overflow_iff.mpr ⟨⟨_,rfl⟩,_,rfl,⟨_,rfl⟩,Decimal.overflowBound,rfl,Int.le_refl _⟩
  rw [hoverflow]
  rintro (⟨p,hp⟩ | ⟨cause,hcause,_⟩)
  · cases hp
  · cases hcause

/-- A name that is too long an integer is not reported either. -/
theorem parse_longName {n : Int} (hn : Text.digitBound ≤ n.natAbs) (defaultName : String) :
    parse [(.text "num_candidates",.int 2),(.text "winner",.int 0),(.text "name",.int n)] defaultName =
      .error (.format .tooManyDigits) := by
  have hlong : ¬ (Value.int n).isWritable = true := by
    rw [Value.isWritable,decide_eq_true_eq]
    exact Nat.not_lt.mpr hn
  have hpos : 0 < n.natAbs := Nat.lt_of_lt_of_le (by decide) (Text.ten_le_digitBound.trans hn)
  have hgiven : (Value.int n).isEmpty = false := decide_eq_false (Int.natAbs_pos.mp hpos)
  have hname : parseName [(.text "num_candidates",.int 2),(.text "winner",.int 0),(.text "name",.int n)] defaultName =
      .error .tooManyDigits := by
    show (if (Value.int n).isEmpty then .ok defaultName else written (.int n)) = _
    rw [hgiven,written,if_neg hlong]
    rfl
  unfold parse parseContest
  rw [hname]
  rfl

end CommandLine
end RunoffAudit
