import RunoffAudit.Problem.File
import RunoffAudit.Proofs.PositiveDouble
import RunoffAudit.Proofs.Texts
import RunoffAudit.Proofs.Work

/-! # What holds of every problem that was read

Reading checks the structure of a document only, but what it lets through is never without a name, lists as many names
as there are candidates, and has an algorithm and a policy that are known and limits above zero.
-/
namespace RunoffAudit
open Metered

/-! ## Computations that may fail -/

section Except
variable {ε ε' α β : Type} {x : Except ε α} {f : α → Except ε β} {e : ε} {a : α} {b : β}

theorem exists_of_bind_eq_ok (h : x >>= f = .ok b) : ∃ a, x = .ok a ∧ f a = .ok b := by
  cases x with
  | error e => cases h
  | ok a => exact ⟨a,rfl,h⟩

theorem bind_eq_error_iff : x >>= f = .error e ↔ x = .error e ∨ ∃ a, x = .ok a ∧ f a = .error e := by
  cases x with
  | error e' =>
    constructor
    · rintro ⟨⟩
      exact Or.inl rfl
    · rintro (h | ⟨_,⟨⟩,_⟩)
      cases h
      rfl
  | ok a =>
    constructor
    · intro h
      exact Or.inr ⟨a,rfl,h⟩
    · rintro (h | ⟨a',ha,h⟩)
      · cases h
      · cases ha
        exact h

theorem bind_eq_of_ok (h : x = .ok a) : x >>= f = f a := by
  rw [h]
  rfl

theorem mapError_eq_error_iff {g : ε → ε'} {e' : ε'} : x.mapError g = .error e' ↔ ∃ e, x = .error e ∧ g e = e' := by
  cases x with
  | error e => simp [Except.mapError]
  | ok a => simp [Except.mapError]

theorem eq_ok_of_toOption (h : x.toOption = some a) : x = .ok a := by
  cases x with
  | error e => cases h
  | ok a' =>
    cases h
    rfl

theorem eq_ok_of_mapError {g : ε → ε'} (h : x.mapError g = .ok a) : x = .ok a := by
  cases x with
  | error e => cases h
  | ok a' =>
    cases h
    rfl

end Except

/-! ## Values as names -/

theorem append_ne_empty_left {s t : String} (h : s ≠ "") : s ++ t ≠ "" :=
  fun hnil => h (String.append_eq_empty_iff.mp hnil).1

theorem append_ne_empty_right {s t : String} (h : t ≠ "") : s ++ t ≠ "" :=
  fun hnil => h (String.append_eq_empty_iff.mp hnil).2

theorem ofList_ne_empty {cs : List Char} (h : cs ≠ []) : String.ofList cs ≠ "" :=
  fun hnil => h (String.ofList_eq_empty_iff.mp hnil)

namespace Decimal

theorem positional_ne_empty (ds : List Char) (point : Int) : positional ds point ≠ "" := by
  unfold positional
  split
  · exact append_ne_empty_left (append_ne_empty_left (by decide))
  · split
    · exact append_ne_empty_right (by decide)
    · exact append_ne_empty_left (append_ne_empty_right (by decide))

theorem exponentText_ne_empty (width : Nat) (power : Int) : exponentText width power ≠ "" :=
  append_ne_empty_right (ofList_ne_empty Nat.toDigits_ne_nil)

theorem Layout.write_ne_empty (l : Layout) (s : Scientific) : l.write s ≠ "" := by
  unfold Layout.write
  dsimp only
  split
  · exact positional_ne_empty _ _
  · exact append_ne_empty_right (exponentText_ne_empty _ _)

theorem Layout.text_ne_empty {l : Layout} (hnan : l.nan ≠ "") (hinfinity : l.infinity ≠ "") (x : Float) :
    l.text x ≠ "" := by
  unfold Layout.text
  split
  · exact hnan
  · exact append_ne_empty_right hinfinity
  · apply append_ne_empty_right
    split
    · decide
    · exact l.write_ne_empty _

end Decimal

theorem toString_int_ne_empty (n : Int) : toString n ≠ "" := by
  cases n with
  | ofNat n => exact Nat.repr_ne_empty
  | negSucc n => exact append_ne_empty_left (by decide)

theorem Date.text_ne_empty (d : Date) : d.text ≠ "" := append_ne_empty_left (append_ne_empty_right (by decide))

theorem Value.plain_ne_nil {v : Value} (h : v.isEmpty = false) : v.plain.points ≠ [] := by
  cases v with
  | null => cases h
  | bool b =>
    cases b with
    | false => cases h
    | true => exact Text.points_ofString_ne_nil (by decide : "True" ≠ "")
  | int n => exact Text.points_ofString_ne_nil (toString_int_ne_empty n)
  | float x => exact Text.points_ofString_ne_nil (Decimal.Layout.text_ne_empty (by decide) (by decide) x)
  | text s => exact Text.points_ofString_ne_nil (of_decide_eq_false h)
  | codes points => exact (by simpa [isEmpty] using h : points ≠ [])
  | date d => exact Text.points_ofString_ne_nil d.text_ne_empty
  | dateTime t =>
    refine Text.points_ofString_ne_nil ?_
    exact append_ne_empty_left (append_ne_empty_left (append_ne_empty_left t.date.text_ne_empty))
  | list items => exact Text.points_ofString_ne_nil (append_ne_empty_right (by decide))
  | mapping entries => exact Text.points_ofString_ne_nil (append_ne_empty_right (by decide))

/-- The value can be written, and this is its text. -/
def Value.HasText (v : Value) (t : Text) : Prop := v.isWritable = true ∧ v.plain = t

/-! ## The fields -/

namespace Problem
variable {e : Entries} {defaultName : String} {names : List Text} {n : Int} {v : Value} {p : Problem}

theorem parseCount_ok (h : parseCount e names = .ok n) (hnames : names ≠ []) : (names.length : Int) = n := by
  obtain ⟨m,_,h⟩ := exists_of_bind_eq_ok h
  split at h
  case isTrue hne => cases h
  case isFalse hne =>
    cases h
    exact Decidable.not_not.mp fun hlen => hne ⟨hnames,hlen⟩

theorem parseAlgorithm_ok {a : TrimAlgorithm} (h : parseAlgorithm e = .ok a) : a ∈ TrimAlgorithm.known := by
  unfold parseAlgorithm at h
  split at h
  · cases h
    decide
  · split at h
    case h_1 a' ha' =>
      cases h
      exact List.mem_of_find?_eq_some ha'
    case h_2 => cases h
  · cases h

theorem parseContinuation_ok {q : Policy} (h : parseContinuation e = .ok (some q)) : q ∈ Policy.all := by
  unfold parseContinuation at h
  split at h
  · cases h
  · split at h
    case h_1 q' hq' =>
      cases h
      exact List.mem_of_find?_eq_some hq'
    case h_2 => cases h
  · cases h

theorem parseWorkLimit_ok {w : Int} (h : parseWorkLimit v = .ok (some w)) : 0 < w := by
  unfold parseWorkLimit at h
  split at h
  · cases h
  · obtain ⟨w',_,h⟩ := exists_of_bind_eq_ok h
    split at h
    case isTrue hw => cases h
    case isFalse hw =>
      cases h
      exact Int.not_le.mp hw

theorem parseSecondsLimit_ok {s : Float} (h : parseSecondsLimit v = .ok (some s)) : ¬ s ≤ 0 := by
  unfold parseSecondsLimit at h
  split at h
  · cases h
  · split at h
    case isTrue hn => cases h
    case isFalse hn =>
      split at h
      case h_1 s' hs' =>
        cases h
        exact Decimal.ofInt?_not_le_zero (Int.not_le.mp hn) hs'
      case h_2 => cases h
  · split at h
    case isTrue hs => cases h
    case isFalse hs =>
      cases h
      exact hs
  · cases h

theorem written_eq_ok_iff {t : Text} : written v = .ok t ↔ v.HasText t := by
  unfold written Value.HasText
  by_cases h : v.isWritable = true <;> simp [h]

theorem parseName_ok {name : Text} (h : parseName e defaultName = .ok name) (hdefault : defaultName ≠ "") :
    name.points ≠ [] := by
  unfold parseName at h
  dsimp only at h
  split at h
  case isTrue =>
    cases h
    exact Text.points_ofString_ne_nil hdefault
  case isFalse hgiven =>
    rw [← (written_eq_ok_iff.mp h).2]
    exact Value.plain_ne_nil (Bool.eq_false_iff.mpr hgiven)

theorem parseLimits_ok {l : Limits} (h : parseLimits v = .ok l) :
    (∀ w, l.work = some w → 0 < w) ∧ ∀ s, l.seconds = some s → ¬ s ≤ 0 := by
  unfold parseLimits at h
  split at h
  · cases h
    refine ⟨?_,?_⟩
    · rintro w ⟨⟩
    · rintro s ⟨⟩
  · obtain ⟨work,hwork,h⟩ := exists_of_bind_eq_ok h
    obtain ⟨seconds,hseconds,h⟩ := exists_of_bind_eq_ok h
    cases h
    refine ⟨?_,?_⟩
    · rintro w rfl
      exact parseWorkLimit_ok (eq_ok_of_mapError hwork)
    · rintro s rfl
      exact parseSecondsLimit_ok hseconds
  · cases h

/-! ## Files -/

def nameOfFile (l : Location) : String := String.ofList (Path.withoutExtension l.name.toList)

theorem load_of_file {format : DocumentFormat} {d : Disk} {l : Location} {text : String} (hkind : d.kind l = .file)
    (htext : d.text? l = some text) :
    (load (Disk.access format) l).run d = ((ofText format l.text (nameOfFile l) text).mapError .text,d) := by
  have hkind : (Disk.access format).kind l d = (.file,d) := by
    show (d.kind l,d) = _
    rw [hkind]
  have hread : (Disk.access format).read l d = (text,d) := by
    show ((d.text? l).getD "",d) = _
    rw [htext,Option.getD_some]
  unfold load StateT.run
  rw [run_bind hkind]
  dsimp only
  rw [run_bind hread]
  rfl

/-! ## The problem -/

structure Readable (p : Problem) : Prop where
  name_ne : p.name.points ≠ []
  count : p.names ≠ [] → (p.names.length : Int) = p.n
  algorithm : p.algorithm ∈ TrimAlgorithm.known
  continuation : ∀ q, p.continuation = some q → q ∈ Policy.all
  work : ∀ w, p.limits.work = some w → 0 < w
  seconds : ∀ s, p.limits.seconds = some s → ¬ s ≤ 0

theorem readable_of_parse (hname : defaultName ≠ "") (h : parse e defaultName = .ok p) : p.Readable := by
  obtain ⟨contest,hcontest,h⟩ := exists_of_bind_eq_ok h
  obtain ⟨limits,hlimits,h⟩ := exists_of_bind_eq_ok h
  obtain ⟨hwork,hseconds⟩ := parseLimits_ok hlimits
  have hcontest := eq_ok_of_mapError hcontest
  obtain ⟨_,_,hcontest⟩ := exists_of_bind_eq_ok hcontest
  obtain ⟨names,_,hcontest⟩ := exists_of_bind_eq_ok hcontest
  obtain ⟨n,hcount,hcontest⟩ := exists_of_bind_eq_ok hcontest
  obtain ⟨winner,_,hcontest⟩ := exists_of_bind_eq_ok hcontest
  obtain ⟨assertions,_,hcontest⟩ := exists_of_bind_eq_ok hcontest
  obtain ⟨algorithm,halgorithm,hcontest⟩ := exists_of_bind_eq_ok hcontest
  obtain ⟨continuation,hcontinuation,hcontest⟩ := exists_of_bind_eq_ok hcontest
  obtain ⟨name,hgiven,hcontest⟩ := exists_of_bind_eq_ok hcontest
  obtain ⟨sort,_,hcontest⟩ := exists_of_bind_eq_ok hcontest
  obtain ⟨check,_,hcontest⟩ := exists_of_bind_eq_ok hcontest
  cases hcontest
  cases h
  refine ⟨parseName_ok hgiven hname,parseCount_ok hcount,parseAlgorithm_ok halgorithm,?_,hwork,hseconds⟩
  rintro q rfl
  exact parseContinuation_ok hcontinuation

end Problem
end RunoffAudit
