import RunoffAudit.CommandLine.Run
import RunoffAudit.Proofs.Reports
import RunoffAudit.Proofs.RoundTrip
import RunoffAudit.Proofs.Screening
import RunoffAudit.Proofs.Trimming

/-! # Commands on files

What a command line does to the files that it names, once they are found and loaded. A problem that was loaded is one
that is saved and loaded again without loss.
-/
namespace RunoffAudit
open Metered

variable {format : DocumentFormat} {d d' : Disk} {here l : Location} {p q : Problem} {result : TrimResult}

/-! ## Problems that were loaded -/

theorem Path.withoutExtension_ne_nil {name : List Char} (h : name ≠ []) : Path.withoutExtension name ≠ [] := by
  unfold Path.withoutExtension
  dsimp only
  split
  · exact h
  case isFalse hdot => exact fun hbase => hdot (Or.inr hbase)

theorem Disk.exists_text_of_kind (hkind : d.kind l = .file) :
    ∃ text, d.text? l = some text ∧ (l,text) ∈ d.files := by
  unfold kind at hkind
  split at hkind
  case isTrue hany =>
    have hsome : (d.files.find? (·.1 = l)).isSome := by simpa using hany
    obtain ⟨⟨m,text⟩,hfound⟩ := Option.isSome_iff_exists.mp hsome
    obtain rfl : m = l := by simpa using List.find?_some hfound
    exact ⟨text,by rw [text?,hfound]; rfl,List.mem_of_find?_eq_some hfound⟩
  case isFalse => split at hkind <;> cases hkind

namespace Problem

theorem ofText_of_mapping {text : String} {e : Entries} (h : format.read text = .ok (.mapping e))
    (path defaultName : String) : ofText format path defaultName text = (parse e defaultName).mapError .problem := by
  rw [ofText,h]

theorem ofText_ok {path defaultName text : String} (h : ofText format path defaultName text = .ok p) :
    ∃ e, parse e defaultName = .ok p := by
  unfold ofText at h
  split at h
  · cases h
  · cases h
  · exact ⟨_,eq_ok_of_mapError h⟩
  · exact ⟨_,eq_ok_of_mapError h⟩
  · cases h

theorem kind_of_load (h : (load (Disk.access format) l).run d = (.ok p,d')) : d.kind l = .file := by
  have hkind : (Disk.access format).kind l d = (d.kind l,d) := rfl
  unfold load StateT.run at h
  rw [run_bind hkind] at h
  cases hfile : d.kind l with
  | missing =>
    rw [hfile] at h
    cases h
  | directory =>
    rw [hfile] at h
    cases h
  | file => rfl

theorem readable_of_load (hnamed : ∀ f ∈ d.files, Location.name f.1 ≠ "")
    (h : (load (Disk.access format) l).run d = (.ok p,d')) : p.Readable := by
  have hfile := kind_of_load h
  obtain ⟨text,htext,hmem⟩ := Disk.exists_text_of_kind hfile
  rw [load_of_file hfile htext] at h
  obtain ⟨e,hparse⟩ := ofText_ok (eq_ok_of_mapError (congrArg Prod.fst h))
  have hname : nameOfFile l ≠ "" := by
    refine ofList_ne_empty (Path.withoutExtension_ne_nil ?_)
    simpa using hnamed _ hmem
  exact readable_of_parse hname hparse

theorem load_of_save (hp : p.Readable) (hsave : (save (Disk.access format) l p).run d = (.ok (),d'))
    (hread : format.read (format.write p.toValue) = .ok p.toValue) :
    (load (Disk.access format) l).run d' = (.ok p,d') := by
  obtain ⟨rfl,_⟩ := save_eq_ok_iff.mp hsave
  rw [load_of_file (kind_write d l _) (text?_write d l _),ofText_toText hp hread]
  rfl

/-- Of all that reading checks, trimming changes nothing. -/
theorem Readable.trimmed (hp : p.Readable) : (CommandLine.trimmedProblem p result).Readable :=
  ⟨hp.name_ne,hp.count,hp.algorithm,hp.continuation,hp.work,hp.seconds⟩

end Problem

namespace CommandLine
open Problem

/-! ## Words -/

theorem invocation?_of_word {name : String} (hname : ¬ name.startsWith "-") (rest : List String) :
    invocation? (name :: rest) = (command? name rest).map (Invocation.mk false) := by
  have hdashes : name ≠ "--" := fun h => hname (by rw [h]; decide +kernel)
  have hsort : sort? globalRules false (name :: rest) = some ⟨[],name :: rest⟩ := by
    rw [sort?,if_neg hdashes,if_neg fun h => hname h.1,if_neg Bool.false_ne_true]
  unfold invocation?
  rw [hsort]
  show (if name.startsWith "-" = true then _ else _) = _
  rw [if_neg hname]
  cases command? name rest <;> rfl

theorem sort?_word {rules : List OptionRule} {arg : String} (harg : ¬ arg.startsWith "-") (rest : List String) :
    sort? rules true (arg :: rest) = (sort? rules true rest).map fun s => { s with others := arg :: s.others } := by
  have hdashes : arg ≠ "--" := fun h => harg (by rw [h]; decide +kernel)
  rw [sort?,if_neg hdashes,if_neg fun h => harg h.1,if_pos rfl]

theorem invocation?_trim {file output w : String} {n : Int} (hfile : ¬ file.startsWith "-") (hw : int? w = some n)
    (hn : 1 ≤ n) : invocation? ["trim",file,"--no-sort","--output",output,"--work-limit",w] =
      some ⟨false,.trim file none none (some false) false (some output) ⟨some n,none⟩⟩ := by
  rw [invocation?_of_word (by decide +kernel)]
  simp [command?,trim?,sort?_word hfile,sort?,cutEquals,commonRules,flagRule,valueRule,Sorted.has,limits?,file?,
    Sorted.last?,Sorted.switch,hw,Int.not_lt.mpr hn]

theorem invocation?_verify {path w : String} {n : Int} (hpath : ¬ path.startsWith "-") (hw : int? w = some n)
    (hn : 1 ≤ n) : invocation? ["verify",path,"--no-check-winner","--work-limit",w] =
      some ⟨false,.verify [path] false (some false) false ⟨some n,none⟩⟩ := by
  rw [invocation?_of_word (by decide +kernel)]
  simp [command?,verify?,sort?_word hpath,sort?,cutEquals,commonRules,flagRule,valueRule,Sorted.has,limits?,
    Sorted.last?,Sorted.switch,hw,Int.not_lt.mpr hn]

theorem run_of_runCommand {args : List String} {i : Invocation} {r : Run} (hargs : invocation? args = some i)
    (h : (runCommand (Disk.access format) here i.verbose i.command).run d = (r,d')) :
    (run (Disk.access format) here args).run d = (r,d') := by
  unfold run
  rw [hargs]
  exact h

/-! ## Reports on the standard output -/

theorem markdownText_of_encodable {lines : List Text} (h : AllEncodable lines) : ∃ text, markdownText lines = .ok text := by
  have henc := Text.isEncodable_withoutControls (Report.isEncodable_text h)
  unfold markdownText
  rw [Text.encode_of_isEncodable henc]
  exact ⟨_,rfl⟩

/-! ## The verification of one file -/

section Verify
variable {path : String} {s : VerifyStyle} {report : ContestReport}

theorem verifyAll_success (hjson : s.json = false) (hp : p.Printable) (h : verifyProblem s p = .ok report)
    (hproven : report.status = .proven) : (verifyAll s [p]).code = Run.success := by
  obtain ⟨text,htext⟩ := markdownText_of_encodable (Report.encodable_verification hp report s.trees)
  unfold verifyAll verifyEach
  rw [h]
  dsimp only
  rw [hjson,htext,hproven]
  rfl

theorem targets_of_targetAll {paths : List String} {found : List Location}
    (h : ((Disk.access format).targetAll here paths).run d = (.ok found,d)) :
    ((Disk.access format).targets here paths).run d = (.ok (found.eraseDups.mergeSort Files.notAfter),d) := run_bind h

theorem targets_singleton (h : ((Disk.access format).lookup here (Path.normal path)).run d = (.found l,d)) :
    ((Disk.access format).targets here [path]).run d = (.ok [l],d) := by
  have htarget : (Disk.access format).target here path d = (.ok [l],d) := run_bind h
  have hall : (Disk.access format).targetAll here [path] d = (.ok [l],d) := run_bind htarget
  rw [targets_of_targetAll hall,show [l].eraseDups = [l] from rfl,List.mergeSort_singleton]

theorem loadAll_singleton (h : (load (Disk.access format) l).run d = (.ok p,d)) :
    (loadAll (Disk.access format) [l]).run d = (.ok [p],d) := run_bind h

theorem runVerify_of_lookup (hfound : ((Disk.access format).lookup here (Path.normal path)).run d = (.found l,d))
    (hload : (load (Disk.access format) l).run d = (.ok p,d)) :
    (runVerify (Disk.access format) here [path] s).run d = (verifyAll s [p],d) := by
  unfold runVerify
  refine (run_bind (targets_singleton hfound)).trans ?_
  exact run_bind (loadAll_singleton hload)

end Verify

/-! ## The trimming of one file -/

section Trim
variable {s : TrimStyle} {chosen : TrimAlgorithm} {policy : Option Policy} {budget : Budget} {file output : String}
  {algorithm continuation : Option String} {r : Run}

theorem TrimOutcome.eq_trimmed_of_code {outcome : RunoffAudit.TrimOutcome}
    (h : TrimOutcome.code outcome = Run.success) : outcome = .trimmed := by
  cases outcome with
  | trimmed => rfl
  | _ => cases h

/-- A trimming that ends well has dropped what is not needed, and the problem may be written. -/
theorem trimProblem_success (h : (trimProblem s p chosen policy).1.code = Run.success) :
    ∃ budget result, budgetOf p s.limits = .ok budget ∧
      (trim p.n (some p.winner) p.assertions ⟨chosen,policy,s.sort.getD p.sortAssertions⟩ budget).1 = .ok result ∧
      result.outcome = .trimmed ∧ (trimProblem s p chosen policy).2 = some (trimmedProblem p result) := by
  unfold trimProblem at h ⊢
  cases hbudget : budgetOf p s.limits with
  | error e =>
    rw [hbudget] at h
    cases h
  | ok budget =>
    rw [hbudget] at h
    dsimp only at h ⊢
    rcases hscreened : ((trimScreened p.n (some p.winner) p.assertions
        ⟨chosen,policy,s.sort.getD p.sortAssertions⟩).run budget).1 with e | e | result
    · rw [hscreened] at h
      cases h
    · rw [hscreened] at h
      cases h
    · rw [hscreened] at h
      dsimp only at h ⊢
      rcases htext : (if s.json then jsonText (withName p result.toValue) else trimmingText p result) with f | text
      · rw [htext] at h
        cases h
      · rw [htext] at h
        have htrimmed := TrimOutcome.eq_trimmed_of_code h
        have hwritten : isWritten result = true := by rw [isWritten,htrimmed]
        refine ⟨budget,result,rfl,eq_of_afterScreen hscreened,htrimmed,?_⟩
        dsimp only
        rw [hwritten]
        rfl

/-- The report on a trimming in a problem whose assertions can be put in words. -/
theorem trimProblem_of_trimmed (hjson : s.json = false) (hbudget : budgetOf p s.limits = .ok budget)
    (hresult : (trim p.n (some p.winner) p.assertions ⟨chosen,policy,s.sort.getD p.sortAssertions⟩ budget).1 = .ok result)
    (htrimmed : result.outcome = .trimmed) (hshort : result.assertions.all Assertion.isWritable = true)
    (hprintable : AllEncodable (Report.trimming p result)) :
    (trimProblem s p chosen policy).1.code = Run.success ∧
      (trimProblem s p chosen policy).2 = some (trimmedProblem p result) := by
  obtain ⟨text,htext⟩ := markdownText_of_encodable hprintable
  have hnone := contestFaults_of_trimmed hresult htrimmed
  have hscreened : ((trimScreened p.n (some p.winner) p.assertions
      ⟨chosen,policy,s.sort.getD p.sortAssertions⟩).run budget).1 = .ok (.ok result) := by
    unfold trimScreened
    rw [afterScreen_of_ok (screen_eq_nil_iff.mpr hnone)]
    exact congrArg Except.ok hresult
  have hwritten : isWritten result = true := by rw [isWritten,htrimmed]
  unfold trimProblem
  rw [hbudget]
  dsimp only
  rw [hscreened]
  dsimp only
  rw [hjson,trimmingText,if_neg Bool.false_ne_true,if_pos hshort,htext]
  dsimp only
  rw [htrimmed,hwritten]
  exact ⟨rfl,rfl⟩

theorem withFile_of_load {path : String} (hpath : ((Disk.access format).lookup here path).run d = (.found l,d))
    (hload : (load (Disk.access format) l).run d = (.ok p,d))
    (run : Problem → StateM Disk Run) : (withFile (Disk.access format) here path run).run d = (run p).run d := by
  have hkind : (Disk.access format).kind l d = (d.kind l,d) := rfl
  unfold withFile
  refine (run_bind hpath).trans ?_
  dsimp only
  rw [run_bind hkind,if_neg (by simpa using kind_of_load hload)]
  exact run_bind hload

theorem runTrim_of_load (hpath : ((Disk.access format).lookup here file).run d = (.found l,d))
    (hload : (load (Disk.access format) l).run d = (.ok p,d))
    (hchosen : (algorithm.map TrimAlgorithm.named?).getD (some p.algorithm) = some chosen)
    (hpolicy : (continuation.map fun w => (Policy.named? w).map some).getD (some p.continuation) = some policy) :
    (runTrim (Disk.access format) here file algorithm continuation (some output) s).run d =
      match (trimProblem s p chosen policy).2 with
      | none => ((trimProblem s p chosen policy).1,d)
      | some q =>
        match (save (Disk.access format) (Location.resolve here output) q).run d with
        | (.error e,d') => ({ (trimProblem s p chosen policy).1 with ending := .failed (.save e) },d')
        | (.ok (),d') => ({ (trimProblem s p chosen policy).1 with
            stdout := (trimProblem s p chosen policy).1.stdout ++ if s.json then []
              else [Text.line ("Trimmed problem written to: " ++ (Location.resolve here output).text)] },d') := by
  unfold runTrim
  rw [withFile_of_load hpath hload,hchosen,hpolicy]
  dsimp only
  rcases (trimProblem s p chosen policy).2 with _ | q
  · rfl
  · dsimp only
    rcases hsave : (save (Disk.access format) (Location.resolve here output) q).run d with ⟨e | ⟨⟩,d₁⟩
    · exact run_bind hsave
    · exact run_bind hsave

end Trim
end CommandLine
end RunoffAudit
