import RunoffAudit.Proofs.Admission
import RunoffAudit.Proofs.FileCommands

/-! # What trimming writes can be verified

A trimming that ends well has written the problem with the kept assertions and with the same limits. Verifying that file
starts from an equal budget and visits no more nodes, so it ends well too. For this the file must be found: it was
written where its path resolves to, and the path leads there unless it goes back from a directory that is missing. And
the report must be printed, which takes names that can be encoded.
-/
namespace RunoffAudit.CommandLine
open Metered Problem

variable {format : DocumentFormat} {d d' : Disk} {here l m : Location} {p q : Problem} {result : TrimResult}
  {budget : Budget} {r : Run}

theorem budgetOf_ok {limits : LimitArguments} (h : budgetOf p limits = .ok budget) :
    budget.workDone = 0 ∧ ∀ w, (limits.work.orElse fun _ => p.limits.work) = some w →
      0 < w ∧ budget.workLimit = some w.toNat := by
  unfold budgetOf Budget.make at h
  split at h
  · cases h
  case isFalse hwork =>
    split at h
    · cases h
    · cases h
      refine ⟨rfl,?_⟩
      intro w hw
      rw [hw] at hwork ⊢
      exact ⟨Int.not_le.mp (by simpa using hwork),rfl⟩

/-! ## A trimming that ends well -/

/-- What the words of a command line can ask for: a trimming whose result is written. -/
structure TrimWords where
  file : String
  algorithm : Option String
  continuation : Option String
  output : String
  style : TrimStyle

namespace TrimWords

def command (t : TrimWords) : Command :=
  .trim t.file t.algorithm t.continuation t.style.sort t.style.json (some t.output) t.style.limits

def algorithmFor (t : TrimWords) (p : Problem) : Option TrimAlgorithm :=
  (t.algorithm.map TrimAlgorithm.named?).getD (some p.algorithm)

/-- The policy of the search, if it is not left to the algorithm. -/
def policyFor (t : TrimWords) (p : Problem) : Option (Option Policy) :=
  (t.continuation.map fun w => (Policy.named? w).map some).getD (some p.continuation)

/-- The words, or else the settings of the problem, lead to a trimming with this result. -/
structure TrimsTo (t : TrimWords) (p : Problem) (budget : Budget) (result : TrimResult) : Prop where
  granted : budgetOf p t.style.limits = .ok budget
  returned : ∃ chosen policy, t.algorithmFor p = some chosen ∧ t.policyFor p = some policy ∧
    (trim p.n (some p.winner) p.assertions ⟨chosen,policy,t.style.sort.getD p.sortAssertions⟩ budget).1 = .ok result
  trimmed : result.outcome = .trimmed

/-- The program is run in the directory `here` with arguments that come down to these words. It finds the problem `p`,
trims it by a search, ends well, and leaves the disk `d'`. -/
structure Runs (format : DocumentFormat) (here : Location) (d d' : Disk) (t : TrimWords) (args : List String)
    (p : Problem) : Prop where
  named : ∀ f ∈ d.files, Location.name f.1 ≠ ""
  directory : d.kind here = .directory
  words : invocation? args = some ⟨t.style.verbose,t.command⟩
  loads : ∃ l, ((Disk.access format).lookup here t.file).run d = (.found l,d) ∧
    (load (Disk.access format) l).run d = (.ok p,d)
  searches : t.algorithmFor p ≠ some .keepAll
  ends : ∃ r, (run (Disk.access format) here args).run d = (r,d') ∧ r.code = Run.success

end TrimWords

variable {t : TrimWords} {args : List String}

theorem runTrim_success (hpath : ((Disk.access format).lookup here t.file).run d = (.found l,d))
    (hload : (load (Disk.access format) l).run d = (.ok p,d))
    (hrun : (runCommand (Disk.access format) here t.style.verbose t.command).run d = (r,d'))
    (hcode : r.code = Run.success) :
    ∃ budget result, t.TrimsTo p budget result ∧
      (save (Disk.access format) (Location.resolve here t.output) (trimmedProblem p result)).run d = (.ok (),d') := by
  have hrun : (runTrim (Disk.access format) here t.file t.algorithm t.continuation (some t.output) t.style).run d =
    (r,d') := hrun
  cases hchosen : t.algorithmFor p with
  | none =>
    have hchosen : (t.algorithm.map TrimAlgorithm.named?).getD (some p.algorithm) = none := hchosen
    unfold runTrim at hrun
    rw [withFile_of_load hpath hload,hchosen] at hrun
    cases hrun
    cases hcode
  | some chosen =>
    have hchosen' : (t.algorithm.map TrimAlgorithm.named?).getD (some p.algorithm) = some chosen := hchosen
    cases hpolicy : t.policyFor p with
    | none =>
      have hpolicy : (t.continuation.map fun w => (Policy.named? w).map some).getD (some p.continuation) = none := hpolicy
      unfold runTrim at hrun
      rw [withFile_of_load hpath hload,hchosen',hpolicy] at hrun
      cases hrun
      cases hcode
    | some policy =>
      rw [runTrim_of_load hpath hload hchosen' hpolicy] at hrun
      -- the code of the run is the code of the report, unless the file could not be written
      have hwritten : (trimProblem t.style p chosen policy).1.code = Run.success → _ := trimProblem_success
      rcases htrim : (trimProblem t.style p chosen policy).2 with _ | q
      · rw [htrim] at hrun hwritten
        cases hrun
        obtain ⟨_,_,_,_,_,hnone⟩ := hwritten hcode
        cases hnone
      · rw [htrim] at hrun hwritten
        dsimp only at hrun
        rcases hsave : (save (Disk.access format) (Location.resolve here t.output) q).run d with ⟨e | ⟨⟩,d₁⟩
        · rw [hsave] at hrun
          cases hrun
          cases hcode
        · rw [hsave] at hrun
          cases hrun
          obtain ⟨budget,result,hbudget,hresult,htrimmed,hsome⟩ := hwritten hcode
          cases hsome
          exact ⟨budget,result,⟨hbudget,⟨chosen,policy,hchosen,hpolicy,hresult⟩,htrimmed⟩,hsave⟩

theorem run_of_trimsTo (hpath : ((Disk.access format).lookup here t.file).run d = (.found l,d))
    (hload : (load (Disk.access format) l).run d = (.ok p,d)) (hjson : t.style.json = false)
    (hwords : invocation? args = some ⟨t.style.verbose,t.command⟩) (htrims : t.TrimsTo p budget result)
    (hshort : result.assertions.all Assertion.isWritable = true) (hprintable : AllEncodable (Report.trimming p result))
    (hsave : (save (Disk.access format) (Location.resolve here t.output) (trimmedProblem p result)).run d = (.ok (),d')) :
    ∃ r, (run (Disk.access format) here args).run d = (r,d') ∧ r.code = Run.success := by
  obtain ⟨hbudget,⟨chosen,policy,hchosen,hpolicy,hresult⟩,htrimmed⟩ := htrims
  obtain ⟨hcode,hwritten⟩ := trimProblem_of_trimmed hjson hbudget hresult htrimmed hshort hprintable
  have hrun : (runCommand (Disk.access format) here t.style.verbose t.command).run d = _ :=
    runTrim_of_load hpath hload hchosen hpolicy
  rw [hwritten] at hrun
  dsimp only at hrun
  rw [hsave] at hrun
  exact ⟨_,run_of_runCommand hwords hrun,hcode⟩

/-- A trimmed problem ends well when it is verified on the limits of the trimming: it has the same limits of its own, so
it is given the same budget. -/
theorem verifyProblem_trimmed (hsearches : t.algorithmFor p ≠ some .keepAll) (h : t.TrimsTo p budget result) :
    result.original = p.assertions ∧ budget.Admits result.nodesExplored ∧
      ∀ verbose json trees, ∃ report,
        verifyProblem ⟨verbose,json,some false,trees,t.style.limits⟩ (trimmedProblem p result) = .ok report ∧
          report.status = .proven ∧ report.nodesExplored ≤ result.nodesExplored := by
  obtain ⟨hbudget,⟨chosen,policy,hchosen,_,hresult⟩,htrimmed⟩ := h
  have hsearched : chosen ≠ .keepAll := fun h => hsearches (h ▸ hchosen)
  obtain ⟨horiginal,hadmits,hnone,hproven,hnodes⟩ := verifyContest_kept hsearched hresult htrimmed
  have hgranted : (budgetOf (trimmedProblem p result) t.style.limits).mapError Failure.limit = .ok budget :=
    congrArg (Except.mapError Failure.limit) hbudget
  rw [(budgetOf_ok hbudget).1,Nat.zero_add] at hnodes
  refine ⟨horiginal,hadmits,fun verbose json trees => ⟨_,?_,hproven,hnodes⟩⟩
  have hscreened : (verifyContestScreened p.n (some p.winner) result.assertions false budget).1 =
      .ok (verifyContest p.n (some p.winner) result.assertions false budget).1 := by
    unfold verifyContestScreened
    rw [afterScreen_of_ok (screen_eq_nil_iff.mpr hnone)]
    rfl
  unfold verifyProblem
  rw [bind_eq_of_ok hgranted]
  exact congrArg (Except.mapError Failure.digits) hscreened

/-! ## One after the other -/

/-- What was written is read as the problem with the kept assertions, and the command that verifies it ends well if its
path leads to a file and the names can be printed. -/
structure TrimWords.Verifies (format : DocumentFormat) (here : Location) (d' : Disk) (t : TrimWords) (q : Problem) :
    Prop where
  loads : (load (Disk.access format) (Location.resolve here t.output)).run d' = (.ok q,d')
  found : ∀ m, ((Disk.access format).lookup here (Path.normal t.output)).run d' = (.found m,d') →
    m = Location.resolve here t.output
  ends : ∀ m, ((Disk.access format).lookup here (Path.normal t.output)).run d' = (.found m,d') → q.Printable →
    ∀ args verbose trees,
      invocation? args = some ⟨verbose,.verify [t.output] false (some false) trees t.style.limits⟩ →
      ∃ r, (run (Disk.access format) here args).run d' = (r,d') ∧ r.code = Run.success

/-- What has become of the problem `p` by a trimming that left the disk `d'`. -/
structure TrimWords.Leaves (format : DocumentFormat) (here : Location) (d' : Disk) (t : TrimWords) (p : Problem)
    (result : TrimResult) : Prop where
  original : result.original = p.assertions
  within : ∀ w, (t.style.limits.work.orElse fun _ => p.limits.work) = some w → (result.nodesExplored : Int) ≤ w
  proven : ∀ verbose json trees, ∃ report,
    verifyProblem ⟨verbose,json,some false,trees,t.style.limits⟩ (trimmedProblem p result) = .ok report ∧
      report.status = .proven ∧ report.nodesExplored ≤ result.nodesExplored
  /-- A path that never goes back to a parent leads to the file. -/
  leads : ".." ∉ Path.components t.output → (Path.normal t.output).utf8ByteSize < Location.pathLimit →
    ((Disk.access format).lookup here (Path.normal t.output)).run d' = (.found (Location.resolve here t.output),d')
  verifies : format.read (format.write (trimmedProblem p result).toValue) = .ok (trimmedProblem p result).toValue →
    t.Verifies format here d' (trimmedProblem p result)

/-- If the program trims a problem file by a search, writes what it keeps and ends well, whatever the format of the
files is, the trimming explored no more nodes than the limit allows. If the text written is read back as the document it
stands for, the file holds the problem with the kept assertions, and verifying it on the same limits ends well if the
file is found under its path and its names can be printed. -/
theorem written_trim_verifies (h : t.Runs format here d d' args p) :
    ∃ budget result, t.TrimsTo p budget result ∧ t.Leaves format here d' p result := by
  obtain ⟨l,hlookup,hload⟩ := h.loads
  obtain ⟨r,hrun,hcode⟩ := h.ends
  have hreadable := readable_of_load h.named hload
  rcases hcommand : (runCommand (Disk.access format) here t.style.verbose t.command).run d with ⟨r₁,d₁⟩
  rw [run_of_runCommand h.words hcommand] at hrun
  cases hrun
  obtain ⟨budget,result,htrims,hsave⟩ := runTrim_success hlookup hload hcommand hcode
  obtain ⟨horiginal,hadmits,hproven⟩ := verifyProblem_trimmed h.searches htrims
  refine ⟨budget,result,htrims,horiginal,?within,hproven,?leads,?verifies⟩
  case within =>
    intro w hw
    obtain ⟨hfresh,hlimit⟩ := budgetOf_ok htrims.granted
    obtain ⟨hpositive,hwork⟩ := hlimit w hw
    have hle : result.nodesExplored ≤ w.toNat := hadmits.le_limit hfresh hwork
    omega
  case leads => exact fun hparent hsize => lookup_of_save h.named h.directory hparent hsize hsave
  case verifies =>
    intro hread
    have hloaded := load_of_save hreadable.trimmed hsave hread
    refine ⟨hloaded,fun m hm => Disk.eq_of_lookup_normal hm,?_⟩
    intro m hm hprintable args verbose trees hargs
    obtain rfl := Disk.eq_of_lookup_normal hm
    obtain ⟨report,hverified,hstatus,_⟩ := hproven verbose false trees
    exact ⟨_,run_of_runCommand hargs (runVerify_of_lookup hm hloaded),verifyAll_success rfl hprintable hverified hstatus⟩

/-! ## Files that are found again, and files that are not -/

def trimArgs (output limit : String) : List String :=
  ["trim","f.yaml","--no-sort","--output",output,"--work-limit",limit]

def verifyArgs (path limit : String) : List String := ["verify",path,"--no-check-winner","--work-limit",limit]

def trimWords (output : String) (limit : Int) : TrimWords :=
  ⟨"f.yaml",none,none,output,⟨false,false,some false,⟨some limit,none⟩⟩⟩

/-- A problem file in which one assertion stands twice. -/
def twiceText : String :=
  "num_candidates: 2\nwinner: 0\nassertions:\n" ++
    "- \x7btype: NEB, winner: 0, loser: 1\x7d\n- \x7btype: NEB, winner: 0, loser: 1\x7d"

def twiceProblem : Problem := ⟨"f",2,0,[.neb 0 1,.neb 0 1],[],.minimizeTree,none,true,false,⟨none,none⟩⟩

def onceProblem : Problem := { twiceProblem with assertions := [.neb 0 1], sortAssertions := false }

def twiceDisk : Disk := ⟨[],[(["","f.yaml"],twiceText)]⟩

def twiceTokens : List Yaml.Token :=
  [.blockMapping,.key,.plain "num_candidates",.value,.plain "2",.key,.plain "winner",.value,.plain "0",
    .key,.plain "assertions",.value,
    .blockEntry,.flowMapping,.key,.plain "type",.value,.plain "NEB",.flowEntry,.key,.plain "winner",.value,.plain "0",
    .flowEntry,.key,.plain "loser",.value,.plain "1",.flowMappingEnd,
    .blockEntry,.flowMapping,.key,.plain "type",.value,.plain "NEB",.flowEntry,.key,.plain "winner",.value,.plain "0",
    .flowEntry,.key,.plain "loser",.value,.plain "1",.flowMappingEnd,.blockEnd]

theorem twiceText_tokens :
    (Yaml.tokens (Yaml.normalizeBreaks twiceText.toList)).toOption = some twiceTokens := by decide +kernel

def onceTokens : List Yaml.Token :=
  [.blockMapping,.key,.plain "schema_version",.value,.quoted [49],.key,.plain "name",.value,.plain "f",
    .key,.plain "num_candidates",.value,.plain "2",.key,.plain "winner",.value,.plain "0",
    .key,.plain "assertions",.value,.blockEntry,.blockMapping,.key,.plain "type",.value,.plain "NEB",
    .key,.plain "winner",.value,.plain "0",.key,.plain "loser",.value,.plain "1",.blockEnd,
    .key,.plain "trim_algorithm",.value,.plain "minimize_tree",.key,.plain "sort_assertions",.value,.plain "false",
    .key,.plain "check_winner",.value,.plain "false",.blockEnd]

theorem onceProblem_tokens :
    (Yaml.tokens (Yaml.normalizeBreaks (Yaml.write onceProblem.toValue).toList)).toOption = some onceTokens := by
  decide +kernel

theorem onceProblem_yaml : Yaml.read (Yaml.write onceProblem.toValue) = .ok onceProblem.toValue := by
  unfold Yaml.read
  rw [eq_ok_of_toOption onceProblem_tokens]
  rfl

def twiceEntries : Entries :=
  [(.text "num_candidates",.int 2),(.text "winner",.int 0),
    (.text "assertions",.list [(Assertion.neb 0 1).toValue,(Assertion.neb 0 1).toValue])]

theorem twiceText_yaml : Yaml.read twiceText = .ok (.mapping twiceEntries) := by
  unfold Yaml.read
  rw [eq_ok_of_toOption twiceText_tokens]
  rfl

theorem twiceDisk_load :
    (load (Disk.access .yaml) ["","f.yaml"]).run twiceDisk = (.ok twiceProblem,twiceDisk) := by
  have hread : DocumentFormat.yaml.read twiceText = .ok (.mapping twiceEntries) := twiceText_yaml
  rw [load_of_file (by decide) rfl,ofText_of_mapping hread]
  rfl

def onceDisk : Disk := twiceDisk.write ["","g.yaml"] (onceProblem.toText .yaml)

theorem twiceDisk_save : (save (Disk.access .yaml) ["","g.yaml"] onceProblem).run twiceDisk = (.ok (),onceDisk) :=
  save_eq_ok_iff.mpr ⟨rfl,by decide +kernel,by decide,⟨by decide,by decide,by decide,by decide,trivial⟩,by decide,by decide⟩

theorem twiceProblem_printable : twiceProblem.Printable := ⟨rfl,nofun⟩

/-- The problem is trimmed with the work that its search and the choice take, and written under any path that resolves
to `g.yaml`. -/
theorem trim_twice {output : String} (houtput : Location.resolve [""] output = ["","g.yaml"]) :
    ∃ r, (run (Disk.access .yaml) [""] (trimArgs output "2")).run twiceDisk = (r,onceDisk) ∧ r.code = Run.success := by
  have hwords : invocation? (trimArgs output "2") = some ⟨false,(trimWords output 2).command⟩ :=
    invocation?_trim (by decide +kernel) rfl (by decide)
  have hpath : ((Disk.access .yaml).lookup [""] "f.yaml").run twiceDisk = (.found ["","f.yaml"],twiceDisk) := rfl
  obtain ⟨budget,result,htrims,hkept⟩ : ∃ budget result, (trimWords output 2).TrimsTo twiceProblem budget result ∧
    result.assertions = [.neb 0 1] := ⟨_,_,⟨rfl,⟨_,_,rfl,rfl,rfl⟩,rfl⟩,rfl⟩
  have hwritten : trimmedProblem twiceProblem result = onceProblem := by rw [trimmedProblem,hkept]; rfl
  refine run_of_trimsTo hpath twiceDisk_load rfl hwords htrims ?short ?printable ?saved
  case short =>
    rw [hkept]
    decide +kernel
  case printable =>
    exact Report.encodable_trimming rfl fun a _ => a.isEncodable_describe twiceProblem_printable.candidateNames
  case saved =>
    show (save (Disk.access .yaml) (Location.resolve [""] output) _).run twiceDisk = _
    rw [hwritten,houtput]
    exact twiceDisk_save

theorem written_trim_verifies_twice :
    (trimWords "g.yaml" 2).Runs .yaml [""] twiceDisk onceDisk (trimArgs "g.yaml" "2") twiceProblem ∧
    (load (Disk.access .yaml) ["","g.yaml"]).run onceDisk = (.ok onceProblem,onceDisk) ∧
    ∃ r, (run (Disk.access .yaml) [""] (verifyArgs "g.yaml" "2")).run onceDisk = (r,onceDisk) ∧ r.code = Run.success := by
  have hruns : (trimWords "g.yaml" 2).Runs .yaml [""] twiceDisk onceDisk (trimArgs "g.yaml" "2") twiceProblem := by
    constructor
    case named => decide
    case directory => decide
    case words => exact invocation?_trim (by decide +kernel) rfl (by decide)
    case loads => exact ⟨["","f.yaml"],rfl,twiceDisk_load⟩
    case searches => decide
    case ends => exact trim_twice rfl
  obtain ⟨budget,result,htrims,hleaves⟩ := written_trim_verifies hruns
  have hresult : trimmedProblem twiceProblem result = onceProblem := by
    obtain ⟨hbudget,⟨chosen,policy,hchosen,hpolicy,htrim⟩,_⟩ := htrims
    cases hbudget
    cases hchosen
    cases hpolicy
    cases htrim
    rfl
  have hverifies := hleaves.verifies (hresult ▸ onceProblem_yaml)
  rw [hresult] at hverifies
  refine ⟨hruns,hverifies.loads,?_⟩
  have hfound := hleaves.leads (by decide) (by decide)
  exact hverifies.ends _ hfound ⟨rfl,nofun⟩ _ _ _
    (invocation?_verify (by decide +kernel) rfl (by decide))

/-- A problem file in which a candidate that no assertion names has half of a pair for a name. -/
def loneText : String :=
  "num_candidates: 3\nwinner: 0\ncandidates: [a, b, \"\\ud800\"]\nassertions:\n" ++
    "- \x7btype: NEB, winner: 0, loser: 1\x7d\n- \x7btype: NEB, winner: 1, loser: 0\x7d"

def loneProblem : Problem :=
  ⟨"f",3,0,[.neb 0 1,.neb 1 0],["a","b",⟨[0xd800]⟩],.minimizeTree,none,true,false,⟨none,none⟩⟩

/-- Trimming keeps both assertions. -/
def loneKept : Problem := { loneProblem with sortAssertions := false }

def loneDisk : Disk := ⟨[],[(["","f.yaml"],loneText)]⟩

def loneTokens : List Yaml.Token :=
  [.blockMapping,.key,.plain "num_candidates",.value,.plain "3",.key,.plain "winner",.value,.plain "0",
    .key,.plain "candidates",.value,.flowSequence,.plain "a",.flowEntry,.plain "b",.flowEntry,.quoted [0xd800],
    .flowSequenceEnd,.key,.plain "assertions",.value,
    .blockEntry,.flowMapping,.key,.plain "type",.value,.plain "NEB",.flowEntry,.key,.plain "winner",.value,.plain "0",
    .flowEntry,.key,.plain "loser",.value,.plain "1",.flowMappingEnd,
    .blockEntry,.flowMapping,.key,.plain "type",.value,.plain "NEB",.flowEntry,.key,.plain "winner",.value,.plain "1",
    .flowEntry,.key,.plain "loser",.value,.plain "0",.flowMappingEnd,.blockEnd]

theorem loneText_tokens :
    (Yaml.tokens (Yaml.normalizeBreaks loneText.toList)).toOption = some loneTokens := by decide +kernel

def loneEntries : Entries :=
  [(.text "num_candidates",.int 3),(.text "winner",.int 0),
    (.text "candidates",.list [.text "a",.text "b",.codes [0xd800]]),
    (.text "assertions",.list [(Assertion.neb 0 1).toValue,(Assertion.neb 1 0).toValue])]

theorem loneText_yaml : Yaml.read loneText = .ok (.mapping loneEntries) := by
  unfold Yaml.read
  rw [eq_ok_of_toOption loneText_tokens]
  rfl

theorem loneDisk_load : (load (Disk.access .yaml) ["","f.yaml"]).run loneDisk = (.ok loneProblem,loneDisk) := by
  have hread : DocumentFormat.yaml.read loneText = .ok (.mapping loneEntries) := loneText_yaml
  rw [load_of_file (by decide) rfl,ofText_of_mapping hread]
  rfl

def loneKeptTokens : List Yaml.Token :=
  [.blockMapping,.key,.plain "schema_version",.value,.quoted [49],.key,.plain "name",.value,.plain "f",
    .key,.plain "num_candidates",.value,.plain "3",.key,.plain "winner",.value,.plain "0",
    .key,.plain "assertions",.value,.blockEntry,.blockMapping,.key,.plain "type",.value,.plain "NEB",
    .key,.plain "winner",.value,.plain "0",.key,.plain "loser",.value,.plain "1",.blockEnd,
    .blockEntry,.blockMapping,.key,.plain "type",.value,.plain "NEB",
    .key,.plain "winner",.value,.plain "1",.key,.plain "loser",.value,.plain "0",.blockEnd,
    .key,.plain "trim_algorithm",.value,.plain "minimize_tree",.key,.plain "sort_assertions",.value,.plain "false",
    .key,.plain "check_winner",.value,.plain "false",
    .key,.plain "candidates",.value,.blockEntry,.plain "a",.blockEntry,.plain "b",.blockEntry,.quoted [0xd800],.blockEnd]

theorem loneKept_tokens :
    (Yaml.tokens (Yaml.normalizeBreaks (Yaml.write loneKept.toValue).toList)).toOption = some loneKeptTokens := by
  decide +kernel

theorem loneKept_yaml : Yaml.read (Yaml.write loneKept.toValue) = .ok loneKept.toValue := by
  unfold Yaml.read
  rw [eq_ok_of_toOption loneKept_tokens]
  rfl

def loneKeptDisk : Disk := loneDisk.write ["","g.yaml"] (loneKept.toText .yaml)

theorem loneDisk_save : (save (Disk.access .yaml) ["","g.yaml"] loneKept).run loneDisk = (.ok (),loneKeptDisk) :=
  save_eq_ok_iff.mpr ⟨rfl,by decide +kernel,by decide,⟨by decide,by decide,by decide,by decide,trivial⟩,by decide,by decide⟩

/-- The report on the trimming does not name the third candidate. -/
theorem trim_lone :
    ∃ r, (run (Disk.access .yaml) [""] (trimArgs "g.yaml" "9")).run loneDisk = (r,loneKeptDisk) ∧
      r.code = Run.success := by
  have hwords : invocation? (trimArgs "g.yaml" "9") = some ⟨false,(trimWords "g.yaml" 9).command⟩ :=
    invocation?_trim (by decide +kernel) rfl (by decide)
  have hpath : ((Disk.access .yaml).lookup [""] "f.yaml").run loneDisk = (.found ["","f.yaml"],loneDisk) := rfl
  obtain ⟨budget,result,htrims,hkept⟩ : ∃ budget result, (trimWords "g.yaml" 9).TrimsTo loneProblem budget result ∧
    result.assertions = [.neb 0 1,.neb 1 0] := ⟨_,_,⟨rfl,⟨_,_,rfl,rfl,rfl⟩,rfl⟩,rfl⟩
  have hwritten : trimmedProblem loneProblem result = loneKept := by rw [trimmedProblem,hkept]; rfl
  refine run_of_trimsTo hpath loneDisk_load rfl hwords htrims ?short ?printable ?saved
  case short =>
    rw [hkept]
    decide +kernel
  case printable =>
    refine Report.encodable_trimming rfl ?_
    rw [hkept]
    decide +kernel
  case saved =>
    rw [hwritten]
    exact loneDisk_save

/-- There are two ways to miss what was written. If its path goes back from a directory that is not there, the trimming
ends well and the problem is written and can be read, but the verification finds nothing under the path. If a candidate
whom the kept assertions do not name has half of a pair for a name, the verification cannot print its report. -/
theorem written_trim_missed :
    ((∃ r, (run (Disk.access .yaml) [""] (trimArgs "x/../g.yaml" "2")).run twiceDisk = (r,onceDisk) ∧
        r.code = Run.success) ∧
      (load (Disk.access .yaml) ["","g.yaml"]).run onceDisk = (.ok onceProblem,onceDisk) ∧
      ∃ r, (run (Disk.access .yaml) [""] (verifyArgs "x/../g.yaml" "2")).run onceDisk = (r,onceDisk) ∧
        r.code = Run.unusable) ∧
    (∃ r, (run (Disk.access .yaml) [""] (trimArgs "g.yaml" "9")).run loneDisk = (r,loneKeptDisk) ∧
        r.code = Run.success) ∧
      (load (Disk.access .yaml) ["","g.yaml"]).run loneKeptDisk = (.ok loneKept,loneKeptDisk) ∧
      ∃ r, (run (Disk.access .yaml) [""] (verifyArgs "g.yaml" "9")).run loneKeptDisk = (r,loneKeptDisk) ∧
        r.stdout = [] ∧ r.code = Run.insufficient := by
  have htargets : ((Disk.access .yaml).targets [""] ["x/../g.yaml"]).run onceDisk = (.ok [],onceDisk) := by
    have hall : (Disk.access .yaml).targetAll [""] ["x/../g.yaml"] onceDisk = (.ok [],onceDisk) := rfl
    rw [targets_of_targetAll hall,List.eraseDups_nil,List.mergeSort_nil]
  have hverify : invocation? (verifyArgs "x/../g.yaml" "2") =
      some ⟨false,.verify ["x/../g.yaml"] false (some false) false ⟨some 2,none⟩⟩ :=
    invocation?_verify (by decide +kernel) rfl (by decide)
  have honce : onceProblem.Readable := ⟨by decide,fun h => absurd rfl h,by decide,nofun,nofun,nofun⟩
  have hloaded := load_of_save honce twiceDisk_save onceProblem_yaml
  have hlone : loneKept.Readable := ⟨by decide,fun _ => rfl,by decide,nofun,nofun,nofun⟩
  have hloneLoaded := load_of_save hlone loneDisk_save loneKept_yaml
  have hloneVerify : invocation? (verifyArgs "g.yaml" "9") =
      some ⟨false,.verify ["g.yaml"] false (some false) false ⟨some 9,none⟩⟩ :=
    invocation?_verify (by decide +kernel) rfl (by decide)
  have hfound : ((Disk.access .yaml).lookup [""] (Path.normal "g.yaml")).run loneKeptDisk =
    (.found ["","g.yaml"],loneKeptDisk) := rfl
  have hunprinted : (verifyAll ⟨false,false,some false,false,⟨some 9,none⟩⟩ [loneKept]).stdout = [] ∧
    (verifyAll ⟨false,false,some false,false,⟨some 9,none⟩⟩ [loneKept]).code = Run.insufficient := by decide +kernel
  exact ⟨⟨trim_twice rfl,hloaded,_,run_of_runCommand hverify (run_bind htargets),rfl⟩,trim_lone,hloneLoaded,_,
    run_of_runCommand hloneVerify (runVerify_of_lookup hfound hloneLoaded),hunprinted⟩

end RunoffAudit.CommandLine
