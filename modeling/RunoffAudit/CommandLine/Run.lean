import RunoffAudit.CommandLine.Arguments
import RunoffAudit.Document.Json
import RunoffAudit.Problem.File
import RunoffAudit.Report.Markdown
import RunoffAudit.Screening
import RunoffAudit.Text.Control

/-! # Running commands

A command reads problem files, searches and reports. Reports go to the standard output, errors and the log
to the standard error, and the exit code tells the outcome: 0 for success, 1 for assertions that do not
do, 2 for input that cannot be used, 3 for an exhausted budget.
-/
namespace RunoffAudit.CommandLine

/-- What no command handles. -/
inductive Failure where
  | text (e : TextError)
  | digits (e : Text.DigitError)
  | limit (e : LimitError)
  | trim (e : TrimError)
  | save (e : SaveError)
  | encode (e : Text.EncodeError)

def Failure.message : Failure → String
  | text e => e.message
  | digits e => e.message
  | limit e => e.message
  | trim e => e.message
  | save e => e.message
  | encode e => e.message

inductive Ending where
  | exit (code : Nat)
  | usage
  | help
  | failed (f : Failure)

structure Run where
  stdout : List String
  stderr : List String
  ending : Ending

namespace Run

def success : Nat := 0
def insufficient : Nat := 1
def unusable : Nat := 2
def exhausted : Nat := 3

/-- The exit code of a run that ended; an unhandled failure counts as one. -/
def code (r : Run) : Nat :=
  match r.ending with
  | .exit code => code
  | .usage => unusable
  | .help => success
  | .failed _ => insufficient

end Run

def errorLine (message : String) : String := Text.line ("ERROR: " ++ message)

def faultLine (code message : String) : String := errorLine ("[" ++ code ++ "] " ++ message)

def faultLines (faults : List Fault) : List String := faults.map fun f => faultLine f.code f.message

def refuse (message : String) : Run := ⟨[], [errorLine message], .exit Run.unusable⟩

def fail (f : Failure) : Run := ⟨[], [], .failed f⟩

/-- A run that ends because a problem could not be loaded. Numbers and dates out of range and integers that
are too long are not handled. -/
def refuseLoad (e : LoadError) : Run :=
  match e with
  | .file e => refuse e.message
  | .text (.problem (.format cause)) =>
    if cause.isReported then refuse cause.message else fail (.text (.problem (.format cause)))
  | .text e => fail (.text e)

def refuseFaults (faults : List Fault) : Run := ⟨[], faultLines faults, .exit Run.unusable⟩

def refuseExhausted (e : Exhaustion) : Run :=
  ⟨[], faultLines [.budgetExceeded e], .exit Run.exhausted⟩

/-- The budget of a command: what the command line sets comes before what the problem sets. -/
def budgetOf (p : Problem) (l : LimitArguments) : Except LimitError Budget :=
  Budget.make (l.work.orElse fun _ => p.limits.work) (l.seconds.orElse fun _ => p.limits.seconds) 0

def ContestStatus.code : ContestStatus → Nat
  | .proven => Run.success
  | .insufficient => Run.insufficient
  | .inconsistent => Run.insufficient
  | .invalidInput => Run.unusable
  | .budgetExceeded => Run.exhausted

def TrimOutcome.code : TrimOutcome → Nat
  | .trimmed => Run.success
  | .insufficient _ _ => Run.insufficient
  | .malformed _ => Run.unusable
  | .unoptimized _ => Run.exhausted

def logLines (verbose : Bool) (log : List LogLine) : List String :=
  if verbose then log.map LogLine.text else []

/-! ## Reports on the standard output -/

def withName (p : Problem) (v : Value) : Value :=
  match v with
  | .mapping entries => .mapping ((.text "name", .ofText p.name) :: entries)
  | v => v

/-- JSON is ASCII, but has no room for integers that are too long. -/
def jsonText (v : Value) : Except Failure String :=
  if v.isWritable then .ok (Json.text v) else .error (.digits .tooMany)

/-- Control sequences in names do not get to the standard output. -/
def markdownText (lines : List Text) : Except Failure String :=
  (Report.text lines).withoutControls.encode.mapError .encode

/-- Assertions that were never searched can name candidates by integers that are too long. -/
def trimmingText (p : Problem) (r : TrimResult) : Except Failure String :=
  if r.assertions.all Assertion.isWritable then markdownText (Report.trimming p r) else .error (.digits .tooMany)

def conclude (text : Except Failure String) (code : Nat) : Run :=
  match text with
  | .error f => fail f
  | .ok text => ⟨[text], [], .exit code⟩

/-! ## The commands on problems -/

structure VerifyStyle where
  verbose : Bool
  json : Bool
  checkWinner : Option Bool
  trees : Bool
  limits : LimitArguments

/-- Verifies a problem on a budget of its own. A search that runs out of budget is reported. -/
def verifyProblem (s : VerifyStyle) (p : Problem) : Except Failure ContestReport := do
  let budget ← (budgetOf p s.limits).mapError .limit
  let search := verifyContestScreened p.n (some p.winner) p.assertions (s.checkWinner.getD p.checkWinner)
  (search.run budget).1.mapError .digits

/-- Verifies problems in turn: what is written, the worst exit code, and the reports as values. -/
def verifyEach (s : VerifyStyle) : List Problem → (worst : Nat) → Run × List Value
  | [], worst => (⟨[], [], .exit worst⟩, [])
  | p :: rest, worst =>
    match verifyProblem s p with
    | .error f => (fail f, [])
    | .ok report =>
      let log := logLines s.verbose report.log
      let (run, values) := verifyEach s rest (max worst (ContestStatus.code report.status))
      if s.json then
        (⟨run.stdout, log ++ run.stderr, run.ending⟩, withName p (report.toValue s.trees) :: values)
      else match markdownText (Report.verification p report s.trees) with
        | .error f => (⟨[], log, .failed f⟩, [])
        | .ok text => (⟨text :: run.stdout, log ++ faultLines report.faults ++ run.stderr, run.ending⟩, [])

/-- The reports as one JSON text; several are put in a list. -/
def jsonReports (values : List Value) : Except Failure String :=
  match values with
  | [v] => jsonText v
  | vs => jsonText (.record [("problems", .list vs)])

def verifyAll (s : VerifyStyle) (problems : List Problem) : Run :=
  let (run, values) := verifyEach s problems Run.success
  match s.json, run.ending with
  | true, .exit code =>
    match jsonReports values with
    | .error f => { run with ending := .failed f }
    | .ok text => ⟨run.stdout ++ [text], run.stderr, .exit code⟩
  | _, _ => run

structure TrimStyle where
  verbose : Bool
  json : Bool
  sort : Option Bool
  limits : LimitArguments

/-- The problem with the kept assertions, which stay in their order. -/
def trimmedProblem (p : Problem) (r : TrimResult) : Problem :=
  { p with assertions := r.assertions, sortAssertions := false }

def isWritten (r : TrimResult) : Bool :=
  match r.outcome with
  | .trimmed => true
  | .unoptimized _ => true
  | _ => false

def trimProblem (s : TrimStyle) (p : Problem) (algorithm : TrimAlgorithm) (policy : Option Policy) :
    Run × Option Problem :=
  match budgetOf p s.limits with
  | .error e => (fail (.limit e), none)
  | .ok budget =>
    let request : TrimRequest := ⟨algorithm, policy, s.sort.getD p.sortAssertions⟩
    match ((trimScreened p.n (some p.winner) p.assertions request).run budget).1 with
    | .error e => (fail (.digits e), none)
    | .ok (.error e) => (fail (.trim e), none)
    | .ok (.ok r) =>
      let log := logLines s.verbose r.log
      match if s.json then jsonText (withName p r.toValue) else trimmingText p r with
      | .error f => (⟨[], log, .failed f⟩, none)
      | .ok text =>
        let errors := if s.json then [] else faultLines r.outcome.faults
        (⟨[text], log ++ errors, .exit (TrimOutcome.code r.outcome)⟩,
          if isWritten r then some (trimmedProblem p r) else none)

def afterCheck (p : Problem) (run : Run) : Run :=
  match screenContest p.n (some p.winner) p.assertions with
  | .error e => fail (.digits e)
  | .ok [] => run
  | .ok faults => refuseFaults faults

def explainProblem (json : Bool) (style : ExplanationStyle) (limits : LimitArguments) (p : Problem) : Run :=
  afterCheck p <| match budgetOf p limits with
    | .error e => fail (.limit e)
    | .ok budget =>
      match ((explainScreened p.n (some p.winner) p.assertions style).runOn budget).1 with
      | .error e => refuseExhausted e
      | .ok (.error e) => fail (.digits e)
      | .ok (.ok (.error (.malformed faults))) => refuseFaults faults
      | .ok (.ok (.error e)) => refuse e.message
      | .ok (.ok (.ok e)) =>
        conclude (if json then jsonText (withName p (e.toValue p.candidateNames))
          else markdownText (Report.explanation p e)) Run.success

def orderToValue (o : PruningOrder) : Value :=
  .record [("ordered", .ints (o.ordered.map Int.ofNat)), ("unused", .ints (o.unused.map Int.ofNat)),
    ("sufficient", .bool o.sufficient), ("remaining", Explanation.suffixes o.remaining)]

def orderProblem (json : Bool) (limits : LimitArguments) (p : Problem) : Run :=
  afterCheck p <| match budgetOf p limits with
  | .error e => fail (.limit e)
  | .ok budget =>
    match ((pruningOrderScreened p.n (some p.winner) p.assertions).runOn budget).1 with
    | .error e => refuseExhausted e
    | .ok (.error e) => fail (.digits e)
    | .ok (.ok (.error faults)) => refuseFaults faults
    | .ok (.ok (.ok o)) =>
      conclude (if json then jsonText (withName p (orderToValue o)) else markdownText (Report.pruningOrder p o))
        (if o.sufficient then Run.success else Run.insufficient)

section Files

variable {m : Type → Type} [Monad m]

/-- Loads the file of a command that takes one. A path that leads to no file makes the command line
wrong. -/
def withFile (files : Files m) (here : Location) (path : String) (run : Problem → m Run) : m Run := do
  match ← files.lookup here path with
  | .found l =>
    if (← files.kind l) ≠ .file then return ⟨[], [], .usage⟩
    else match ← Problem.load files l with
      | .error e => return refuseLoad e
      | .ok p => run p
  | _ => return ⟨[], [], .usage⟩

def runVerify (files : Files m) (here : Location) (targets : List String) (s : VerifyStyle) : m Run := do
  match ← files.targets here targets with
  | .error e => return refuse e.message
  | .ok [] => return refuse (FormatError.noTargets targets).message
  | .ok found =>
    match ← Problem.loadAll files found with
    | .error e => return refuseLoad e
    | .ok problems => return verifyAll s problems

/-- The words on the command line come before those of the problem. -/
def runTrim (files : Files m) (here : Location) (file : String) (algorithm continuation : Option String)
    (output : Option String) (s : TrimStyle) : m Run :=
  withFile files here file fun p => do
    match (algorithm.map TrimAlgorithm.named?).getD (some p.algorithm),
      (continuation.map fun w => (Policy.named? w).map some).getD (some p.continuation) with
    | none, _ =>
      return refuse ("--algorithm must be one of " ++ ", ".intercalate (TrimAlgorithm.known.map (·.word)))
    | _, none => return refuse ("--continuation must be one of " ++ ", ".intercalate (Policy.all.map (·.word)))
    | some algorithm, some policy =>
      let (run, trimmed) := trimProblem s p algorithm policy
      match output, trimmed with
      | some path, some q =>
        let l := Location.resolve here path
        match ← Problem.save files l q with
        | .error e => return { run with ending := .failed (.save e) }
        | .ok () =>
          let note := if s.json then [] else [Text.line ("Trimmed problem written to: " ++ l.text)]
          return { run with stdout := run.stdout ++ note }
      | _, _ => return run

def versionLine : String := "irvcert 0.1.0"

def runCommand (files : Files m) (here : Location) (verbose : Bool) : Command → m Run
  | .nothing => return ⟨[], [], .exit Run.success⟩
  | .showVersion => return ⟨[versionLine], [], .exit Run.success⟩
  | .showHelp => return ⟨[], [], .help⟩
  | .verify targets json checkWinner trees limits =>
    runVerify files here targets ⟨verbose, json, checkWinner, trees, limits⟩
  | .trim file algorithm continuation sort json output limits =>
    runTrim files here file algorithm continuation output ⟨verbose, json, sort, limits⟩
  | .explain file expandFully hideWinner independent json limits =>
    withFile files here file fun p => return explainProblem json ⟨expandFully, hideWinner, !independent⟩ limits p
  | .order file json limits =>
    withFile files here file fun p => return orderProblem json limits p

def run (files : Files m) (here : Location) (args : List String) : m Run :=
  match invocation? args with
  | none => return ⟨[], [], .usage⟩
  | some i => runCommand files here i.verbose i.command

end Files
end RunoffAudit.CommandLine
