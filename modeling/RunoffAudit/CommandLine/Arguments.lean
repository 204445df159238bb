import RunoffAudit.CommandLine.Number

/-! # Arguments

The command line is a list of arguments. Those that begin with a hyphen are options; some take a value,
behind an equals sign or as the next argument. After two hyphens nothing is an option any more. In front
of the command stand the options that hold for all commands.
-/
namespace RunoffAudit.CommandLine

structure OptionRule where
  name : String
  takesValue : Bool

structure Given where
  name : String
  value : String

structure Sorted where
  options : List Given
  others : List String

def cutEquals (arg : String) : String × Option String :=
  let cs := arg.toList
  if cs.contains '=' then
    (String.ofList (cs.takeWhile (· ≠ '=')), some (String.ofList ((cs.dropWhile (· ≠ '=')).drop 1)))
  else (arg, none)

/-- The options that a group of letters behind one hyphen gives. -/
def letters? (rules : List OptionRule) (arg : String) : Option (List Given) :=
  (arg.toList.drop 1).mapM fun c =>
    let name := String.ofList ['-', c]
    if rules.any fun r => r.name = name && !r.takesValue then some ⟨name, ""⟩ else none

/-- Sorts arguments. With `mixed` options may come after other arguments. An unknown option, a missing
value or a needless one makes the arguments wrong. -/
def sort? (rules : List OptionRule) (mixed : Bool) : List String → Option Sorted
  | [] => some ⟨[], []⟩
  | arg :: rest =>
    if arg = "--" then some ⟨[], rest⟩
    else if arg.startsWith "-" ∧ arg ≠ "-" then
      let (name, value) := cutEquals arg
      match rules.find? (·.name = name), value with
      | some rule, some v =>
        if rule.takesValue then (sort? rules mixed rest).map fun s => { s with options := ⟨name, v⟩ :: s.options }
        else none
      | some rule, none =>
        if rule.takesValue then
          match rest with
          | [] => none
          | v :: rest => (sort? rules mixed rest).map fun s => { s with options := ⟨name, v⟩ :: s.options }
        else (sort? rules mixed rest).map fun s => { s with options := ⟨name, ""⟩ :: s.options }
      | none, _ =>
        if arg.startsWith "--" then none
        else do
          let found ← letters? rules arg
          let s ← sort? rules mixed rest
          return { s with options := found ++ s.options }
    else if mixed then (sort? rules mixed rest).map fun s => { s with others := arg :: s.others }
    else some ⟨[], arg :: rest⟩

namespace Sorted

def last? (s : Sorted) (name : String) : Option String :=
  (s.options.reverse.find? (·.name = name)).map (·.value)

def has (s : Sorted) (name : String) : Bool := s.options.any (·.name = name)

/-- Which one of two opposite options was given last, if either was. -/
def switch (s : Sorted) (on off : String) : Option Bool :=
  (s.options.reverse.find? fun g => g.name = on || g.name = off).map fun g => g.name = on

end Sorted

structure LimitArguments where
  work : Option Int
  seconds : Option Float

inductive Command where
  | nothing
  | showVersion
  | showHelp
  | verify (targets : List String) (json : Bool) (checkWinner : Option Bool) (trees : Bool) (limits : LimitArguments)
  | trim (file : String) (algorithm continuation : Option String) (sort : Option Bool) (json : Bool)
      (output : Option String) (limits : LimitArguments)
  | explain (file : String) (expandFully hideWinner independent json : Bool) (limits : LimitArguments)
  | order (file : String) (json : Bool) (limits : LimitArguments)

structure Invocation where
  verbose : Bool
  command : Command

def flagRule (name : String) : OptionRule := ⟨name, false⟩
def valueRule (name : String) : OptionRule := ⟨name, true⟩

def commonRules : List OptionRule :=
  [flagRule "--help", flagRule "--json", valueRule "--work-limit", valueRule "--max-seconds"]

def globalRules : List OptionRule :=
  [flagRule "--help", flagRule "--version", flagRule "--verbose", flagRule "-v"]

/-- A work limit is at least one, a limit in seconds at least a thousandth. -/
def limits? (s : Sorted) : Option LimitArguments := do
  let work ← match s.last? "--work-limit" with
    | none => some none
    | some v => (int? v).bind fun n => if n < 1 then none else some (some n)
  let seconds ← match s.last? "--max-seconds" with
    | none => some none
    | some v => (float? v).bind fun x => if x < 0.001 then none else some (some x)
  return ⟨work, seconds⟩

def file? (s : Sorted) : Option String :=
  match s.others with
  | [file] => some file
  | _ => none

def verify? (args : List String) : Option Command := do
  let s ← sort? (commonRules ++ [flagRule "--check-winner", flagRule "--no-check-winner", flagRule "--trees"]) true args
  if s.has "--help" then return .showHelp
  let limits ← limits? s
  if s.others.isEmpty then none
  else return .verify s.others (s.has "--json") (s.switch "--check-winner" "--no-check-winner") (s.has "--trees") limits

def trim? (args : List String) : Option Command := do
  let s ← sort? (commonRules ++ [valueRule "--algorithm", valueRule "--continuation", flagRule "--sort",
    flagRule "--no-sort", valueRule "--output"]) true args
  if s.has "--help" then return .showHelp
  let limits ← limits? s
  return .trim (← file? s) (s.last? "--algorithm") (s.last? "--continuation") (s.switch "--sort" "--no-sort")
    (s.has "--json") (s.last? "--output") limits

def explain? (args : List String) : Option Command := do
  let s ← sort? (commonRules ++ [flagRule "--expand-fully", flagRule "--hide-winner", flagRule "--independent"])
    true args
  if s.has "--help" then return .showHelp
  let limits ← limits? s
  return .explain (← file? s) (s.has "--expand-fully") (s.has "--hide-winner") (s.has "--independent")
    (s.has "--json") limits

def order? (args : List String) : Option Command := do
  let s ← sort? commonRules true args
  if s.has "--help" then return .showHelp
  return .order (← file? s) (s.has "--json") (← limits? s)

def command? (name : String) (args : List String) : Option Command :=
  if name = "verify" then verify? args
  else if name = "trim" then trim? args
  else if name = "explain" then explain? args
  else if name = "order" then order? args
  else none

def Sorted.notice? (s : Sorted) : Option Command :=
  (s.options.find? fun g => g.name = "--version" || g.name = "--help").map fun g =>
    if g.name = "--version" then .showVersion else .showHelp

/-- What the arguments ask for, unless they are wrong. Version or help is shown whatever comes later, and
also if it stands where the command should, behind two hyphens. -/
def invocation? (args : List String) : Option Invocation := do
  let s ← sort? globalRules false args
  let verbose := s.has "--verbose" || s.has "-v"
  match s.notice?, s.others with
  | some notice, _ => return ⟨verbose, notice⟩
  | none, [] => return ⟨verbose, .nothing⟩
  | none, name :: rest =>
    if name.startsWith "-" then return ⟨verbose, ← (← sort? globalRules false (name :: rest)).notice?⟩
    else return ⟨verbose, ← command? name rest⟩

end RunoffAudit.CommandLine
