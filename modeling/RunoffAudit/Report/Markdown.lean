import RunoffAudit.Contest
import RunoffAudit.Explanation
import RunoffAudit.Ordering.PruningPower
import RunoffAudit.Problem.Basic
import RunoffAudit.Trim.Result

/-! # Reports in Markdown

Each report is a list of lines; the last one is empty, so that the text ends with a line break.
-/
namespace RunoffAudit

def ContestStatus.label : ContestStatus → String
  | proven => "Winner confirmed"
  | insufficient => "Assertions insufficient"
  | inconsistent => "Assertions rule out the declared winner"
  | invalidInput => "Invalid input"
  | budgetExceeded => "Work budget exceeded"

def TrimOutcome.label : TrimOutcome → String
  | malformed _ => "Invalid input"
  | insufficient _ _ => "Assertions insufficient"
  | unoptimized _ => "Not trimmed (budget exceeded)"
  | trimmed => "Trimmed"

namespace Report

def text (lines : List Text) : Text := .intercalate "\n" lines

def suffixText (names : List Text) (s : Suffix) : Text :=
  "[" ++ Text.intercalate ", " (s.map (nameIn names)) ++ "]"

def bold (t : Text) : Text := "**" ++ t ++ "**"

def fact (label : String) (value : Nat) : Text := "- " ++ label ++ ": " ++ bold (toString value)

def mark (i : Nat) : String := "#" ++ toString i

def errorLine (f : Fault) : Text :=
  let place := (f.assertionIndex.map fun i => " (assertion " ++ toString i ++ ")").getD ""
  "- `" ++ f.code ++ "`" ++ place ++ ": " ++ f.message

def errorLines (faults : List Fault) : List Text :=
  if faults.isEmpty then [] else "" :: "### Errors" :: "" :: faults.map errorLine

/-- The name of the declared winner, if the declaration names a candidate. -/
def winnerLine (names : List Text) (winner : Option Candidate) : List Text :=
  match winner with
  | some (.ofNat i) => (names[i]?.map fun name => "- Declared winner: " ++ bold name).toList
  | _ => []

def verdictLine (names : List Text) (v : Verdict) : Text :=
  "| " ++ nameIn names v.candidate ++ " | " ++ (if v.ruledOut then "yes" else "no") ++ " | " ++
    toString v.nodesExplored ++ " | " ++ toString v.maxDepth ++ " | " ++
    (v.counterexample.map (suffixText names)).getD "" ++ " |"

def pruningLines (names : List Text) (assertions : List Assertion) (v : Verdict) : List Text :=
  let describe (i : Nat) : Text :=
    mark i ++ " (" ++ (assertions[i]?.map (Assertion.describe names)).getD "" ++ ")"
  List.flatten [
    ["", "#### Elimination orders ending with " ++ nameIn names v.candidate, ""],
    v.prunedBy.map fun (s, indices) =>
      "- " ++ suffixText names s ++ " ruled out by " ++ Text.intercalate ", " (indices.map describe),
    (v.counterexample.map fun s => "- " ++ suffixText names s ++ " NOT RULED OUT").toList]

def verdictLines (names : List Text) (assertions : List Assertion) (verdicts : List Verdict) (showPruning : Bool) :
    List Text :=
  if verdicts.isEmpty then []
  else List.flatten [
    ["", "### Candidates", "", "| Candidate | Ruled out | Nodes | Max depth | Counterexample |",
      "|---|---|---:|---:|---|"],
    verdicts.map (verdictLine names),
    if showPruning then verdicts.flatMap (pruningLines names assertions) else []]

def verification (p : Problem) (r : ContestReport) (showPruning : Bool) : List Text :=
  let names := p.candidateNames
  List.flatten [
    ["## irvcert verification: " ++ p.name, "", "- Status: " ++ bold r.status.label],
    winnerLine names r.winner,
    [fact "Assertions" p.assertions.length, fact "Nodes explored" r.nodesExplored],
    verdictLines names p.assertions r.verdicts showPruning,
    errorLines r.faults, [""]]

def trimming (p : Problem) (r : TrimResult) : List Text :=
  let names := p.candidateNames
  List.flatten [
    ["## irvcert trim: " ++ p.name, "", "- Status: " ++ bold r.outcome.label,
      "- Algorithm: `" ++ r.algorithm.word ++ "`",
      fact "Assertions" r.original.length ++ " -> " ++ bold (toString r.kept.length),
      fact "Nodes explored" r.nodesExplored ++ " (max depth " ++ toString r.maxDepth ++ ")",
      "- Seconds: " ++ Decimal.fixed 3 r.seconds, "", "### Kept assertions", ""],
    if r.kept.isEmpty then ["None."] else [],
    (r.kept.zip r.assertions).map fun (i, a) => "- " ++ mark i ++ ": " ++ a.describe names,
    errorLines r.outcome.faults, [""]]

def stepLines (names : List Text) (s : ExplanationStep) : List Text :=
  List.flatten [
    ["", "### " ++ mark s.index ++ ": " ++ s.assertion.describe names, ""],
    s.before.map fun (t, e) => "- " ++ suffixText names t ++ " " ++ e.word,
    ["- " ++ toString s.removed.length ++ " removed, " ++ toString s.after.length ++ " left"]]

def explanation (p : Problem) (e : Explanation) : List Text :=
  let names := p.candidateNames
  List.flatten [
    ["## irvcert explanation: " ++ p.name, "",
      "Starting with " ++ toString e.start.length ++ " elimination order suffixes."],
    e.steps.flatMap (stepLines names), [""],
    if e.remaining.isEmpty then ["Every elimination order is ruled out."]
    else "### Not ruled out" :: "" :: e.remaining.map fun s => "- " ++ suffixText names s,
    [""]]

def pruningOrder (p : Problem) (o : PruningOrder) : List Text :=
  let names := p.candidateNames
  let describe (i : Nat) : Text := (p.assertions[i]?.map (Assertion.describe names)).getD ""
  List.flatten [
    ["## irvcert pruning-power order: " ++ p.name, ""],
    o.ordered.zipIdx.map fun (i, k) => toString (k + 1) ++ ". " ++ mark i ++ ": " ++ describe i,
    if o.unused.isEmpty then [] else ["", "Not needed: " ++ ", ".intercalate (o.unused.map mark)],
    if o.sufficient then []
    else ["", toString o.remaining.length ++ " suffixes are not ruled out by any assertion."],
    [""]]

end Report
end RunoffAudit
