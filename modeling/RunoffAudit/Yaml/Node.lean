import RunoffAudit.Yaml.Token

/-! # The nodes of a YAML text

Scalars, sequences and mappings as they are laid out, before anything is known about what the scalars stand for.
A text holds at most one document. Block collections, flow collections and scalars may be nested at will.
-/
namespace RunoffAudit.Yaml

inductive Node where
  | plain (s : String)
  | quoted (codes : List Nat)
  | sequence (items : List Node)
  | mapping (entries : List (Node × Node))
deriving Inhabited

namespace Node

/-- What stands for a node that is missing: a plain scalar of no characters. -/
def missing : Node := .plain ""

def isCollection : Node → Bool
  | sequence _ => true
  | mapping _ => true
  | _ => false

/-- Does a node end here, before it has begun? These are the tokens that can follow a missing node. -/
def nodeMissing (ends : List Token) (ts : List Token) : Bool := ts.head?.any (ends.contains ·)

def mappingEnds : List Token := [.key, .value, .blockEnd]

mutual

/-- Reads a node; block collections are read only if `block` is set, and sequences without indentation of
their own only if `dashes` is. -/
def node? (block dashes : Bool) : (fuel : Nat) → List Token → Option (Node × List Token)
  | 0, _ => none
  | fuel + 1, ts =>
    match ts with
    | .plain s :: rest => some (.plain s, rest)
    | .quoted codes :: rest => some (.quoted codes, rest)
    | .flowSequence :: rest => do
      let (items, rest) ← flowItems? true fuel rest
      return (.sequence items, rest)
    | .flowMapping :: rest => do
      let (entries, rest) ← flowEntries? true fuel rest
      return (.mapping entries, rest)
    | .blockSequence :: rest =>
      if block then do
        let (items, rest) ← blockItems? [.blockEntry, .blockEnd] fuel rest
        match rest with
        | .blockEnd :: rest => return (.sequence items, rest)
        | _ => none
      else none
    | .blockMapping :: rest =>
      if block then do
        let (entries, rest) ← blockEntries? fuel rest
        match rest with
        | .blockEnd :: rest => return (.mapping entries, rest)
        | _ => none
      else none
    | .blockEntry :: _ =>
      if dashes then do
        let (items, rest) ← blockItems? (.blockEntry :: mappingEnds) fuel ts
        return (.sequence items, rest)
      else none
    | _ => none

/-- Reads a node that may be missing, in which case one of `ends` follows. -/
def optionalNode? (block dashes : Bool) (ends : List Token) : (fuel : Nat) → List Token →
    Option (Node × List Token)
  | 0, _ => none
  | fuel + 1, ts => if nodeMissing ends ts then some (.missing, ts) else node? block dashes fuel ts

def blockItems? (ends : List Token) : (fuel : Nat) → List Token → Option (List Node × List Token)
  | 0, _ => none
  | fuel + 1, ts =>
    match ts with
    | .blockEntry :: rest => do
      let (v, rest) ← optionalNode? true false ends fuel rest
      let (items, rest) ← blockItems? ends fuel rest
      return (v :: items, rest)
    | ts => some ([], ts)

def blockEntries? : (fuel : Nat) → List Token → Option (List (Node × Node) × List Token)
  | 0, _ => none
  | fuel + 1, ts =>
    match ts with
    | .key :: rest => do
      let (k, rest) ← optionalNode? true true mappingEnds fuel rest
      let (v, rest) ← blockValue? fuel rest
      let (entries, rest) ← blockEntries? fuel rest
      return ((k, v) :: entries, rest)
    | ts => some ([], ts)

def blockValue? : (fuel : Nat) → List Token → Option (Node × List Token)
  | 0, _ => none
  | fuel + 1, ts =>
    match ts with
    | .value :: rest => optionalNode? true true mappingEnds fuel rest
    | ts => some (.missing, ts)

/-- The items of a flow sequence, up to its end. An item may be a mapping of one entry without braces. -/
def flowItems? (first : Bool) : (fuel : Nat) → List Token → Option (List Node × List Token)
  | 0, _ => none
  | fuel + 1, ts =>
    match ts with
    | .flowSequenceEnd :: rest => some ([], rest)
    | ts => do
      let rest ← if first then some ts else match ts with
        | .flowEntry :: rest => some rest
        | _ => none
      match rest with
      | .flowSequenceEnd :: rest => return ([], rest)
      | .key :: rest =>
        let (k, rest) ← optionalNode? false false [.value, .flowEntry, .flowSequenceEnd] fuel rest
        let (v, rest) ← flowValue? .flowSequenceEnd fuel rest
        let (items, rest) ← flowItems? false fuel rest
        return (.mapping [(k, v)] :: items, rest)
      | rest =>
        let (v, rest) ← node? false false fuel rest
        let (items, rest) ← flowItems? false fuel rest
        return (v :: items, rest)

/-- The entries of a flow mapping, up to its end. An entry without colon has the value null. -/
def flowEntries? (first : Bool) : (fuel : Nat) → List Token → Option (List (Node × Node) × List Token)
  | 0, _ => none
  | fuel + 1, ts =>
    match ts with
    | .flowMappingEnd :: rest => some ([], rest)
    | ts => do
      let rest ← if first then some ts else match ts with
        | .flowEntry :: rest => some rest
        | _ => none
      match rest with
      | .flowMappingEnd :: rest => return ([], rest)
      | .key :: rest =>
        let (k, rest) ← optionalNode? false false [.value, .flowEntry, .flowMappingEnd] fuel rest
        let (v, rest) ← flowValue? .flowMappingEnd fuel rest
        let (entries, rest) ← flowEntries? false fuel rest
        return ((k, v) :: entries, rest)
      | rest =>
        let (k, rest) ← node? false false fuel rest
        let (entries, rest) ← flowEntries? false fuel rest
        return ((k, .missing) :: entries, rest)

/-- The value behind a key of a flow collection that `last` closes. -/
def flowValue? (last : Token) : (fuel : Nat) → List Token → Option (Node × List Token)
  | 0, _ => none
  | fuel + 1, ts =>
    match ts with
    | .value :: rest => optionalNode? false false [.flowEntry, last] fuel rest
    | ts => some (.missing, ts)

end

def passEnds : List Token → List Token
  | .documentEnd :: rest => passEnds rest
  | ts => ts

def atEnd (ts : List Token) : Bool := (passEnds ts).isEmpty

/-- The only document among the tokens. A missing one counts as a missing node. -/
def ofTokens? (ts : List Token) : Option Node :=
  let fuel := 4 * ts.length + 4
  match ts with
  | [] => some missing
  | .documentStart :: rest => do
    let (v, rest) ←
      if rest.isEmpty || nodeMissing [.documentStart, .documentEnd] rest then some (missing, rest)
      else node? true false fuel rest
    if atEnd rest then some v else none
  | ts => do
    let (v, rest) ← node? true false fuel ts
    if atEnd rest then some v else none

end Node
end RunoffAudit.Yaml
