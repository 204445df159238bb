import RunoffAudit.Path

/-! # Glob patterns

A pattern for a file name: `*` stands for any characters, `?` for one, and a bracket for one character of
a set, or with `!` in front for one character outside of it. A bracket that is not closed stands for
itself. A name that begins with a dot is met only by patterns that do.
-/
namespace RunoffAudit.Glob

structure CharRange where
  first : Char
  last : Char

inductive Piece where
  | char (c : Char)
  | anyChar
  | anyText
  | oneOf (negated : Bool) (ranges : List CharRange)

def isPattern (cs : List Char) : Bool := cs.any fun c => c = '*' || c = '?' || c = '['

/-- The set inside a bracket. A hyphen between two characters makes a range. -/
def ranges : List Char → List CharRange
  | a :: '-' :: b :: rest => ⟨a, b⟩ :: ranges rest
  | a :: rest => ⟨a, a⟩ :: ranges rest
  | [] => []

/-- Splits at the bracket's end; a closing bracket that comes first belongs to the set. -/
def splitBracket (cs : List Char) : Option (List Char × List Char) :=
  match cs with
  | ']' :: rest =>
    if rest.contains ']' then some (']' :: rest.takeWhile (· ≠ ']'), (rest.dropWhile (· ≠ ']')).drop 1) else none
  | cs => if cs.contains ']' then some (cs.takeWhile (· ≠ ']'), (cs.dropWhile (· ≠ ']')).drop 1) else none

/-- A set from its ranges. Ranges that run backwards are dropped first; an exclamation mark that then comes
first negates the set too. -/
def oneOfRanges (rs : List CharRange) : Piece :=
  match rs.filter fun r => r.first ≤ r.last with
  | [] => .oneOf false []
  | r :: rest =>
    if r.first ≠ '!' then .oneOf false (r :: rest)
    else if r.last = '!' then .oneOf true rest
    else .oneOf true (⟨'-', '-'⟩ :: ⟨r.last, r.last⟩ :: rest)

def bracket? (cs : List Char) : Option (Piece × List Char) :=
  match cs with
  | '!' :: inside => (splitBracket inside).map fun (set, rest) => (.oneOf true (ranges set), rest)
  | inside => (splitBracket inside).map fun (set, rest) => (oneOfRanges (ranges set), rest)

def pieces : (fuel : Nat) → List Char → List Piece
  | 0, _ => []
  | _ + 1, [] => []
  | fuel + 1, c :: rest =>
    if c = '*' then .anyText :: pieces fuel rest
    else if c = '?' then .anyChar :: pieces fuel rest
    else if c = '[' then
      match bracket? rest with
      | some (p, rest) => p :: pieces fuel rest
      | none => .char c :: pieces fuel rest
    else .char c :: pieces fuel rest

def CharRange.holds (r : CharRange) (c : Char) : Bool := r.first ≤ c && c ≤ r.last

def Piece.meets (p : Piece) (c : Char) : Bool :=
  match p with
  | char d => c = d
  | anyChar => true
  | anyText => true
  | oneOf negated rs => rs.any (·.holds c) != negated

/-- Does the rest of a name, after any number of its characters, meet `test`? -/
def anySuffix (test : List Char → Bool) : List Char → Bool
  | [] => test []
  | c :: rest => test (c :: rest) || anySuffix test rest

def meets : List Piece → List Char → Bool
  | [], name => name.isEmpty
  | .anyText :: ps, name => anySuffix (meets ps) name
  | _ :: _, [] => false
  | p :: ps, c :: rest => p.meets c && meets ps rest

def isMet (pattern name : String) : Bool :=
  let cs := pattern.toList
  (name.toList.head? ≠ some '.' || cs.head? = some '.') && meets (pieces cs.length cs) name.toList

end RunoffAudit.Glob
