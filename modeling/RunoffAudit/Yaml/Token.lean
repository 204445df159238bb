import RunoffAudit.Yaml.Plain
import RunoffAudit.Yaml.Quoted

/-! # The tokens of a YAML text

Tokens make the block structure explicit: a collection that is laid out by indentation gets a token where
it starts and one where it ends. That a scalar or a flow collection was a key is known only when its
colon comes, so places where a key may have started are kept until then.

Anchors, aliases, tags, directives and block scalars are not part of the notation that is read here.
-/
namespace RunoffAudit.Yaml

inductive Token where
  | documentStart
  | documentEnd
  | blockSequence
  | blockMapping
  | blockEnd
  | flowSequence
  | flowSequenceEnd
  | flowMapping
  | flowMappingEnd
  | blockEntry
  | flowEntry
  | key
  | value
  | plain (s : String)
  | quoted (codes : List Nat)
deriving DecidableEq

structure KeyStart where
  /-- The number of tokens before it. -/
  position : Nat
  /-- Nothing but a key can stand here. -/
  required : Bool
  index : Nat
  line : Nat
  column : Nat

structure Lexer where
  cursor : Cursor
  /-- The tokens so far, the last one first. -/
  tokens : List Token
  /-- The column of the innermost block collection, or -1. -/
  indent : Int
  outer : List Int
  /-- The key start at each level of flow collections, the innermost level first. -/
  keys : List (Option KeyStart)
  keyAllowed : Bool

namespace Lexer

def ofText (cs : List Char) : Lexer := ⟨.ofText cs, [], -1, [], [none], true⟩

def inFlow (s : Lexer) : Bool := s.keys.length > 1

def emit (t : Token) (s : Lexer) : Lexer := { s with tokens := t :: s.tokens }

def take (width : Nat) (t : Token) (s : Lexer) : Lexer :=
  { s with tokens := t :: s.tokens, cursor := s.cursor.skip width }

/-- Puts tokens, the last one first, where `position` tokens come before them. -/
def insert (position : Nat) (ts : List Token) (s : Lexer) : Lexer :=
  let cut := s.tokens.length - position
  { s with tokens := s.tokens.take cut ++ ts ++ s.tokens.drop cut }

/-- Ends the block collections that are indented deeper than `column`. -/
def unwindTo (column : Int) : (outer : List Int) → Lexer → Lexer
  | [], s => s
  | next :: outer, s =>
    if column < s.indent then
      unwindTo column outer { s with tokens := .blockEnd :: s.tokens, indent := next, outer := outer }
    else s

def unwind (column : Int) (s : Lexer) : Lexer := if s.inFlow then s else unwindTo column s.outer s

/-- Opens a block collection at `column` unless it is open already. -/
def indentTo (column : Nat) (s : Lexer) : Option Lexer :=
  if s.indent < column then some { s with indent := column, outer := s.indent :: s.outer } else none

/-- Forgets the key start of the innermost level. A required key that never came is an error. -/
def dropKey (s : Lexer) : Option Lexer :=
  match s.keys with
  | [] => some s
  | k :: rest => if k.any (·.required) then none else some { s with keys := none :: rest }

def noteKey (s : Lexer) : Option Lexer :=
  if s.keyAllowed then
    let c := s.cursor
    let start : KeyStart :=
      ⟨s.tokens.length, !s.inFlow && s.indent == (c.column : Int), c.index, c.line, c.column⟩
    s.dropKey.map fun s => { s with keys := some start :: s.keys.drop 1 }
  else some s

/-- A key stands in one line and has at most 1024 characters. -/
def isStale (c : Cursor) (k : KeyStart) : Bool := k.line ≠ c.line || c.index - k.index > 1024

def dropStale (s : Lexer) : Option Lexer :=
  let stale (k : Option KeyStart) : Bool := k.any (isStale s.cursor)
  if s.keys.any fun k => stale k && k.any (·.required) then none
  else some { s with keys := s.keys.map fun k => if stale k then none else k }

def passGaps : (fuel : Nat) → Lexer → Lexer
  | 0, s => s
  | fuel + 1, s =>
    let c := s.cursor.skipBlanks false
    let c := if c.rest.head? = some '#' then c.skip (c.rest.takeWhile (!isBreak ·)).length else c
    match c.rest with
    | [] => { s with cursor := c }
    | x :: _ =>
      if isBreak x then
        passGaps fuel { s with cursor := c.next, keyAllowed := s.keyAllowed || !s.inFlow }
      else { s with cursor := c }

def documentMark (t : Token) (s : Lexer) : Option Lexer :=
  (s.unwind (-1)).dropKey.map fun s => { s.take 3 t with keyAllowed := false }

def openFlow (t : Token) (s : Lexer) : Option Lexer :=
  s.noteKey.map fun s => { s.take 1 t with keys := none :: s.keys, keyAllowed := true }

def closeFlow (t : Token) (s : Lexer) : Option Lexer :=
  if s.inFlow then
    s.dropKey.map fun s => { s.take 1 t with keys := s.keys.drop 1, keyAllowed := false }
  else none

def comma (s : Lexer) : Option Lexer :=
  s.dropKey.map fun s => { s.take 1 .flowEntry with keyAllowed := true }

/-- Opens a block collection, if it is not open, by the token `t`. -/
def opening (t : Token) (s : Lexer) : Lexer :=
  match s.indentTo s.cursor.column with
  | some s => s.emit t
  | none => s

/-- The dash of a block sequence, or the question mark of an explicit key. -/
def indicator (collection t : Token) (allowedAfter : Bool) (s : Lexer) : Option Lexer :=
  if !s.inFlow && !s.keyAllowed then none
  else
    let s := if s.inFlow then s else s.opening collection
    s.dropKey.map fun s => { s.take 1 t with keyAllowed := allowedAfter }

def colon (s : Lexer) : Option Lexer :=
  match s.keys with
  | some k :: rest =>
    let s := { s with keys := none :: rest }
    let s := if s.inFlow then s.insert k.position [.key]
      else match s.indentTo k.column with
        | some s => s.insert k.position [.key, .blockMapping]
        | none => s.insert k.position [.key]
    some { s.take 1 .value with keyAllowed := false }
  | _ => s.indicator .blockMapping .value (!s.inFlow)

def quotedScalar (quote : Char) (s : Lexer) : Except ReadError Lexer := do
  let s ← orMalformed s.noteKey
  let (codes, after) ← quoted quote s.cursor
  return { s with cursor := after, tokens := .quoted codes :: s.tokens, keyAllowed := false }

def plainScalar (s : Lexer) : Option Lexer := do
  let s ← s.noteKey
  let p := Yaml.plain s.inFlow (s.indent + 1) s.cursor
  return { s with cursor := p.cursor, tokens := .plain (String.ofList p.text) :: s.tokens, keyAllowed := p.broken }

def finish (s : Lexer) : Option (List Token) := ((s.unwind (-1)).dropKey).map (·.tokens.reverse)

/-- Reads the token that starts with `x`, in front of `rest`, if it is no quoted scalar. -/
def readPlainToken (x : Char) (rest : List Char) (s : Lexer) : Option Lexer :=
  let atStart := s.cursor.column = 0
  if x = '%' ∧ atStart then none
  else if atStart ∧ isMark '-' (x :: rest) then s.documentMark .documentStart
  else if atStart ∧ isMark '.' (x :: rest) then s.documentMark .documentEnd
  else if x = '[' then s.openFlow .flowSequence
  else if x = '\x7b' then s.openFlow .flowMapping
  else if x = ']' then s.closeFlow .flowSequenceEnd
  else if x = '\x7d' then s.closeFlow .flowMappingEnd
  else if x = ',' then s.comma
  else if x = '-' ∧ atGap rest then s.indicator .blockSequence .blockEntry true
  else if x = '?' ∧ (s.inFlow ∨ atGap rest) then s.indicator .blockMapping .key (!s.inFlow)
  else if x = ':' ∧ (s.inFlow ∨ atGap rest) then s.colon
  else if plainStarts s.inFlow x rest then s.plainScalar
  else none

def readToken (x : Char) (rest : List Char) (s : Lexer) : Except ReadError Lexer :=
  if x = '\'' ∨ x = '"' then s.quotedScalar x else orMalformed (s.readPlainToken x rest)

/-- Reads all tokens. Every step takes at least one character. -/
def run : (fuel : Nat) → Lexer → Except ReadError (List Token)
  | 0, _ => .error .malformed
  | fuel + 1, s => do
    let s ← orMalformed (s.passGaps s.cursor.rest.length).dropStale
    let s := s.unwind s.cursor.column
    match s.cursor.rest with
    | [] => orMalformed s.finish
    | x :: rest => run fuel (← s.readToken x rest)

end Lexer

def isAllowed (c : Char) : Bool :=
  c = '\t' || c = '\n' || c = '\r' || (' ' ≤ c && c ≤ '~') || c = '\u0085' || ('\u00a0' ≤ c && c ≤ '\ud7ff') ||
    ('\ue000' ≤ c && c ≤ '\ufffd') || 0x10000 ≤ c.toNat

/-- A byte order mark at the start means nothing. -/
def dropMark : List Char → List Char
  | '\uFEFF' :: rest => rest
  | cs => cs

def tokens (cs : List Char) : Except ReadError (List Token) :=
  if cs.all isAllowed then
    let cs := dropMark cs
    (Lexer.ofText cs).run (cs.length + 1)
  else .error .malformed

end RunoffAudit.Yaml
