import RunoffAudit.Yaml.Cursor

/-! # Plain scalars in a text

A plain scalar ends where a colon before a gap, a comment, or in a flow collection an indicator follows.
It may go on on further lines that are indented deeper than the collection it stands in.
-/
namespace RunoffAudit.Yaml

/-- Does a colon here end a key, when `after` follows it? -/
def colonEnds (flow : Bool) (after : List Char) : Bool :=
  atGap after || (flow && after.head?.any (",[]\x7b\x7d".toList.contains ·))

def plainEnds (flow : Bool) (c : Char) (after : List Char) : Bool :=
  isBlank c || isBreak c || (c = ':' && colonEnds flow after) ||
    (flow && ",?[]\x7b\x7d".toList.contains c)

def plainRun (flow : Bool) : List Char → List Char
  | [] => []
  | c :: rest => if plainEnds flow c rest then [] else c :: plainRun flow rest

def plainStarts (flow : Bool) (c : Char) (after : List Char) : Bool :=
  if isBlank c || isBreak c then false
  else if c = '-' then !atGap after
  else if c = '?' || c = ':' then !flow && !atGap after
  else !",[]\x7b\x7d#&*!|>'\"%@`".toList.contains c

/-- A part of a plain scalar: what it adds, where it ends, and whether a line end follows it. -/
structure PlainPart where
  text : List Char
  cursor : Cursor
  broken : Bool

/-- What lies between two runs: spaces, or a folded line end. Nothing means that the scalar ends. -/
def plainGap (c : Cursor) : PlainPart :=
  let behind := c.skipBlanks false
  match behind.rest with
  | [] => ⟨c.rest, behind, false⟩
  | x :: lines =>
    if isBreak x then
      match behind.next.passLines false lines.length with
      | (none, last) => ⟨[], last, true⟩
      | (some more, last) => ⟨foldBreaks x more, last, true⟩
    else ⟨c.rest.take (behind.index - c.index), behind, false⟩

/-- A plain scalar from the cursor on, behind `gap`. `indent` is the least column of its further lines. -/
def plainFrom (flow : Bool) (indent : Int) : (fuel : Nat) → Cursor → (gap : List Char) → (broken : Bool) → PlainPart
  | 0, c, _, broken => ⟨[], c, broken⟩
  | fuel + 1, c, gap, broken =>
    let run := if c.rest.head? = some '#' then [] else plainRun flow c.rest
    if run = [] then ⟨[], c, broken⟩
    else
      let next := plainGap (c.skip run.length)
      if next.text = [] ∨ next.cursor.rest.head? = some '#' ∨ (!flow ∧ (next.cursor.column : Int) < indent) then
        ⟨gap ++ run, next.cursor, next.broken⟩
      else
        let more := plainFrom flow indent fuel next.cursor next.text next.broken
        ⟨gap ++ run ++ more.text, more.cursor, more.broken⟩

def plain (flow : Bool) (indent : Int) (c : Cursor) : PlainPart :=
  plainFrom flow indent c.rest.length c [] false

end RunoffAudit.Yaml
