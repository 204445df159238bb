/-! # Reading positions in a YAML text

A cursor is the rest of a text with the position of its first character. Lines end at a line feed, a next
line, a line separator or a paragraph separator; carriage returns are gone before a text is read.
-/
namespace RunoffAudit.Yaml

def isBreak (c : Char) : Bool := c = '\n' || c = '\u0085' || c = '\u2028' || c = '\u2029'

/-- The character that a line end leaves in a text. -/
def breakText (c : Char) : Char := if c = '\u0085' then '\n' else c

def isBlank (c : Char) : Bool := c = ' ' || c = '\t'

/-- Is there a blank, a line end, or the end of the text at the head of `cs`? -/
def atGap : List Char → Bool
  | [] => true
  | c :: _ => isBlank c || isBreak c

/-- Do three characters `c` stand at the head, followed by a gap? -/
def isMark (c : Char) : List Char → Bool
  | a :: b :: d :: rest => a = c && b = c && d = c && atGap rest
  | _ => false

structure Cursor where
  rest : List Char
  index : Nat
  line : Nat
  column : Nat

namespace Cursor

def ofText (cs : List Char) : Cursor := ⟨cs, 0, 0, 0⟩

def next (c : Cursor) : Cursor :=
  match c.rest with
  | [] => c
  | x :: rest =>
    if isBreak x then ⟨rest, c.index + 1, c.line + 1, 0⟩
    else ⟨rest, c.index + 1, c.line, if x = '\uFEFF' then c.column else c.column + 1⟩

def skip : Nat → Cursor → Cursor
  | 0, c => c
  | k + 1, c => skip k c.next

def atSeparator (c : Cursor) : Bool := isMark '-' c.rest || isMark '.' c.rest

/-- The cursor behind the blanks; tabs count only if `tabs` is set. -/
def skipBlanks (tabs : Bool) (c : Cursor) : Cursor :=
  c.skip (c.rest.takeWhile fun x => x = ' ' || (tabs && x = '\t')).length

/-- The line ends and blanks from the start of a line on: the line ends passed, and the cursor behind
them. Nothing is returned where a separator of documents stands at the start of a line; then the
cursor stays there. -/
def passLines (tabs : Bool) : (fuel : Nat) → Cursor → Option (List Char) × Cursor
  | 0, c => (some [], c)
  | fuel + 1, c =>
    if c.atSeparator then (none, c)
    else
      let here := c.skipBlanks tabs
      match here.rest with
      | [] => (some [], here)
      | x :: _ =>
        if isBreak x then
          let (found, last) := passLines tabs fuel here.next
          (found.map (breakText x :: ·), last)
        else (some [], here)

end Cursor

/-- What a line end and the further line ends behind it come to inside a scalar: a single one is a space,
of several the first is dropped. -/
def foldBreaks (first : Char) (more : List Char) : List Char :=
  if breakText first ≠ '\n' then first :: more
  else if more = [] then [' ']
  else more

end RunoffAudit.Yaml
