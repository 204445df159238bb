import RunoffAudit.Yaml.Quoted

/-! # Scalars on lines of limited length

A text is written plain where it then reads back as the same text, else between single quotes, and between
double quotes if it holds anything but printable ASCII and line feeds. A line that is full is broken at the
next place where the break is read as what stood there.
-/
namespace RunoffAudit.Yaml

def isSimple (c : Char) : Bool := ' ' ≤ c && c ≤ '~'

/-- Do a colon before a gap, or a number sign behind one, stand in the text? -/
def hasIndicator : List Char → Bool
  | [] => false
  | c :: rest =>
    (c = ':' && atGap rest) || (isBlank c && rest.head? = some '#') || hasIndicator rest

def startsPlain : List Char → Bool
  | [] => false
  | c :: rest =>
    if "#,[]\x7b\x7d&*!|>'\"%@`".toList.contains c then false
    else if c = '-' ∨ c = '?' ∨ c = ':' then !atGap rest
    else true

/-- Would a plain scalar of this text be read as the text? -/
def resolvesToText (s : String) : Bool :=
  match resolve s with
  | .value (.text _) => true
  | _ => false

def writesPlain (s : String) : Bool :=
  let cs := s.toList
  resolvesToText s && cs.all isSimple && startsPlain cs && !hasIndicator cs &&
    cs.head? ≠ some ' ' && cs.getLast? ≠ some ' ' &&
    cs.take 3 ≠ ['-', '-', '-'] && cs.take 3 ≠ ['.', '.', '.']

def hasSpaceAtBreak : List Char → Bool
  | ' ' :: '\n' :: _ => true
  | '\n' :: ' ' :: _ => true
  | _ :: rest => hasSpaceAtBreak rest
  | [] => false

/-- Is a text that is not written plain put between single quotes? -/
def writesSingle (cs : List Char) : Bool := cs.all (fun c => isSimple c || c = '\n') && !hasSpaceAtBreak cs

/-- Where a scalar stands: its further lines are indented, and its first line has come to a column. -/
structure Place where
  indent : Nat
  column : Nat

namespace Place

/-- A line is broken where it has passed this column. -/
def lastColumn : Nat := 80

def isFull (p : Place) : Bool := lastColumn < p.column

def move (n : Nat) (p : Place) : Place := { p with column := p.column + n }

def newLine (p : Place) : Place := { p with column := p.indent }

def spaces (p : Place) : List Char := List.replicate p.indent ' '

def lineBreak (p : Place) : List Char := '\n' :: p.spaces

end Place

/-- A plain scalar. A line may end at a space that stands alone. -/
def plainText (p : Place) (afterSpace : Bool) : List Char → List Char
  | [] => []
  | c :: rest =>
    if c = ' ' ∧ !afterSpace ∧ rest.head? ≠ some ' ' ∧ p.isFull then
      p.lineBreak ++ plainText p.newLine true rest
    else c :: plainText (p.move 1) (c = ' ') rest

inductive Before where
  | nothing
  | space
  | lineFeed
  | other
deriving DecidableEq

/-- The characters between single quotes. A line may end at a space that stands alone, but not at the ends
of the scalar; of several line feeds in a row the first is written twice. -/
def singleText (p : Place) (before : Before) : List Char → List Char
  | [] => []
  | c :: rest =>
    if c = ' ' then
      let alone : Bool := (before = .lineFeed ∨ before = .other) ∧ rest ≠ [] ∧ rest.head? ≠ some ' '
      if alone && p.isFull then p.lineBreak ++ singleText p.newLine .space rest
      else ' ' :: singleText (p.move 1) .space rest
    else if c = '\n' then
      (if before = .lineFeed then [] else ['\n']) ++ '\n' ::
        (if rest.head? = some '\n' then [] else p.spaces) ++ singleText p.newLine .lineFeed rest
    else if c = '\'' then '\'' :: '\'' :: singleText (p.move 2) .other rest
    else c :: singleText (p.move 1) .other rest

def escapeLetter? (c : Char) : Option Char :=
  match c with
  | '\x00' => some '0'
  | '\x07' => some 'a'
  | '\x08' => some 'b'
  | '\t' => some 't'
  | '\n' => some 'n'
  | '\x0b' => some 'v'
  | '\x0c' => some 'f'
  | '\r' => some 'r'
  | '\x1b' => some 'e'
  | '"' => some '"'
  | '\\' => some '\\'
  | '\u0085' => some 'N'
  | '\u00a0' => some '_'
  | '\u2028' => some 'L'
  | '\u2029' => some 'P'
  | _ => none

def escaped (code : Nat) : List Char :=
  match if code.isValidChar then escapeLetter? (Char.ofNat code) else none with
  | some letter => ['\\', letter]
  | none =>
    let digits (width : Nat) : List Char := (Text.hex width code).map Char.toUpper
    if code < 0x100 then '\\' :: 'x' :: digits 2
    else if code < 0x10000 then '\\' :: 'u' :: digits 4
    else '\\' :: 'U' :: digits 8

def standsForItself (code : Nat) : Bool :=
  0x20 ≤ code && code ≤ 0x7e && code ≠ '"'.toNat && code ≠ '\\'.toNat

/-- The end of a full line between double quotes. A space that comes next is marked as part of the text. -/
def doubleBreak (p : Place) (next : Option Nat) : List Char × Place :=
  if next = some ' '.toNat then ('\\' :: p.lineBreak ++ ['\\'], p.newLine.move 1)
  else ('\\' :: p.lineBreak, p.newLine)

/-- The characters between double quotes. `held` are those that are to be written next, the last one first; `p`
is the place before them. A line may end before a space, or where nothing is held, but not at the ends of
the scalar. -/
def doubleText (p : Place) (atStart : Bool) (held : List Char) : List Nat → List Char
  | [] => held.reverse
  | code :: rest =>
    let inside := !atStart && !rest.isEmpty
    if standsForItself code then
      if inside && (code = ' '.toNat || held.isEmpty) && (p.move held.length).isFull then
        let (text, q) := doubleBreak p (some code)
        held.reverse ++ text ++ doubleText q false [Char.ofNat code] rest
      else doubleText p false (Char.ofNat code :: held) rest
    else
      let written := held.reverse ++ escaped code
      let p := p.move written.length
      if inside && Place.lastColumn + 1 < p.column then
        let (text, q) := doubleBreak p rest.head?
        written ++ text ++ doubleText q false [] rest
      else written ++ doubleText p false [] rest

def scalarText (p : Place) (s : String) : String :=
  let cs := s.toList
  if writesPlain s then String.ofList (plainText p false cs)
  else if writesSingle cs then String.ofList ('\'' :: singleText (p.move 1) .nothing cs ++ ['\''])
  else String.ofList ('"' :: doubleText (p.move 1) true [] (codesOf cs) ++ ['"'])

def scalarCodes (p : Place) (codes : List Nat) : String :=
  String.ofList ('"' :: doubleText (p.move 1) true [] codes ++ ['"'])

end RunoffAudit.Yaml
