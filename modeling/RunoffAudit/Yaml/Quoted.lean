import RunoffAudit.Yaml.Cursor
import RunoffAudit.Yaml.Scalar

/-! # Quoted scalars

Between single quotes only a doubled quote is special. Between double quotes a backslash starts an escape,
which may write any code point. In both, a line end with the blanks around it is folded.
-/
namespace RunoffAudit.Yaml

def shortEscape? (c : Char) : Option Char :=
  match c with
  | '0' => some '\x00'
  | 'a' => some '\x07'
  | 'b' => some '\x08'
  | 't' => some '\t'
  | '\t' => some '\t'
  | 'n' => some '\n'
  | 'v' => some '\x0b'
  | 'f' => some '\x0c'
  | 'r' => some '\r'
  | 'e' => some '\x1b'
  | ' ' => some ' '
  | '"' => some '"'
  | '\\' => some '\\'
  | '/' => some '/'
  | 'N' => some '\u0085'
  | '_' => some '\u00a0'
  | 'L' => some '\u2028'
  | 'P' => some '\u2029'
  | _ => none

/-- The number of hexadecimal digits behind an escape letter. -/
def escapeWidth? (c : Char) : Option Nat :=
  match c with
  | 'x' => some 2
  | 'u' => some 4
  | 'U' => some 8
  | _ => none

def codeEscape (width : Nat) (cs : List Char) : Except ReadError Nat :=
  let ds := cs.take width
  let code := ofDigits 16 ds
  if ds.length ≠ width ∨ ds.any (16 ≤ digitValue ·) then .error .malformed
  else if code < 0x110000 then .ok code
  else .error (.scalar (if code < 0x80000000 then .codeOutside else .codeOverflow))

def codesOf (cs : List Char) : List Nat := cs.map Char.toNat

/-- The code points that an escape stands for, and the cursor behind it. The cursor given stands behind the
backslash. -/
def escape (c : Cursor) : Except ReadError (List Nat × Cursor) :=
  match c.rest with
  | [] => .error .malformed
  | x :: rest =>
    if isBreak x then
      match c.next.passLines true rest.length with
      | (none, _) => .error .malformed
      | (some lines, after) => .ok (codesOf lines, after)
    else match escapeWidth? x with
      | some width => (codeEscape width rest).map fun code => ([code], c.skip (width + 1))
      | none => (orMalformed (shortEscape? x)).map fun d => ([d.toNat], c.next)

/-- The rest of a quoted scalar, in reverse behind `acc`, and the cursor behind the closing quote. -/
def quotedFrom (quote : Char) : (fuel : Nat) → Cursor → (acc : List Nat) → Except ReadError (List Nat × Cursor)
  | 0, _, _ => .error .malformed
  | fuel + 1, c, acc =>
    match c.rest with
    | [] => .error .malformed
    | x :: rest =>
      if x = quote then
        if quote = '\'' ∧ rest.head? = some '\'' then quotedFrom quote fuel (c.skip 2) ('\''.toNat :: acc)
        else .ok (acc, c.next)
      else if quote = '"' ∧ x = '\\' then
        match escape c.next with
        | .error e => .error e
        | .ok (found, after) => quotedFrom quote fuel after (found.reverse ++ acc)
      else if isBlank x ∨ isBreak x then
        let behind := c.skipBlanks true
        let blanks := c.rest.take (behind.index - c.index)
        match behind.rest with
        | [] => .error .malformed
        | y :: lines =>
          if isBreak y then
            match behind.next.passLines true lines.length with
            | (none, _) => .error .malformed
            | (some more, after) => quotedFrom quote fuel after (codesOf (foldBreaks y more).reverse ++ acc)
          else quotedFrom quote fuel behind (codesOf blanks.reverse ++ acc)
      else quotedFrom quote fuel c.next (x.toNat :: acc)

def quoted (quote : Char) (c : Cursor) : Except ReadError (List Nat × Cursor) :=
  (quotedFrom quote c.rest.length c.next []).map fun (acc, after) => (acc.reverse, after)

end RunoffAudit.Yaml
