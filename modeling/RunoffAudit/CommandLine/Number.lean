import RunoffAudit.Decimal.Read
import RunoffAudit.Text.Digit

/-! # Numbers on the command line

Blanks around a number mean nothing, and a single underscore may stand between two digits. The digits of
all scripts count.
-/
namespace RunoffAudit.CommandLine

/-- The blank characters beyond ASCII: next line, the spaces of fixed width, and the line and paragraph
separators. -/
def wideBlanks : List Nat :=
  [0x85, 0xa0, 0x1680, 0x2000, 0x2001, 0x2002, 0x2003, 0x2004, 0x2005, 0x2006, 0x2007, 0x2008, 0x2009,
    0x200a, 0x2028, 0x2029, 0x202f, 0x205f, 0x3000]

def isBlank (c : Char) : Bool := c.isWhitespace || c = '\x0b' || c = '\x0c' || wideBlanks.contains c.toNat

def trimBlanks (cs : List Char) : List Char := ((cs.dropWhile isBlank).reverse.dropWhile isBlank).reverse

def digitsFrom (seen : Nat) : List Char → Option Nat
  | [] => some seen
  | ['_'] => none
  | '_' :: c :: rest => (Text.digitValue? c).bind fun d => digitsFrom (10 * seen + d) rest
  | c :: rest => (Text.digitValue? c).bind fun d => digitsFrom (10 * seen + d) rest

def digits? : List Char → Option Nat
  | [] => none
  | c :: rest => (Text.digitValue? c).bind fun d => digitsFrom d rest

def sign (cs : List Char) : Bool × List Char :=
  match cs with
  | '-' :: rest => (true, rest)
  | '+' :: rest => (false, rest)
  | cs => (false, cs)

/-- An integer. Leading zeros count among its digits. -/
def int? (s : String) : Option Int :=
  let (negative, cs) := sign (trimBlanks s.toList)
  if Text.maxDigits < (cs.filter (· ≠ '_')).length then none
  else (digits? cs).map fun n => if negative then -(n : Int) else n

/-- The digits of a fraction, and how many they are. No digits at all count as none. -/
def fraction? (cs : List Char) : Option (Nat × Nat) :=
  if cs = [] then some (0, 0) else (digits? cs).map fun n => (n, (cs.filter (· ≠ '_')).length)

def exponent? (cs : List Char) : Option Int :=
  match cs with
  | [] => some 0
  | _ :: rest =>
    let (negative, ds) := sign rest
    (digits? ds).map fun n => if negative then -(n : Int) else n

def decimal? (negative : Bool) (cs : List Char) : Option Float :=
  let isMark (c : Char) : Bool := c = 'e' || c = 'E'
  let mantissa := cs.takeWhile (!isMark ·)
  let whole := mantissa.takeWhile (· ≠ '.')
  let tail := (mantissa.dropWhile (· ≠ '.')).drop 1
  if whole = [] ∧ tail = [] then none
  else do
    let (w, _) ← fraction? whole
    let (f, places) ← fraction? tail
    let power ← exponent? (cs.dropWhile (!isMark ·))
    return Decimal.toFloat negative (w * Nat.pow 10 places + f) (power - places)

def float? (s : String) : Option Float :=
  let (negative, cs) := sign (trimBlanks s.toList)
  let word := String.ofList (cs.map Char.toLower)
  if word = "inf" ∨ word = "infinity" then some (if negative then -1.0 / 0.0 else 1.0 / 0.0)
  else if word = "nan" then some (0.0 / 0.0)
  else decimal? negative cs

end RunoffAudit.CommandLine
