import RunoffAudit.Decimal.Read
import RunoffAudit.Yaml.Timestamp

/-! # Plain scalars

What a scalar without quotes stands for. Truth values have many spellings; integers may be binary, octal,
hexadecimal or in base sixty; a double has a point, and a sign in its exponent. Everything else is a
text, but for the two words that ask for the entries of another mapping and for a default value.
-/
namespace RunoffAudit.Yaml

def trueWords : List String := ["yes", "Yes", "YES", "true", "True", "TRUE", "on", "On", "ON"]
def falseWords : List String := ["no", "No", "NO", "false", "False", "FALSE", "off", "Off", "OFF"]
def nullWords : List String := ["~", "null", "Null", "NULL", ""]

/-- The key under which a mapping takes over entries of other mappings. -/
def mergeWord : String := "<<"

/-- The word for a default value. As a key it is a text, anywhere else it stands for nothing. -/
def defaultWord : String := "="

def digitValue (c : Char) : Nat :=
  if c.isDigit then c.toNat - '0'.toNat
  else if 'a' ≤ c ∧ c ≤ 'f' then c.toNat - 'a'.toNat + 10
  else if 'A' ≤ c ∧ c ≤ 'F' then c.toNat - 'A'.toNat + 10
  else 16

def ofDigits (base : Nat) (ds : List Char) : Nat := ds.foldl (fun n d => base * n + digitValue d) 0

/-- Underscores among digits mean nothing. -/
def stripUnderscores (cs : List Char) : List Char := cs.filter (· ≠ '_')

/-- Are these digits of a base and underscores, and at least one of them? -/
def digitsIn (base : Nat) (cs : List Char) : Bool :=
  !cs.isEmpty && cs.all fun c => c = '_' || digitValue c < base

def startsDigits (cs : List Char) : Bool := digitsIn 10 cs && cs.head? ≠ some '_'

/-- A sign in front, and whether it is a minus. -/
def splitSign : List Char → Bool × List Char
  | '-' :: rest => (true, rest)
  | '+' :: rest => (false, rest)
  | cs => (false, cs)

def cutColons : List Char → List (List Char)
  | [] => [[]]
  | c :: rest =>
    if c = ':' then [] :: cutColons rest
    else match cutColons rest with
      | [] => [[c]]
      | part :: parts => (c :: part) :: parts

def isSexagesimalDigit : List Char → Bool
  | [a] => a.isDigit
  | [a, b] => '0' ≤ a && a ≤ '5' && b.isDigit
  | _ => false

/-- The number that digits and underscores write in a base that has a mark. -/
def markedNumber (base : Nat) (ds : List Char) : Except ScalarError Nat :=
  match stripUnderscores ds with
  | [] => .error (.noDigits base)
  | ds => .ok (ofDigits base ds)

/-- The number that a decimal lead and further parts in base sixty write. -/
def sexagesimalNumber (lead : List Char) (parts : List (List Char)) : Except ScalarError Nat :=
  let ds := stripUnderscores lead
  if Text.maxDigits < ds.length then .error (.tooManyDigits ds.length)
  else .ok (parts.foldl (fun n p => 60 * n + ofDigits 10 p) (ofDigits 10 ds))

def nat? (cs : List Char) : Option (Except ScalarError Nat) :=
  match cs with
  | ['0'] => some (.ok 0)
  | '0' :: 'b' :: ds => if digitsIn 2 ds then some (markedNumber 2 ds) else none
  | '0' :: 'x' :: ds => if digitsIn 16 ds then some (markedNumber 16 ds) else none
  | '0' :: ds => if digitsIn 8 ds then some (.ok (ofDigits 8 (stripUnderscores ds))) else none
  | _ =>
    match cutColons cs with
    | [] => none
    | lead :: parts =>
      if startsDigits lead && parts.all isSexagesimalDigit then some (sexagesimalNumber lead parts) else none

def int? (cs : List Char) : Option (Except ScalarError Int) :=
  let (negative, rest) := splitSign cs
  (nat? rest).map fun r => r.map fun n => if negative then -(n : Int) else n

/-- A signed exponent, or none at the end of the text. -/
def exponent? : List Char → Option Int
  | [] => some 0
  | e :: sign :: ds =>
    if (e = 'e' || e = 'E') && !ds.isEmpty && ds.all Char.isDigit then
      if sign = '+' then some (ofDigits 10 ds) else if sign = '-' then some (-(ofDigits 10 ds : Int)) else none
    else none
  | _ => none

def pointed (negative : Bool) (whole fraction : List Char) (exponent : Int) : Float :=
  let places := stripUnderscores fraction
  Decimal.toFloat negative (ofDigits 10 (stripUnderscores whole ++ places)) (exponent - places.length)

/-- The sum of the parts of a double in base sixty, the last part first, when the first of them weighs
`weight`. Every product and every sum is rounded. -/
def sexagesimalSum (sum : Float) (weight : Nat) : List Float → Except ScalarError Float
  | [] => .ok sum
  | part :: parts =>
    match Decimal.ofInt? weight with
    | none => .error .weightOverflow
    | some w => sexagesimalSum (sum + part * w) (60 * weight) parts

/-- A double in base sixty; the last part has the point. -/
def sexagesimalFloat (negative : Bool) (parts : List (List Char)) (fraction : List Char) : Except ScalarError Float :=
  match parts.reverse with
  | [] => .ok 0.0
  | last :: others =>
    (sexagesimalSum 0.0 1 (pointed false last fraction 0 :: others.map fun p => pointed false p [] 0)).map fun x =>
      if negative then -x else x

def float? (cs : List Char) : Option (Except ScalarError Float) :=
  let (negative, rest) := splitSign cs
  if rest = ".inf".toList || rest = ".Inf".toList || rest = ".INF".toList then
    some (.ok (if negative then -1.0 / 0.0 else 1.0 / 0.0))
  else if cs = ".nan".toList || cs = ".NaN".toList || cs = ".NAN".toList then some (.ok (0.0 / 0.0))
  else
    let whole := rest.takeWhile (· ≠ '.')
    match rest.dropWhile (· ≠ '.') with
    | [] => none
    | _ :: tail =>
      let inFraction := fun c : Char => c.isDigit || c = '_'
      let fraction := tail.takeWhile inFraction
      let exponent := tail.dropWhile inFraction
      if whole = [] then
        if startsDigits fraction && cs.head? = some '.' then
          (exponent? exponent).map fun e => .ok (pointed false [] fraction e)
        else none
      else if startsDigits whole then (exponent? exponent).map fun e => .ok (pointed negative whole fraction e)
      else match cutColons whole with
        | lead :: parts =>
          if startsDigits lead && !parts.isEmpty && parts.all isSexagesimalDigit && exponent.isEmpty then
            some (sexagesimalFloat negative (lead :: parts) fraction)
          else none
        | [] => none

inductive Meaning where
  | value (v : Value)
  | merge
  | default
  | error (e : ScalarError)

def Meaning.ofExcept {α : Type} (toValue : α → Value) : Except ScalarError α → Meaning
  | .ok a => value (toValue a)
  | .error e => error e

def resolve (s : String) : Meaning :=
  if trueWords.contains s then .value (.bool true)
  else if falseWords.contains s then .value (.bool false)
  else if nullWords.contains s then .value .null
  else if s = mergeWord then .merge
  else if s = defaultWord then .default
  else
    let cs := s.toList
    match float? cs, int? cs, timestampText? cs with
    | some r, _, _ => .ofExcept .float r
    | none, some r, _ => .ofExcept .int r
    | none, none, some t => .ofExcept id (t.value.mapError .calendar)
    | none, none, none => .value (.text s)

end RunoffAudit.Yaml
