import RunoffAudit.Document.Value
import RunoffAudit.Yaml.Error

/-! # Timestamps

A date is a year of four digits, month and day of two, between hyphens. With a time of the day behind it month,
day and hour may have one digit; a fraction of the second and an offset may follow.
-/
namespace RunoffAudit.Yaml

def decimalNumber (ds : List Char) : Nat := ds.foldl (fun n d => 10 * n + (d.toNat - '0'.toNat)) 0

/-- A number of at least `least` and at most `most` digits at the head, and what follows its last digit. -/
def leadingNumber? (least most : Nat) (cs : List Char) : Option (Nat × List Char) :=
  let ds := (cs.take most).takeWhile Char.isDigit
  if least ≤ ds.length then some (decimalNumber ds, cs.drop ds.length) else none

def behind? (c : Char) : List Char → Option (List Char)
  | [] => none
  | d :: rest => if d = c then some rest else none

/-- An offset as it is written: hours and minutes with a sign, or the mark of universal time. -/
inductive OffsetText where
  | none
  | universal
  | signed (negative : Bool) (hours minutes : Nat)

/-- A time of the day as it is written. The microseconds are the first six digits of the fraction. -/
structure TimeText where
  hour : Nat
  minute : Nat
  second : Nat
  microsecond : Fin 1000000
  offset : OffsetText

structure TimestampText where
  year : Nat
  month : Nat
  day : Nat
  time : Option TimeText

def microseconds (ds : List Char) : Fin 1000000 :=
  let six := ds.take 6
  Fin.ofNat 1000000 (decimalNumber (six ++ List.replicate (6 - six.length) '0'))

def fractionText (cs : List Char) : Fin 1000000 × List Char :=
  match behind? '.' cs with
  | none => (0, cs)
  | some rest => (microseconds (rest.takeWhile Char.isDigit), rest.dropWhile Char.isDigit)

def offsetText? (cs : List Char) : Option OffsetText :=
  if cs = [] then some .none
  else match cs.dropWhile fun c => c = ' ' || c = '\t' with
    | ['Z'] => some .universal
    | sign :: rest =>
      if sign = '+' ∨ sign = '-' then do
        let (hours, rest) ← leadingNumber? 1 2 rest
        let (minutes, rest) ← if rest = [] then some (0, []) else (behind? ':' rest).bind (leadingNumber? 2 2)
        if rest = [] then return .signed (sign = '-') hours minutes else none
      else none
    | [] => none

def timeText? (cs : List Char) : Option TimeText := do
  let (hour, rest) ← leadingNumber? 1 2 cs
  let (minute, rest) ← (behind? ':' rest).bind (leadingNumber? 2 2)
  let (second, rest) ← (behind? ':' rest).bind (leadingNumber? 2 2)
  let (microsecond, rest) := fractionText rest
  return ⟨hour, minute, second, microsecond, ← offsetText? rest⟩

/-- What separates a date from a time: the letter T or blanks. -/
def behindSeparator? (cs : List Char) : Option (List Char) :=
  match cs with
  | c :: rest =>
    if c = 'T' ∨ c = 't' then some rest
    else if c = ' ' ∨ c = '\t' then some (rest.dropWhile fun c => c = ' ' || c = '\t')
    else none
  | [] => none

def timestampText? (cs : List Char) : Option TimestampText := do
  let (year, rest) ← leadingNumber? 4 4 cs
  let (month, afterMonth) ← (behind? '-' rest).bind (leadingNumber? 1 2)
  let (day, rest) ← (behind? '-' afterMonth).bind (leadingNumber? 1 2)
  if rest = [] then if cs.length = 10 then return ⟨year, month, day, none⟩ else none
  else
    let time ← (behindSeparator? rest).bind timeText?
    return ⟨year, month, day, some time⟩

namespace OffsetText

def offset : OffsetText → Except CalendarError (Option ClockOffset)
  | none => .ok Option.none
  | universal => .ok (some .universal)
  | signed negative hours minutes =>
    let size : Int := 60 * hours + minutes
    (ClockOffset.make (if negative then -size else size)).map some

end OffsetText

/-- The date or time that a timestamp names. The offset is checked first. -/
def TimestampText.value (t : TimestampText) : Except CalendarError Value := do
  match t.time with
  | none => return .date (← Date.make t.year t.month t.day)
  | some time =>
    let offset ← time.offset.offset
    let date ← Date.make t.year t.month t.day
    return .dateTime ⟨date, ← TimeOfDay.make time.hour time.minute time.second time.microsecond, offset⟩

end RunoffAudit.Yaml
