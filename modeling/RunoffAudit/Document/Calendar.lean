/-! # Dates and times

Days of the Gregorian calendar in the years 1 to 9999, times of the day down to the microsecond, and offsets
from universal time of less than a day.
-/
namespace RunoffAudit

inductive CalendarError where
  | year (given : Nat)
  | month
  | day
  | hour
  | minute
  | second
  /-- The offset from universal time, in minutes, is a day or more. -/
  | offset (minutes : Int)
deriving DecidableEq

/-- A length of time in messages: whole days, which may be negative, and seconds of a day. -/
def shownDuration (seconds : Int) : String :=
  let part (name : String) (n : Int) : List String := if n = 0 then [] else [name ++ "=" ++ toString n]
  let parts := part "days" (seconds / 86400) ++ part "seconds" (seconds % 86400)
  "datetime.timedelta(" ++ (if parts = [] then "0" else ", ".intercalate parts) ++ ")"

def CalendarError.message : CalendarError → String
  | year given => "year " ++ toString given ++ " is out of range"
  | month => "month must be in 1..12"
  | day => "day is out of range for month"
  | hour => "hour must be in 0..23"
  | minute => "minute must be in 0..59"
  | second => "second must be in 0..59"
  | offset minutes =>
    "offset must be a timedelta strictly between -timedelta(hours=24) and timedelta(hours=24), not " ++
      shownDuration (60 * minutes) ++ "."

def paddedNumber (width n : Nat) : String :=
  let ds := Nat.toDigits 10 n
  String.ofList (List.replicate (width - ds.length) '0' ++ ds)

def isLeapYear (year : Nat) : Bool := year % 4 = 0 && (year % 100 ≠ 0 || year % 400 = 0)

def monthLength (year month : Nat) : Nat :=
  if month = 2 then (if isLeapYear year then 29 else 28)
  else if month = 4 ∨ month = 6 ∨ month = 9 ∨ month = 11 then 30
  else 31

structure Date where
  year : Nat
  month : Nat
  day : Nat
  year_mem : 1 ≤ year ∧ year ≤ 9999
  month_mem : 1 ≤ month ∧ month ≤ 12
  day_mem : 1 ≤ day ∧ day ≤ monthLength year month
deriving DecidableEq

namespace Date

/-- The date that three numbers name. The year is checked first, the day last. -/
def make (year month day : Nat) : Except CalendarError Date :=
  if hy : 1 ≤ year ∧ year ≤ 9999 then
    if hm : 1 ≤ month ∧ month ≤ 12 then
      if hd : 1 ≤ day ∧ day ≤ monthLength year month then .ok ⟨year, month, day, hy, hm, hd⟩
      else .error .day
    else .error .month
  else .error (.year year)

/-- The number of days from the first day of year 1. -/
def number (d : Date) : Nat :=
  let past := d.year - 1
  365 * past + past / 4 - past / 100 + past / 400 +
    ((List.range (d.month - 1)).map fun m => monthLength d.year (m + 1)).foldl (· + ·) 0 + (d.day - 1)

def text (d : Date) : String :=
  paddedNumber 4 d.year ++ "-" ++ paddedNumber 2 d.month ++ "-" ++ paddedNumber 2 d.day

def shownNumbers (d : Date) : List String := [d.year, d.month, d.day].map toString

def shown (d : Date) : String := "datetime.date(" ++ ", ".intercalate d.shownNumbers ++ ")"

end Date

structure TimeOfDay where
  hour : Fin 24
  minute : Fin 60
  second : Fin 60
  microsecond : Fin 1000000
deriving DecidableEq

namespace TimeOfDay

/-- The time that three numbers and a fraction of a second name. The hour is checked first. -/
def make (hour minute second : Nat) (microsecond : Fin 1000000) : Except CalendarError TimeOfDay :=
  if hh : hour < 24 then
    if hm : minute < 60 then
      if hs : second < 60 then .ok ⟨⟨hour, hh⟩, ⟨minute, hm⟩, ⟨second, hs⟩, microsecond⟩
      else .error .second
    else .error .minute
  else .error .hour

/-- The fraction of the second is written in six digits, unless it is zero. -/
def text (t : TimeOfDay) : String :=
  ":".intercalate ([t.hour.val, t.minute.val, t.second.val].map (paddedNumber 2)) ++
    if t.microsecond.val = 0 then "" else "." ++ paddedNumber 6 t.microsecond.val

/-- The numbers of a time as messages list them: zeros at the end are left out, but not the minute. -/
def shownNumbers (t : TimeOfDay) : List String :=
  let fraction := if t.microsecond.val = 0 then [] else [t.microsecond.val]
  let seconds := if t.second.val = 0 ∧ fraction = [] then [] else t.second.val :: fraction
  (t.hour.val :: t.minute.val :: seconds).map toString

end TimeOfDay

/-- How far a clock is ahead of universal time. -/
structure ClockOffset where
  minutes : Int
  lt_day : -1440 < minutes ∧ minutes < 1440
deriving DecidableEq

namespace ClockOffset

def make (minutes : Int) : Except CalendarError ClockOffset :=
  if h : -1440 < minutes ∧ minutes < 1440 then .ok ⟨minutes, h⟩ else .error (.offset minutes)

def universal : ClockOffset := ⟨0, by decide⟩

def text (o : ClockOffset) : String :=
  let size := o.minutes.natAbs
  (if o.minutes < 0 then "-" else "+") ++ paddedNumber 2 (size / 60) ++ ":" ++ paddedNumber 2 (size % 60)

def shown (o : ClockOffset) : String :=
  if o.minutes = 0 then "datetime.timezone.utc"
  else "datetime.timezone(" ++ shownDuration (60 * o.minutes) ++ ")"

end ClockOffset

/-- A time on a day. Without an offset it is left open on which clock. -/
structure DateTime where
  date : Date
  time : TimeOfDay
  offset : Option ClockOffset
deriving DecidableEq

namespace DateTime

def text (t : DateTime) : String :=
  t.date.text ++ " " ++ t.time.text ++ (t.offset.map ClockOffset.text).getD ""

def shown (t : DateTime) : String :=
  let offset := (t.offset.map fun o => "tzinfo=" ++ o.shown).toList
  "datetime.datetime(" ++ ", ".intercalate (t.date.shownNumbers ++ t.time.shownNumbers ++ offset) ++ ")"

def universalMinutes (t : DateTime) (o : ClockOffset) : Int :=
  1440 * (t.date.number : Int) + 60 * t.time.hour.val + t.time.minute.val - o.minutes

/-- Are two times the same? With offsets on both sides they are compared in universal time. -/
def same (a b : DateTime) : Bool :=
  match a.offset, b.offset with
  | some o, some p =>
    a.universalMinutes o = b.universalMinutes p && a.time.second = b.time.second &&
      a.time.microsecond = b.time.microsecond
  | none, none => a = b
  | _, _ => false

end DateTime
end RunoffAudit
