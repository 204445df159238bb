import RunoffAudit.Document.Calendar
import RunoffAudit.Text.Digit

/-! # Errors in YAML texts -/
namespace RunoffAudit.Yaml

inductive ScalarError where
  /-- Nothing but underscores follows the mark of a base. -/
  | noDigits (base : Nat)
  | tooManyDigits (count : Nat)
  /-- In base sixty, a part of a double weighs more than the largest double. -/
  | weightOverflow
  | calendar (e : CalendarError)
  | codeOutside
  /-- An escape goes beyond 31 bits. -/
  | codeOverflow
deriving DecidableEq

def ScalarError.message : ScalarError → String
  | noDigits base => "invalid literal for int() with base " ++ toString base ++ ": ''"
  | tooManyDigits count =>
    "Exceeds the limit (" ++ toString Text.maxDigits ++ " digits) for integer string conversion: value has " ++
      toString count ++ " digits; use sys.set_int_max_str_digits() to increase the limit"
  | weightOverflow => "int too large to convert to float"
  | calendar e => e.message
  | codeOutside => "chr() arg not in range(0x110000)"
  | codeOverflow => "Python int too large to convert to C int"

inductive ReadError where
  | malformed
  | scalar (e : ScalarError)
deriving DecidableEq

def orMalformed {α : Type} : Option α → Except ReadError α
  | some a => .ok a
  | none => .error .malformed

end RunoffAudit.Yaml
