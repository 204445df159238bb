/-! # Decimal digits

The decimal digits of a script stand at ten consecutive code points, in ascending order.
-/
namespace RunoffAudit.Text

/-- The code points of the digit zero, in ascending order. -/
def zeros : List Nat := [
  0x30, 0x660, 0x6f0, 0x7c0, 0x966, 0x9e6, 0xa66, 0xae6, 0xb66, 0xbe6, 0xc66, 0xce6, 0xd66, 0xde6,
  0xe50, 0xed0, 0xf20, 0x1040, 0x1090, 0x17e0, 0x1810, 0x1946, 0x19d0, 0x1a80, 0x1a90, 0x1b50,
  0x1bb0, 0x1c40, 0x1c50, 0xa620, 0xa8d0, 0xa900, 0xa9d0, 0xa9f0, 0xaa50, 0xabf0, 0xff10, 0x104a0,
  0x10d30, 0x11066, 0x110f0, 0x11136, 0x111d0, 0x112f0, 0x11450, 0x114d0, 0x11650, 0x116c0, 0x11730,
  0x118e0, 0x11950, 0x11c50, 0x11d50, 0x11da0, 0x16a60, 0x16ac0, 0x16b50, 0x1d7ce, 0x1d7d8, 0x1d7e2,
  0x1d7ec, 0x1d7f6, 0x1e140, 0x1e2f0, 0x1e950, 0x1fbf0]

def digitValue? (c : Char) : Option Nat :=
  zeros.findSome? fun z => if z ≤ c.toNat ∧ c.toNat < z + 10 then some (c.toNat - z) else none

/-- The number of digits that an integer may have in a text. -/
def maxDigits : Nat := 4300

def digitBound : Nat := Nat.pow 10 maxDigits

inductive DigitError where
  | tooMany
deriving DecidableEq

def DigitError.message : DigitError → String
  | tooMany =>
    "Exceeds the limit (" ++ toString maxDigits ++ " digits) for integer string conversion; " ++
      "use sys.set_int_max_str_digits() to increase the limit"

theorem ten_le_digitBound : 10 ≤ digitBound := by
  have h : maxDigits ≠ 0 := by decide
  unfold digitBound
  -- kept from being evaluated
  generalize maxDigits = k at h
  exact Nat.le_self_pow h 10

end RunoffAudit.Text
