import RunoffAudit.Decimal.Binary

/-! # Reading decimals

The double nearest to a fraction, found in exact arithmetic; a tie goes to the even significand.
Decimals far outside the range of doubles are settled by their size alone, so that no large power of ten
is computed for them.
-/
namespace RunoffAudit.Decimal

def greatestExponent : Int := 971

/-- The exponent that leaves 53 bits before the point of a positive fraction, or the least exponent of
doubles if that is larger. -/
def Ratio.exponent (r : Ratio) : Int :=
  let guess : Int := (r.num.log2 : Int) - r.den.log2 - 53
  max leastExponent (if 2 * hiddenBit ≤ (r.shift (-guess)).floor then guess + 1 else guess)

def Double.nearest (negative : Bool) (r : Ratio) : Double :=
  if r.num = 0 then .finite negative 0 leastExponent
  else if greatestExponent < r.exponent then .infinite negative
  else .finite negative (r.shift (-r.exponent)).round r.exponent

/-- The double nearest to `digits * 10 ^ exponent`. -/
def toFloat (negative : Bool) (digits : Nat) (exponent : Int) : Float :=
  let size := exponent + (Nat.toDigits 10 digits).length
  Double.toFloat <|
    if digits = 0 ∨ size < -400 then .finite negative 0 leastExponent
    else if 400 < size then .infinite negative
    else .nearest negative (Ratio.scale ⟨digits, 1⟩ exponent)

/-- The least natural number that is rounded beyond the largest double. -/
def overflowBound : Nat := (1 <<< 1024) - (1 <<< 970)

/-- The double nearest to an integer, unless it lies beyond the largest double. -/
def ofInt? (n : Int) : Option Float :=
  if n.natAbs < overflowBound then some (Double.nearest (n < 0) ⟨n.natAbs, 1⟩).toFloat else none

/-- The largest double that is not above a fraction. A double is above the one exactly if it is above the
other, so the double can stand for the fraction as a limit. -/
def Double.atMost (r : Ratio) : Double :=
  if r.num = 0 then .finite false 0 leastExponent
  else if greatestExponent < r.exponent then .finite false (2 * hiddenBit - 1) greatestExponent
  else .finite false (r.shift (-r.exponent)).floor r.exponent

end RunoffAudit.Decimal
