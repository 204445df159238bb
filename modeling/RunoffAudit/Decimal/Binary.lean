/-! # The exact value of a double

A finite double is a sign and a magnitude `significand * 2 ^ exponent`. Every decimal text of a
double is computed from this pair in exact natural-number arithmetic, and every decimal is read by it.
-/
namespace RunoffAudit.Decimal

inductive Double where
  | nan
  | infinite (negative : Bool)
  | finite (negative : Bool) (significand : Nat) (exponent : Int)
deriving DecidableEq

/-- The exponent shared by the subnormal doubles and the smallest normal ones. -/
def leastExponent : Int := -1074

/-- The leading bit of a significand of 53 bits. The bits of a double leave it out. -/
def hiddenBit : Nat := 1 <<< 52

def Double.ofFloat (x : Float) : Double :=
  let bits := x.toBits.toNat
  let negative : Bool := 2048 * hiddenBit ≤ bits
  let field := bits / hiddenBit % 2048
  let fraction := bits % hiddenBit
  if field = 2047 then
    if fraction = 0 then .infinite negative else .nan
  else if field = 0 then .finite negative fraction leastExponent
  else .finite negative (fraction + hiddenBit) (leastExponent + (field - 1 : Nat))

/-- The bits of the positive double `significand * 2 ^ exponent`. The hidden bit falls on the exponent field
and counts it up by one; a significand that was rounded up to 54 bits does so twice. -/
def Double.magnitudeBits (significand : Nat) (exponent : Int) : Nat :=
  (exponent - leastExponent).toNat * hiddenBit + significand

def Double.toFloat : Double → Float
  | nan => 0.0 / 0.0
  | infinite negative => ofBits negative (2047 * hiddenBit)
  | finite negative m e => ofBits negative (magnitudeBits m e)
where
  ofBits (negative : Bool) (magnitude : Nat) : Float :=
    Float.ofBits (UInt64.ofNat ((if negative then 2048 * hiddenBit else 0) + magnitude))

/-- A non-negative fraction; the denominator is meant to be positive. -/
structure Ratio where
  num : Nat
  den : Nat
deriving DecidableEq

def Ratio.shift (r : Ratio) (e : Int) : Ratio :=
  if 0 ≤ e then ⟨r.num <<< e.toNat, r.den⟩ else ⟨r.num, r.den <<< (-e).toNat⟩

def Ratio.ofBinary (m : Nat) (e : Int) : Ratio := Ratio.shift ⟨m, 1⟩ e

def Ratio.scale (r : Ratio) (e : Int) : Ratio :=
  if 0 ≤ e then ⟨r.num * Nat.pow 10 e.toNat, r.den⟩ else ⟨r.num, r.den * Nat.pow 10 (-e).toNat⟩

def Ratio.floor (r : Ratio) : Nat := r.num / r.den

/-- The nearest natural number; a half goes to the even neighbour. -/
def Ratio.round (r : Ratio) : Nat :=
  let below := r.num / r.den
  let rest := 2 * (r.num % r.den)
  if rest < r.den then below
  else if r.den < rest then below + 1
  else below + below % 2

end RunoffAudit.Decimal
