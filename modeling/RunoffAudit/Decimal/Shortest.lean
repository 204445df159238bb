import RunoffAudit.Decimal.Binary

/-! # The shortest decimal text of a double

Of the decimals that read back as a given double, the shortest is the one with the fewest digits,
and of those the nearest. The search looks at the double's two neighbours on the grid of `k`-digit
decimals for `k = 1, 2, ...`: if any point of a grid reads back, so does one of these two.
-/
namespace RunoffAudit.Decimal

structure Scientific where
  digits : Nat
  exponent : Int
deriving DecidableEq

/-- The reals that read back as `m * 2 ^ e`, scaled so that `low < value < high` are the numerators
of fractions over one denominator. The ends belong to the interval when `m` is even. -/
structure ReadBack where
  low : Nat
  value : Nat
  high : Nat
  den : Nat
  closed : Bool

/-- Below a power of two the doubles lie twice as dense, so the lower half-gap is halved there. -/
def ReadBack.of (m : Nat) (e : Int) : ReadBack :=
  let unit := Ratio.ofBinary 1 (e - 2)
  let lower := if m = hiddenBit ∧ leastExponent < e then 1 else 2
  ⟨(4 * m - lower) * unit.num, 4 * m * unit.num, (4 * m + 2) * unit.num, unit.den, m % 2 = 0⟩

def ReadBack.holds (b : ReadBack) (d : Nat) (e : Int) : Bool :=
  let r := Ratio.scale ⟨d, 1⟩ e
  let x := r.num * b.den
  if b.closed then decide (b.low * r.den ≤ x ∧ x ≤ b.high * r.den)
  else decide (b.low * r.den < x ∧ x < b.high * r.den)

/-- The `p` with `10 ^ (p - 1) ≤ r < 10 ^ p`, for a positive fraction. -/
def pointPosition (r : Ratio) : Int :=
  let guess : Int := ((Nat.toDigits 10 r.num).length : Int) - (Nat.toDigits 10 r.den).length
  let scaled := r.scale (-guess)
  if scaled.num < scaled.den then guess else guess + 1

/-- The double's neighbour on the grid of step `10 ^ e` that reads back, if one does. -/
def ReadBack.onGrid (b : ReadBack) (e : Int) : Option Nat :=
  let scaled := Ratio.scale ⟨b.value, b.den⟩ (-e)
  let below := scaled.floor
  match b.holds below e, b.holds (below + 1) e with
  | true, true => some scaled.round
  | true, false => some below
  | false, true => some (below + 1)
  | false, false => none

/-- Tries ever finer grids; seventeen digits always suffice. -/
def ReadBack.search (b : ReadBack) (point : Int) : (fuel digits : Nat) → Scientific
  | 0, digits =>
    let e := point - digits
    ⟨(Ratio.scale ⟨b.value, b.den⟩ (-e)).round, e⟩
  | fuel + 1, digits =>
    let e := point - digits
    match b.onGrid e with
    | some d => ⟨d, e⟩
    | none => b.search point fuel (digits + 1)

def Scientific.strip : (fuel : Nat) → Scientific → Scientific
  | 0, s => s
  | fuel + 1, s => if s.digits ≠ 0 ∧ s.digits % 10 = 0 then strip fuel ⟨s.digits / 10, s.exponent + 1⟩ else s

/-- The shortest decimal that reads back as `m * 2 ^ e`, for `m ≠ 0`. -/
def shortest (m : Nat) (e : Int) : Scientific :=
  let b := ReadBack.of m e
  (b.search (pointPosition ⟨b.value, b.den⟩) 16 1).strip 17

structure Layout where
  /-- Powers of ten from `positionalFrom` up to but excluding `positionalTo` are written without exponent. -/
  positionalFrom : Int
  positionalTo : Int
  exponentWidth : Nat
  /-- Whether a bare digit before an exponent still gets `.0`. -/
  pointBeforeExponent : Bool
  nan : String
  infinity : String

/-- The layout used in messages: from 1e-4 up to 1e16 without exponent, and always with a point or an exponent. -/
def Layout.message : Layout := ⟨-4, 16, 2, false, "nan", "inf"⟩

def zeros (n : Nat) : String := String.ofList (List.replicate n '0')

/-- Writes the digits `ds` so that the point stands after the first `point` of them. -/
def positional (ds : List Char) (point : Int) : String :=
  if point ≤ 0 then "0." ++ zeros (-point).toNat ++ String.ofList ds
  else if ds.length ≤ point.toNat then String.ofList ds ++ zeros (point.toNat - ds.length) ++ ".0"
  else String.ofList (ds.take point.toNat) ++ "." ++ String.ofList (ds.drop point.toNat)

def exponentText (width : Nat) (power : Int) : String :=
  let ds := Nat.toDigits 10 power.natAbs
  (if power < 0 then "e-" else "e+") ++ zeros (width - ds.length) ++ String.ofList ds

def Layout.write (l : Layout) (s : Scientific) : String :=
  let ds := Nat.toDigits 10 s.digits
  let point := s.exponent + ds.length
  let power := point - 1
  if l.positionalFrom ≤ power ∧ power < l.positionalTo then positional ds point
  else
    let lead := String.ofList (ds.take 1)
    let tail := String.ofList (ds.drop 1)
    let fraction := if tail = "" then (if l.pointBeforeExponent then ".0" else "") else "." ++ tail
    lead ++ fraction ++ exponentText l.exponentWidth power

def Layout.text (l : Layout) (x : Float) : String :=
  match Double.ofFloat x with
  | .nan => l.nan
  | .infinite negative => (if negative then "-" else "") ++ l.infinity
  | .finite negative m e =>
    (if negative then "-" else "") ++ (if m = 0 then "0.0" else l.write (shortest m e))

end RunoffAudit.Decimal
