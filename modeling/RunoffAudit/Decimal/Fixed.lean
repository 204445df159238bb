import RunoffAudit.Decimal.Read

/-! # Decimals with a fixed number of places

A double is rounded from its exact binary value; a half goes to the even neighbour.
-/
namespace RunoffAudit.Decimal

/-- `n` as a decimal with `places` digits after the point. -/
def placed (n places : Nat) : String :=
  let ds := Nat.toDigits 10 n
  let padded := List.replicate (places + 1 - ds.length) '0' ++ ds
  let cut := padded.length - places
  String.ofList (padded.take cut) ++ "." ++ String.ofList (padded.drop cut)

/-- The text of a double rounded to `places` places. -/
def fixed (places : Nat) (x : Float) : String :=
  match Double.ofFloat x with
  | .nan => "nan"
  | .infinite negative => if negative then "-inf" else "inf"
  | .finite negative m e =>
    (if negative then "-" else "") ++ placed ((Ratio.ofBinary m e).scale places).round places

def roundTo (places : Nat) (x : Float) : Float :=
  match Double.ofFloat x with
  | .nan => x
  | .infinite _ => x
  | .finite negative m e =>
    (Double.nearest negative (Ratio.scale ⟨((Ratio.ofBinary m e).scale places).round, 1⟩ (-places))).toFloat

end RunoffAudit.Decimal
