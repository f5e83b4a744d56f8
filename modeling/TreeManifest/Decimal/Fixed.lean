import TreeManifest.Decimal.Shortest

/-!
# A fixed number of places

A double rounded to a number of decimal places, from its exact value; a half goes to the even
neighbour. The sign of a negative value stays when the digits are all zero.
-/

namespace TreeManifest.Decimal

def fixed (places : Nat) (x : Float) : String :=
  match Binary.ofFloat x with
  | .nan => textStyle.nan
  | .infinite negative => (if negative then "-" else "") ++ textStyle.infinity
  | .finite negative significand exponent =>
    let (numerator, denominator) := scaled significand exponent
    let hundredths := roundDiv (numerator * Nat.pow 10 places) denominator
    let ds := Nat.toDigits 10 hundredths
    let padded := List.replicate (places + 1 - ds.length) '0' ++ ds
    let split := padded.length - places
    (if negative then "-" else "") ++ String.ofList (padded.take split) ++
      (if places = 0 then "" else "." ++ String.ofList (padded.drop split))

end TreeManifest.Decimal
