import TreeManifest.Decimal.Binary

/-!
# The fewest digits that read back

The shortest decimal within the reals that round to a given double: for one digit, two digits and so
on, the two decimals of that length next to the double are tried, and the first length with a hit
wins. Of two hits the nearer is taken. `Style` then fixes how digits and exponent are written.
-/

namespace TreeManifest.Decimal

/-- The decimal `digits · 10 ^ exponent`. -/
structure Digits where
  digits : Nat
  exponent : Int
  deriving DecidableEq, Repr

def leadingExponent (numerator denominator : Nat) : Int :=
  let guess : Int := (digitCount numerator : Int) - digitCount denominator
  let reaches : Bool :=
    if 0 ≤ guess then denominator * Nat.pow 10 guess.toNat ≤ numerator
    else denominator ≤ numerator * Nat.pow 10 (-guess).toNat
  if reaches then guess else guess - 1

/-- Whether `digits · 10 ^ exponent` lies between the fractions `low / unit` and `high / unit`; the
ends count if `closed`. -/
def within (closed : Bool) (low high unit : Nat) (d : Digits) : Bool :=
  let (value, one) :=
    if 0 ≤ d.exponent then (d.digits * Nat.pow 10 d.exponent.toNat * unit, 1)
    else (d.digits * unit, Nat.pow 10 (-d.exponent).toNat)
  if closed then low * one ≤ value && value ≤ high * one
  else low * one < value && value < high * one

/-- Of the two decimals of exponent `exponent` around `middle / unit`, the one between `low / unit`
and `high / unit`; of two, the nearer, and of two equally near the even one. -/
def nearestHit (closed : Bool) (low middle high unit : Nat) (exponent : Int) : Option Digits :=
  let (numerator, denominator) :=
    if 0 ≤ exponent then (middle, unit * Nat.pow 10 exponent.toNat)
    else (middle * Nat.pow 10 (-exponent).toNat, unit)
  let below : Digits := ⟨numerator / denominator, exponent⟩
  let above : Digits := ⟨numerator / denominator + 1, exponent⟩
  match within closed low high unit below, within closed low high unit above with
  | true, false => some below
  | false, true => some above
  | true, true => some ⟨roundDiv numerator denominator, exponent⟩
  | false, false => none

def Digits.normalize : Nat → Digits → Digits
  | 0, d => d
  | fuel + 1, d =>
    if d.digits ≠ 0 ∧ d.digits % 10 = 0 then normalize fuel ⟨d.digits / 10, d.exponent + 1⟩ else d

/-- The shortest decimal that rounds to `significand · 2 ^ exponent`. Below a power of two the
interval is half as wide as above it. Seventeen digits always suffice. -/
def shortest (significand : Nat) (exponent : Int) : Digits :=
  if significand = 0 then ⟨0, 0⟩
  else
    let closed := significand % 2 = 0
    let gap := if significand = Nat.pow 2 52 && -1074 < exponent then 1 else 2
    let (middle, unit) := scaled (4 * significand) (exponent - 2)
    let (low, _) := scaled (4 * significand - gap) (exponent - 2)
    let (high, _) := scaled (4 * significand + 2) (exponent - 2)
    let leading := leadingExponent middle unit
    let tries := (List.range 17).filterMap fun (n : Nat) =>
      nearestHit closed low middle high unit (leading - n)
    match tries.head? with
    | some d => d.normalize 18
    | none => ⟨0, 0⟩

/-- How a double is written: the names of the values that are not numbers. The rest is common to all
texts of the program: digits are written positionally while the exponent of the first is from -4 to
15, with `.0` after an integer, and otherwise as a mantissa and a signed exponent of two digits or
more. -/
structure Style where
  nan : String
  infinity : String

def Digits.positional (d : Digits) : String :=
  let ds := Nat.toDigits 10 d.digits
  if 0 ≤ d.exponent then String.ofList (ds ++ List.replicate d.exponent.toNat '0') ++ ".0"
  else
    let places := (-d.exponent).toNat
    let padded := List.replicate (places + 1 - ds.length) '0' ++ ds
    let split := padded.length - places
    String.ofList (padded.take split) ++ "." ++ String.ofList (padded.drop split)

def Digits.scientific (d : Digits) : String :=
  let ds := Nat.toDigits 10 d.digits
  let exponent := d.exponent + (ds.length - 1 : Nat)
  let size := Nat.toDigits 10 exponent.natAbs
  let mantissa := match ds with
    | [] => []
    | [c] => [c]
    | c :: rest => c :: '.' :: rest
  let sign := if exponent < 0 then '-' else '+'
  String.ofList
    (mantissa ++ 'e' :: sign :: List.replicate (2 - size.length) '0' ++ size)

def Digits.render (d : Digits) : String :=
  let first := d.exponent + ((Nat.toDigits 10 d.digits).length - 1 : Nat)
  if -4 ≤ first ∧ first < 16 then d.positional else d.scientific

def Style.render (style : Style) (x : Float) : String :=
  match Binary.ofFloat x with
  | .nan => style.nan
  | .infinite negative => (if negative then "-" else "") ++ style.infinity
  | .finite negative significand exponent =>
    (if negative then "-" else "") ++ (shortest significand exponent).render

def textStyle : Style := ⟨"nan", "inf"⟩

end TreeManifest.Decimal
