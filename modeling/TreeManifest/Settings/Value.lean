import TreeManifest.Decimal.Binary
import TreeManifest.Decimal.Numeral
import TreeManifest.Path
import TreeManifest.Settings.Problem

/-!
# Values of settings

How a value from any source becomes a text, an integer or a number, and the further conditions on
single settings. Texts are not made from other values; integers and numbers are read from text.
-/

namespace TreeManifest.Setting

def textOf : Json → Except Complaint String
  | .str s => .ok s
  | _ => .error .notText

def wholeOfText? (text : String) : Option Int := do
  let (negative, body) := Decimal.splitSign (Decimal.withoutMargin text)
  let (front, tail) := body.span (· ≠ '.')
  if (tail.drop 1).all (· = '0') then
    let digits ← Decimal.plainDigits? front
    let n : Int := Decimal.digitsValue digits
    return if negative then -n else n
  else none

def wholeBound : Int := Int.pow 2 63

def wholeOfFloat (x : Float) : Except Complaint Int :=
  match Decimal.Binary.ofFloat x with
  | .nan | .infinite _ => .error .notFinite
  | .finite negative significand exponent =>
    let (numerator, denominator) := Decimal.scaled significand exponent
    if numerator % denominator ≠ 0 then .error .hasFraction
    else
      let size : Int := (numerator / denominator : Nat)
      if wholeBound ≤ size then .error .tooLarge else .ok (if negative then -size else size)

/-- Integers from text have at most `Decimal.maxDigits` digits after leading zeros. -/
def wholeOf : Json → Except Complaint Int
  | .int n => .ok n
  | .bool b => .ok (if b then 1 else 0)
  | .float x => wholeOfFloat x
  | .str s => match wholeOfText? s with
    | some n => if Nat.pow 10 Decimal.maxDigits ≤ n.natAbs then .error .tooLarge else .ok n
    | none => .error .notIntegerText
  | _ => .error .notInteger

def hasDoubleUnderscore : List Char → Bool
  | '_' :: '_' :: _ => true
  | _ :: rest => hasDoubleUnderscore rest
  | [] => false

/-- A text without its underscores, which must be single and not at its ends. -/
def withoutUnderscores? (cs : List Char) : Option (List Char) :=
  if cs.head? = some '_' || cs.getLast? = some '_' || hasDoubleUnderscore cs then none
  else some (cs.filter (· ≠ '_'))

def numberOfText? (text : String) : Option Float :=
  (withoutUnderscores? (Decimal.withoutMargin text)).bind Decimal.parseNumber?

def numberOf : Json → Except Complaint Float
  | .float x => .ok x
  | .int n => match Decimal.ofInt? n with
    | some x => .ok x
    | none => .error .notNumber
  | .bool b => .ok (if b then 1.0 else 0.0)
  | .str s => match numberOfText? s with
    | some x => .ok x
    | none => .error .notNumberText
  | _ => .error .notNumber

def modelOf (value : Json) : Except Complaint String := do
  let text ← textOf value
  match Text.trim text.toList with
  | [] => throw .emptyModel
  | kept => return String.ofList kept

/-- Whether a text can stand for a file in any directory: it is one part of a path. -/
def isBareName (name : String) : Bool :=
  name ≠ "" && (Path.ofString name).name = name && name ≠ "." && name ≠ ".."

def manifestNameOf (value : Json) : Except Complaint String := do
  let text ← textOf value
  if isBareName text then return text else throw (.notBareName text)

def isYamlName (name : String) : Bool :=
  ".yaml".toList.isSuffixOf name.toList || ".yml".toList.isSuffixOf name.toList

def limitOf (value : Json) : Except Complaint Int := do
  let n ← wholeOf value
  if n < 1 then throw .limitTooSmall else return n

end TreeManifest.Setting
