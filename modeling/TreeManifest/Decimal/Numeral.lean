import TreeManifest.Text.Blank
import TreeManifest.Text.Digit

/-!
# Reading numerals

Integers and decimals as people write them in settings and reports: blanks around, a sign, digits of
any script where the reader allows them, single underscores between digits.
-/

namespace TreeManifest.Decimal

def isDigit (c : Char) : Bool := '0' ≤ c && c ≤ '9'

/-- Blanks that may stand around a numeral: those of running text without the separator controls. -/
def isMargin (c : Char) : Bool :=
  Text.isBlank c && !(0x1C ≤ c.toNat && c.toNat ≤ 0x1F)

def withoutMargin (text : String) : List Char := Text.trimWhile isMargin text.toList

/-- The most digits of an integer that is read from text. -/
def maxDigits : Nat := 4300

def digitsValue (cs : List Char) : Nat := cs.foldl (fun n c => 10 * n + (c.toNat - 0x30)) 0

/-- `digits · 10 ^ exponent`, rounded to the nearest double. The bounds only spare the computation
of huge powers: beyond them the result is infinite or zero. -/
def toFloat (digits : Nat) (exponent : Int) : Float :=
  if digits = 0 then 0.0
  else
    let leading := exponent + (Nat.toDigits 10 digits).length
    if 400 < leading then 1.0 / 0.0
    else if leading < -400 then 0.0
    else if 0 ≤ exponent then Float.ofScientific digits false exponent.toNat
    else Float.ofScientific digits true (-exponent).toNat

/-- An integer as a double; `none` if it rounds beyond the largest one. -/
def ofInt? (n : Int) : Option Float :=
  let x := toFloat n.natAbs 0
  if x.isInf then none else some (if n < 0 then -x else x)

def splitSign : List Char → Bool × List Char
  | '-' :: rest => (true, rest)
  | '+' :: rest => (false, rest)
  | cs => (false, cs)

/-- Digits with single underscores between them, underscores removed. -/
def plainDigits? (cs : List Char) : Option (List Char) :=
  let rec go (afterDigit : Bool) : List Char → Option (List Char)
    | [] => if afterDigit then some [] else none
    | c :: rest =>
      if isDigit c then (go true rest).map (c :: ·)
      else if c = '_' && afterDigit then go false rest
      else none
  go false cs

/-- An integer with blanks around it, a sign, digits of any script and single underscores. -/
def parseInt? (text : String) : Option Int := do
  let (negative, body) := splitSign ((withoutMargin text).map Text.asciiDigit)
  let digits ← plainDigits? body
  let n : Int := digitsValue digits
  return if negative then -n else n

structure Parts where
  whole : List Char
  fraction : List Char
  exponent : Int

def Parts.toFloat (p : Parts) : Float :=
  Decimal.toFloat (digitsValue (p.whole ++ p.fraction)) (p.exponent - p.fraction.length)

def parseExponent? : List Char → Option Int
  | [] => some 0
  | c :: rest =>
    if c = 'e' || c = 'E' then do
      let (negative, body) := splitSign rest
      let digits ← plainDigits? body
      let n : Int := digitsValue digits
      return if negative then -n else n
    else none

/-- Digits, a point and more digits, one of the two runs possibly empty, then an exponent. -/
def parseParts? (cs : List Char) : Option Parts := do
  let inNumber := fun c => isDigit c || c = '_'
  let optional := fun ds => if ds = [] then some [] else plainDigits? ds
  let whole ← optional (cs.takeWhile inNumber)
  match cs.dropWhile inNumber with
  | '.' :: rest =>
    let fraction ← optional (rest.takeWhile inNumber)
    let exponent ← parseExponent? (rest.dropWhile inNumber)
    if whole = [] && fraction = [] then none else some ⟨whole, fraction, exponent⟩
  | rest =>
    let exponent ← parseExponent? rest
    if whole = [] then none else some ⟨whole, [], exponent⟩

def parseNumber? (cs : List Char) : Option Float := do
  let (negative, body) := splitSign cs
  let name := body.map Char.toLower
  let size ←
    if name = "inf".toList || name = "infinity".toList then some (1.0 / 0.0 : Float)
    else if name = "nan".toList then some (0.0 / 0.0)
    else (parseParts? body).map Parts.toFloat
  return if negative then -size else size

def parseFloat? (text : String) : Option Float :=
  parseNumber? ((withoutMargin text).map Text.asciiDigit)

end TreeManifest.Decimal
