import TreeManifest.Decimal.Numeral
import TreeManifest.Json.Basic

/-!
# Reading JSON

A reader for one value at the head of a text (`readValue`) and for a whole text (`parse`). Beside
the standard it takes `NaN`, `Infinity` and `-Infinity`. Numbers with a point or an exponent are
decimals and the others integers. Nesting is bounded, so a value that is read can be printed.
-/

namespace TreeManifest.Json

inductive ReadError where
  | malformed
  /-- More nested lists and objects than a reader follows. -/
  | tooDeep
  /-- An integer of more digits than a reader converts. -/
  | tooLong
  deriving DecidableEq, Repr

def maxDepth : Nat := 990

def isSpace (c : Char) : Bool := c = ' ' || c = '\t' || c = '\n' || c = '\r'

def skipSpace (cs : List Char) : List Char := cs.dropWhile isSpace

def hexValue? (c : Char) : Option Nat :=
  if '0' ≤ c && c ≤ '9' then some (c.toNat - 0x30)
  else if 'a' ≤ c && c ≤ 'f' then some (c.toNat - 0x61 + 10)
  else if 'A' ≤ c && c ≤ 'F' then some (c.toNat - 0x41 + 10)
  else none

def hexQuad? (a b c d : Char) : Option Nat := do
  return (((← hexValue? a) * 16 + (← hexValue? b)) * 16 + (← hexValue? c)) * 16 + (← hexValue? d)

def shortEscape? (c : Char) : Option Nat :=
  match c with
  | '"' | '\\' | '/' => some c.toNat
  | 'b' => some 0x08
  | 'f' => some 0x0C
  | 'n' => some 0x0A
  | 'r' => some 0x0D
  | 't' => some 0x09
  | _ => none

def readUnits : List Char → Option (List Nat × List Char)
  | [] => none
  | '"' :: rest => some ([], rest)
  | '\\' :: 'u' :: a :: b :: c :: d :: rest => do
    let unit ← hexQuad? a b c d
    let (units, rest) ← readUnits rest
    return (unit :: units, rest)
  | '\\' :: e :: rest => do
    let unit ← shortEscape? e
    let (units, rest) ← readUnits rest
    return (unit :: units, rest)
  | c :: rest =>
    if c.toNat < 0x20 then none
    else do
      let (units, rest) ← readUnits rest
      return (c.toNat :: units, rest)

/-- Pairs of surrogates become one character; a lone one becomes U+FFFD. -/
def joinSurrogates : List Nat → List Char
  | [] => []
  | high :: low :: rest =>
    if 0xD800 ≤ high && high < 0xDC00 && 0xDC00 ≤ low && low < 0xE000 then
      Char.ofNat (0x10000 + (high - 0xD800) * 0x400 + (low - 0xDC00)) :: joinSurrogates rest
    else (if 0xD800 ≤ high && high < 0xE000 then '\uFFFD' else Char.ofNat high) ::
      joinSurrogates (low :: rest)
  | [unit] => [if 0xD800 ≤ unit && unit < 0xE000 then '\uFFFD' else Char.ofNat unit]

def readText (cs : List Char) : Option (String × List Char) :=
  (readUnits cs).map fun (units, rest) => (String.ofList (joinSurrogates units), rest)

def readWhole? : List Char → Option (List Char × List Char)
  | '0' :: rest => some (['0'], rest)
  | c :: rest =>
    if Decimal.isDigit c then some ((c :: rest).span Decimal.isDigit) else none
  | [] => none

def readFraction : List Char → List Char × List Char
  | '.' :: rest =>
    match rest.span Decimal.isDigit with
    | ([], _) => ([], '.' :: rest)
    | taken => taken
  | cs => ([], cs)

def readExponent (cs : List Char) : Option Int × List Char :=
  match cs with
  | c :: rest =>
    if c = 'e' || c = 'E' then
      let (negative, body) := Decimal.splitSign rest
      match body.span Decimal.isDigit with
      | ([], _) => (none, cs)
      | (digits, rest) =>
        let n : Int := Decimal.digitsValue digits
        (some (if negative then -n else n), rest)
    else (none, cs)
  | [] => (none, cs)

def readNumber (negative : Bool) (cs : List Char) : Except ReadError (Json × List Char) :=
  match readWhole? cs with
  | none => .error .malformed
  | some (whole, rest) =>
    let (fraction, rest) := readFraction rest
    let (exponent, rest) := readExponent rest
    if fraction = [] && exponent = none then
      if Decimal.maxDigits < whole.length then .error .tooLong
      else
        let n : Int := Decimal.digitsValue whole
        .ok (int (if negative then -n else n), rest)
    else
      let x := (Decimal.Parts.mk whole fraction (exponent.getD 0)).toFloat
      .ok (float (if negative then -x else x), rest)

mutual

/-- One value at the head of a text, and the rest. `fuel` bounds the steps and `depth` the nesting
that is still allowed. -/
def readValue : (fuel depth : Nat) → List Char → Except ReadError (Json × List Char)
  | 0, _, _ => .error .malformed
  | fuel + 1, depth, cs =>
    match cs with
    | '"' :: rest => match readText rest with
      | some (s, rest) => .ok (str s, rest)
      | none => .error .malformed
    | '[' :: rest => match depth with
      | 0 => .error .tooDeep
      | depth + 1 => match skipSpace rest with
        | ']' :: rest => .ok (arr [], rest)
        | rest => (readItems fuel depth rest).map fun (items, rest) => (arr items, rest)
    | '{' :: rest => match depth with
      | 0 => .error .tooDeep
      | depth + 1 => match skipSpace rest with
        | '}' :: rest => .ok (obj [], rest)
        | rest =>
          (readMembers fuel depth rest).map fun (members, rest) => (obj (Mapping.ofList members), rest)
    | 'n' :: 'u' :: 'l' :: 'l' :: rest => .ok (null, rest)
    | 't' :: 'r' :: 'u' :: 'e' :: rest => .ok (bool true, rest)
    | 'f' :: 'a' :: 'l' :: 's' :: 'e' :: rest => .ok (bool false, rest)
    | 'N' :: 'a' :: 'N' :: rest => .ok (float (0.0 / 0.0), rest)
    | 'I' :: 'n' :: 'f' :: 'i' :: 'n' :: 'i' :: 't' :: 'y' :: rest => .ok (float (1.0 / 0.0), rest)
    | '-' :: 'I' :: 'n' :: 'f' :: 'i' :: 'n' :: 'i' :: 't' :: 'y' :: rest =>
      .ok (float (-1.0 / 0.0), rest)
    | '-' :: rest => readNumber true rest
    | rest => readNumber false rest

def readItems : (fuel depth : Nat) → List Char → Except ReadError (List Json × List Char)
  | 0, _, _ => .error .malformed
  | fuel + 1, depth, cs => do
    let (item, rest) ← readValue fuel depth cs
    match skipSpace rest with
    | ']' :: rest => return ([item], rest)
    | ',' :: rest =>
      let (items, rest) ← readItems fuel depth (skipSpace rest)
      return (item :: items, rest)
    | _ => .error .malformed

def readMembers :
    (fuel depth : Nat) → List Char → Except ReadError (List (String × Json) × List Char)
  | 0, _, _ => .error .malformed
  | fuel + 1, depth, cs =>
    match cs with
    | '"' :: rest => match readText rest with
      | none => .error .malformed
      | some (key, rest) => match skipSpace rest with
        | ':' :: rest => do
          let (value, rest) ← readValue fuel depth (skipSpace rest)
          match skipSpace rest with
          | '}' :: rest => return ([(key, value)], rest)
          | ',' :: rest =>
            let (members, rest) ← readMembers fuel depth (skipSpace rest)
            return ((key, value) :: members, rest)
          | _ => .error .malformed
        | _ => .error .malformed
    | _ => .error .malformed

end

/-- The value at the head of a text, and the rest. Every step takes a character or ends a value, so
twice the length is fuel enough. -/
def readFirst (cs : List Char) : Except ReadError (Json × List Char) :=
  readValue (2 * cs.length + 2) maxDepth cs

def parse (text : String) : Except ReadError Json := do
  let (value, rest) ← readFirst (skipSpace text.toList)
  if skipSpace rest = [] then return value else .error .malformed

end TreeManifest.Json
