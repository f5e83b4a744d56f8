import TreeManifest.Client
import TreeManifest.Decimal.Binary
import TreeManifest.Json.Wording

/-!
# Streams of a provider

A provider sends parts: records whose members may be missing, null or of any kind. Of each part the
first choice counts; its reasoning and its text become chunks. The usage of the last part that
reports any becomes the last chunk, with the price that the provider's price list gives.
-/

namespace TreeManifest.Provider

inductive Part where
  | record (value : Json)
  | breaksOff (fault : Fault)

/-- The price list's answer for one call: nothing when it has none. -/
abbrev Price := Option (List Json)

/-- A price list, asked for a model and the tokens read and written. -/
abbrev PriceList := String → Int → Int → Price

/-- A member of a record; other values have none. -/
def attributeOf (name : String) (value : Json) : Json := (value.member? name).getD .null

def firstChoice? (part : Json) : Except Failure (Option Json) :=
  let choices := attributeOf "choices" part
  if !choices.isGiven then .ok none
  else match choices with
    | .arr (choice :: _) => .ok (some choice)
    | .str s => .ok (s.toList.head?.map fun c => .str (String.singleton c))
    | value => .error (.notIndexable value.kindName)

def deltaText? (name : String) (choice : Json) : Option String :=
  let value := attributeOf name (attributeOf "delta" choice)
  if value.isGiven then some value.runningText else none

/-- The chunks of a part: its reasoning before its text. -/
def partChunks (part : Json) : Except Failure (List Chunk) :=
  (firstChoice? part).map fun
    | none => []
    | some choice =>
      ((deltaText? "reasoning_content" choice).map .reasoning).toList ++
        ((deltaText? "content" choice).map .text).toList

/-- The usage that a part reports; null is no report. -/
def partUsage? (part : Json) : Option Json :=
  match attributeOf "usage" part with
  | .null => none
  | usage => some usage

def wholeOfText (text : String) : Except Failure Int :=
  let body := (Decimal.splitSign ((Decimal.withoutMargin text).map Text.asciiDigit)).2
  let digits := (Decimal.plainDigits? (body.takeWhile fun c => Decimal.isDigit c || c = '_')).getD []
  if Decimal.maxDigits < digits.length then .error (.longInteger digits.length)
  else match Decimal.parseInt? text with
    | some n => .ok n
    | none => .error (.badInteger text)

def wholeOfFloat (x : Float) : Except Failure Int :=
  match Decimal.Binary.ofFloat x with
  | .nan => .error .undefinedInteger
  | .infinite _ => .error .infiniteInteger
  | .finite negative significand exponent =>
    let (numerator, denominator) := Decimal.scaled significand exponent
    let size : Int := (numerator / denominator : Nat)
    .ok (if negative then -size else size)

/-- A count of tokens; one that is not given is zero. -/
def tokenCount (value : Json) : Except Failure Int :=
  if !value.isGiven then .ok 0
  else match value with
    | .int n => .ok n
    | .bool b => .ok (if b then 1 else 0)
    | .float x => wholeOfFloat x
    | .str s => wholeOfText s
    | value => .error (.notInteger value.kindName)

/-- The kind of an item of a price list, where records are plain tables. -/
def priceKind : Json → String
  | .obj _ => "dict"
  | value => value.kindName

def priceNumber (value : Json) : Except Failure Float :=
  match value with
  | .int n => match Decimal.ofInt? n with
    | some x => .ok x
    | none => .error .hugeInteger
  | .bool b => .ok (if b then 1.0 else 0.0)
  | .float x => .ok x
  | .str s => match Decimal.parseFloat? s with
    | some x => .ok x
    | none => .error (.badNumber s)
  | value => .error (.notNumber (priceKind value))

def totalPrice (price : Price) : Except Failure (Option Float) :=
  match price with
  | some [input, output] => do
    let input ← priceNumber input
    let output ← priceNumber output
    return some (input + output)
  | _ => .ok none

/-- The end of a stream that was not broken off: the chunk for the last reported usage. -/
def ending (model : String) (prices : PriceList) (usage : Option Json) : Reply :=
  match usage with
  | none => ⟨[], [.usageMissing model], none⟩
  | some usage =>
    let counts := do
      let input ← tokenCount (attributeOf "prompt_tokens" usage)
      let output ← tokenCount (attributeOf "completion_tokens" usage)
      return (input, output)
    match counts with
    | .error failure => ⟨[], [], some failure⟩
    | .ok (input, output) => match totalPrice (prices model input output) with
      | .error failure => ⟨[], [], some failure⟩
      | .ok total =>
        let events := if total.isNone then [Event.costUnavailable model] else []
        ⟨[.usage ⟨input, output, total.map .real⟩], events, none⟩

def replyFrom (model : String) (prices : PriceList) : (usage : Option Json) → List Part → Reply
  | usage, [] => ending model prices usage
  | _, .breaksOff fault :: _ => ⟨[], [], some (.raised fault)⟩
  | usage, .record part :: parts =>
    match partChunks part with
    | .error failure => ⟨[], [], some failure⟩
    | .ok chunks =>
      let rest := replyFrom model prices ((partUsage? part).or usage) parts
      { rest with chunks := chunks ++ rest.chunks }

end TreeManifest.Provider
