import TreeManifest.Decimal.Numeral
import TreeManifest.Failure

/-!
# Token and cost accounts

The counters of a run. What a call reports is added to them; a report with a negative number is
refused and changes nothing. A price that is an integer beyond the range of doubles is refused too,
but only after its tokens have been counted.
-/

namespace TreeManifest

def Cost.toFloat? : Cost → Option Float
  | .whole n => Decimal.ofInt? n
  | .real x => some x

structure CallUsage where
  inputTokens : Int
  outputTokens : Int
  cost : Option Cost

/-- What a call is charged: a missing price and a price of zero are the same zero. -/
def CallUsage.charge (call : CallUsage) : Cost :=
  match call.cost with
  | none => .real 0.0
  | some (.whole n) => if n = 0 then .real 0.0 else .whole n
  | some (.real x) => if x == 0.0 then .real 0.0 else .real x

def CallUsage.isNegative (call : CallUsage) : Bool :=
  call.inputTokens < 0 || call.outputTokens < 0 || call.charge.isNegative

structure Usage where
  inputTokens : Int
  outputTokens : Int
  cost : Float
  calls : Nat

namespace Usage

def zero : Usage := ⟨0, 0, 0.0, 0⟩

def recordCall (usage : Usage) : Usage := { usage with calls := usage.calls + 1 }

def countTokens (usage : Usage) (call : CallUsage) : Usage :=
  { usage with
    inputTokens := usage.inputTokens + call.inputTokens
    outputTokens := usage.outputTokens + call.outputTokens }

def add (usage : Usage) (call : CallUsage) : Usage × Except Failure Unit :=
  if call.isNegative then
    (usage, .error (.negativeUsage call.inputTokens call.outputTokens call.charge))
  else match call.charge.toFloat? with
    | some cost => ({ usage.countTokens call with cost := usage.cost + cost }, .ok ())
    | none => (usage.countTokens call, .error .hugeInteger)

end Usage

end TreeManifest
