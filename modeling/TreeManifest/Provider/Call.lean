import TreeManifest.Provider.Stream

/-!
# Calls of a provider

A client for any provider of streamed completions. A stream is opened by a call; a call that meets a
rate limit is made again, three times in all, and then its error stands. Once a stream is open
nothing is repeated. Every call of one request has the same arguments.
-/

namespace TreeManifest.Provider

structure Model where
  name : String
  timeout : Int
  maxTokens : Int
  temperature : Float
  apiKey : Option String

structure Call where
  model : Model
  request : Request

def messageJson (role content : String) : Json :=
  .obj [("role", .str role), ("content", .str content)]

/-- The arguments by name. The key is left out if there is none. -/
def Call.arguments (call : Call) : List (String × Json) :=
  [("model", .str call.model.name),
    ("messages", .arr (messageJson "system" call.request.system ::
      call.request.messages.map fun m => messageJson m.speaker.text m.content)),
    ("stream", .bool true),
    ("stream_options", .obj [("include_usage", .bool true)]),
    ("timeout", .int call.model.timeout),
    ("max_tokens", .int call.model.maxTokens),
    ("temperature", .float call.model.temperature)] ++
  (call.model.apiKey.map fun key => ("api_key", .str key)).toList

inductive Opening where
  | refused (fault : Fault)
  | stream (parts : List Part)

def maxAttempts : Nat := 3

def isRateLimit (fault : Fault) : Bool := fault.sort = .provider .rateLimit

/-- What a provider does: the outcome of its `n`-th call, counted from zero, and its price list. -/
structure Behaviour where
  opening : Nat → Opening
  prices : PriceList

/-- The outcome of a call with number `n` and of at most `retries` further ones, and how many calls
were made. -/
def outcomeFrom (opening : Nat → Opening) : (retries n : Nat) → Except Fault (List Part) × Nat
  | 0, n => match opening n with
    | .refused fault => (.error fault, 1)
    | .stream parts => (.ok parts, 1)
  | retries + 1, n => match opening n with
    | .stream parts => (.ok parts, 1)
    | .refused fault =>
      if isRateLimit fault then
        let (outcome, calls) := outcomeFrom opening retries (n + 1)
        (outcome, calls + 1)
      else (.error fault, 1)

def client (behaviour : Behaviour) (model : Model) : Client (List Call) := fun request calls =>
  let (outcome, made) := outcomeFrom behaviour.opening (maxAttempts - 1) calls.length
  let reply := match outcome with
    | .error fault => ⟨[], [], some (.raised fault)⟩
    | .ok parts => replyFrom model.name behaviour.prices none parts
  (reply, calls ++ List.replicate made ⟨model, request⟩)

end TreeManifest.Provider
