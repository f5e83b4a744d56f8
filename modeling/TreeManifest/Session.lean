import TreeManifest.Client
import TreeManifest.Report
import TreeManifest.Source.DefinitionSet

/-!
# Sessions

What a run of the program works on and leaves behind: the file system, the parsers and the counters,
the state of its client, and everything it asked and logged, oldest first. A run either gives a
value or ends with a failure; the session after it is there in both cases.
-/

namespace TreeManifest

structure Session (σ : Type) where
  fs : FileSystem
  parsers : Source.Parsers
  usage : Usage
  client : σ
  requests : List Request
  events : List Event
  /-- The directory that is being documented. -/
  current : Path
  /-- The manifests that have been written. -/
  manifests : List String

def Session.start (fs : FileSystem) (client : σ) : Session σ :=
  ⟨fs, [], Usage.zero, client, [], [], ⟨.here, []⟩, []⟩

abbrev Run (σ : Type) := ExceptT Failure (StateM (Session σ))

namespace Run

def log (event : Event) : Run σ Unit :=
  modify fun s => { s with events := s.events ++ [event] }

def look (step : FileSystem → Report α) : Run σ α := do
  let report := step (← get).fs
  modify fun s => { s with events := s.events ++ report.events }
  ofExcept report.result
where
  ofExcept : Except Failure α → Run σ α
    | .ok value => pure value
    | .error failure => throw failure

def ask (client : Client σ) (request : Request) : Run σ Reply := do
  let s ← get
  let (reply, state) := client request s.client
  set { s with
    usage := s.usage.recordCall
    client := state
    requests := s.requests ++ [request]
    events := s.events ++ reply.events }
  return reply

end Run

end TreeManifest
