import TreeManifest.CommandLine.Arguments
import TreeManifest.Decimal.Fixed
import TreeManifest.Documentation
import TreeManifest.LogSetup
import TreeManifest.Settings.Reading

/-!
# The program

What the program does with a command line: it prints, it writes manifests, and it ends with an exit
code, or with a failure that nobody handles. The machine it runs on is a value.
-/

namespace TreeManifest.CommandLine

def version : String := "0.1.0"

structure Machine where
  fs : FileSystem
  environment : Mapping String String
  grammars : Source.Grammars
  provider : Provider.Behaviour

inductive Exit where
  | code (code : Nat)
  | failed (failure : Failure)

structure Finish where
  exit : Exit
  output : String
  errors : String
  events : List Event
  calls : List Provider.Call
  fs : FileSystem

def startingLog : LogSetup := ((LogSetup.initial none).setUp "INFO").1

def passing (threshold : Nat) (events : List Event) : List Event :=
  events.filter fun event => threshold ≤ event.level.rank

def Machine.finish (m : Machine) (exit : Exit) (output errors : String) (events : List Event) :
    Finish :=
  ⟨exit, output, errors, events, [], m.fs⟩

/-- The settings that the command line gives; empty texts give none. -/
def overrides (args : Generation) : List (String × Json) :=
  let given := fun (setting : Setting) (text : Option String) =>
    match text with
    | some text => if text = "" then [] else [(setting.name, Json.str text)]
    | none => []
  given .model args.model ++ given .manifestName args.manifestName

def summary (outcome : Documentation.Outcome) : String :=
  String.join (outcome.manifests.map fun manifest => "  wrote " ++ manifest ++ "\n") ++
    textLines
      ["",
        outcome.message,
        "Root manifest: " ++ outcome.path,
        s!"Tokens: {outcome.usage.inputTokens} in / {outcome.usage.outputTokens} out, cost $" ++
          Decimal.fixed 4 outcome.usage.cost]

def Machine.document (m : Machine) (root : String) (settings : Settings) (threshold : Nat)
    (early : List Event) : Finish :=
  let plan : Documentation.Plan :=
    { manifestName := settings.manifestName
      maxListed := settings.maxListed
      extractor := .parsing m.grammars settings.maxDefinitions
      lister := .walking }
  let client := Provider.client m.provider settings.toModel
  let announcement :=
    "Generating manifests for: " ++ root ++ " (" ++ settings.model ++ ")\n"
  let (result, session) := (Documentation.run plan client root).run (Session.start m.fs [])
  let (exit, output, errors) := match result with
    | .ok outcome => (Exit.code 0, announcement ++ summary outcome, "")
    | .error failure =>
      if failure.isHandled then
        (.code 1, announcement, "Error: generation failed: " ++ failure.message ++ "\n")
      else (.failed failure, announcement, "")
  { exit, output, errors
    events := early ++ passing threshold session.events
    calls := session.client
    fs := session.fs }

def Machine.generate (m : Machine) (args : Generation) : Finish :=
  let root := do
    let location ← m.fs.locate (Path.ofString (args.root.getD ""))
    let p := Path.ofLocation location
    return (p.toString, ← m.fs.isDirectory? p)
  match root with
  | .error failure => m.finish (.failed failure) "" "" []
  | .ok (root, false) => m.finish (.code 1) "" ("Error: " ++ root ++ " is not a directory\n") []
  | .ok (root, true) =>
    let reading := Settings.read m.fs m.environment (overrides args)
    let early := passing startingLog.threshold reading.events
    match reading.result with
    | .error (.unreadable failure) => m.finish (.failed failure) "" "" early
    | .error (.problems problems) =>
      m.finish (.code 1) ""
        ("Error: invalid configuration: " ++ Problem.report problems ++ "\n") early
    | .ok settings =>
      match startingLog.setLevel (if args.verbose then "DEBUG" else settings.logLevel) with
      | (_, some failure) => m.finish (.failed failure) "" "" early
      | (log, none) => m.document root settings log.threshold early

def Machine.run (m : Machine) (texts : List String) : Finish :=
  match Arguments.read texts with
  | .error (.help text) => m.finish (.code 0) text "" []
  | .error (.misuse usage program message) =>
    m.finish (.code 2) "" (usage ++ program ++ ": error: " ++ message ++ "\n") []
  | .ok args =>
    if args.version then m.finish (.code 0) (textLines [programName ++ " " ++ version]) "" []
    else match args.generation with
      | some generation => m.generate generation
      | none => m.finish (.code 0) programHelp "" []

end TreeManifest.CommandLine
