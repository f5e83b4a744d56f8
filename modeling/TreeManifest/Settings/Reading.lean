import TreeManifest.Event
import TreeManifest.Provider.Call
import TreeManifest.Settings.EnvFile
import TreeManifest.Settings.Value
import TreeManifest.Text.Case
import TreeManifest.Text.Lines

/-!
# Settings

The settings of the program and where they come from: what the caller gives, the environment, an
environment file in the working directory, and the defaults, in this order. Names match in any case.
All settings are checked, and every one that is refused is reported.
-/

namespace TreeManifest

structure Settings where
  anthropicKey : String
  openaiKey : String
  model : String
  timeout : Int
  maxOutputTokens : Int
  temperature : Float
  manifestName : String
  maxListed : Int
  maxDefinitions : Int
  logLevel : String

inductive Rejection where
  | problems (problems : List Problem)
  /-- The environment file cannot be read. -/
  | unreadable (failure : Failure)

namespace Settings

def default : Settings :=
  { anthropicKey := ""
    openaiKey := ""
    model := "anthropic/claude-3-5-sonnet-20241022"
    timeout := 120
    maxOutputTokens := 8192
    temperature := 0.0
    manifestName := "stc.yaml"
    maxListed := 200
    maxDefinitions := 50
    logLevel := "INFO" }

/-- Where a value is looked for: sources in the order of their rank, each by names in lower case. -/
abbrev Sources := List (Mapping String Json)

def lowerNames (values : List (String × Json)) : Mapping String Json :=
  Mapping.ofList (values.map fun (name, value) => (Text.lower name, value))

def envFileName : String := ".env"

/-- The values of the environment file, if there is one. A name without a value takes the value
away that another spelling of it had. -/
def fileValues (fs : FileSystem) (environment : Mapping String String) :
    Except Failure (Mapping String Json) := do
  let p := Path.ofString envFileName
  if !(← fs.isFile? p) then return []
  match fs.read p with
  | .error error => throw (FileSystem.pathFailure p error)
  | .ok octets => match Text.Utf8.decodeStrict octets with
    | .error malformed => throw (.malformedText malformed)
    | .ok cs =>
      let values := EnvFile.read environment (Text.unifyLineEnds cs)
      let named := Mapping.ofList (values.map fun (name, value) => (Text.lower name, value))
      return named.filterMap fun (name, value) => value.map fun text => (name, .str text)

def value? (sources : Sources) (setting : Setting) : Option Json :=
  sources.findSome? (Mapping.get? setting.name)

def check (sources : Sources) (setting : Setting) (default : α) (read : Json → Except Complaint α) :
    Except Problem α :=
  match value? sources setting with
  | none => .ok default
  | some value => (read value).mapError fun complaint => ⟨setting, complaint, value⟩

def problem? : Except Problem α → Option Problem
  | .ok _ => none
  | .error problem => some problem

def ofSources (sources : Sources) : Except (List Problem) Settings :=
  let anthropicKey := check sources .anthropicKey default.anthropicKey Setting.textOf
  let openaiKey := check sources .openaiKey default.openaiKey Setting.textOf
  let model := check sources .model default.model Setting.modelOf
  let timeout := check sources .timeout default.timeout Setting.wholeOf
  let maxOutputTokens :=
    check sources .maxOutputTokens default.maxOutputTokens Setting.wholeOf
  let temperature := check sources .temperature default.temperature Setting.numberOf
  let manifestName := check sources .manifestName default.manifestName Setting.manifestNameOf
  let maxListed := check sources .maxListed default.maxListed Setting.limitOf
  let maxDefinitions := check sources .maxDefinitions default.maxDefinitions Setting.limitOf
  let logLevel := check sources .logLevel default.logLevel Setting.textOf
  let problems :=
    [problem? anthropicKey, problem? openaiKey, problem? model, problem? timeout,
      problem? maxOutputTokens, problem? temperature, problem? manifestName, problem? maxListed,
      problem? maxDefinitions, problem? logLevel].filterMap id
  let settings : Except Problem Settings := do
    return ⟨← anthropicKey, ← openaiKey, ← model, ← timeout, ← maxOutputTokens, ← temperature,
      ← manifestName, ← maxListed, ← maxDefinitions, ← logLevel⟩
  settings.mapError fun _ => problems

/-- The warning about the name of the manifests. It does not wait for the other settings. -/
def nameEvents (sources : Sources) : List Event :=
  match check sources .manifestName default.manifestName Setting.manifestNameOf with
  | .ok name => if Setting.isYamlName name then [] else [.unusualManifestName name]
  | .error _ => []

/-- Settings or why there are none, and the warnings on the way. -/
structure Reading where
  events : List Event
  result : Except Rejection Settings

def read (fs : FileSystem) (environment : Mapping String String) (given : List (String × Json)) :
    Reading :=
  match fileValues fs environment with
  | .error failure => ⟨[], .error (.unreadable failure)⟩
  | .ok file =>
    let named := environment.map fun (name, value) => (name, Json.str value)
    let sources := [lowerNames given, lowerNames named, file]
    ⟨nameEvents sources, (ofSources sources).mapError .problems⟩

def provider (settings : Settings) : String :=
  Text.lower (String.ofList (settings.model.toList.takeWhile (· ≠ '/')))

/-- The key for the provider of the model, if one is set. Other providers get none. -/
def apiKey? (settings : Settings) : Option String :=
  let key :=
    if settings.provider = "anthropic" then settings.anthropicKey
    else if settings.provider = "openai" then settings.openaiKey
    else ""
  if key = "" then none else some key

def toModel (settings : Settings) : Provider.Model :=
  { name := settings.model
    timeout := settings.timeout
    maxTokens := settings.maxOutputTokens
    temperature := settings.temperature
    apiKey := settings.apiKey? }

end Settings

end TreeManifest
