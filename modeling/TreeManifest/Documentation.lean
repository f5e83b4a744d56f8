import TreeManifest.Collection
import TreeManifest.FirstLevel
import TreeManifest.Manifest
import TreeManifest.Prompt.Template

/-!
# Documenting a tree

A run writes the manifest of a root and then one for each of its first-level directories, strictly
in order and with one call of the model each. The first failure ends the run; it is logged with the
directory at hand, and the manifests written before it stay.
-/

namespace TreeManifest

abbrev Extractor := FileSystem → Source.Parsers → Path → Report (Json × Source.Parsers)

def Extractor.parsing (grammars : Source.Grammars) (limit : Int) : Extractor :=
  fun fs parsers p => do
    let (set, parsers) ← Source.extract grammars limit fs parsers p
    return (set.toJson, parsers)

namespace Documentation

structure Plan where
  manifestName : String
  maxListed : Int
  extractor : Extractor
  lister : Lister

structure Outcome where
  message : String
  /-- The manifest of the root. -/
  path : String
  usage : Usage
  manifests : List String

def extract (plan : Plan) (directory : Path) : Run σ Json := do
  let parsers := (← get).parsers
  let (definitions, parsers) ← Run.look fun fs => plan.extractor fs parsers directory
  modify fun s => { s with parsers }
  return definitions

def document (plan : Plan) (client : Client σ) (directory : Path) (request : Request) :
    Run σ Unit := do
  let p := directory.child plan.manifestName
  let _ ← Run.generateManifest client request p
  modify fun s => { s with manifests := s.manifests ++ [p.toString] }

/-- The first step: the collection of a root whose manifest has been written. -/
def documentRoot (plan : Plan) (client : Client σ) (root : Path) : Run σ Collection := do
  let definitions ← extract plan root
  let collection ← Run.look fun fs =>
    Collection.collect fs plan.lister root.toString plan.maxListed
  document plan client root
    (Prompt.rootRequest definitions collection.analysis Prompt.Template.text root plan.manifestName)
  return collection

def documentDirectory (plan : Plan) (client : Client σ) (analysis : Mapping String String)
    (root directory : Path) : Run σ Unit := do
  modify fun s => { s with current := directory }
  let definitions ← extract plan directory
  document plan client directory
    (Prompt.directoryRequest definitions analysis Prompt.Template.text root directory
      plan.manifestName)

def documentDirectories (plan : Plan) (client : Client σ) (analysis : Mapping String String)
    (root : Path) : List Path → Run σ Unit
  | [] => pure ()
  | directory :: rest => do
    documentDirectory plan client analysis root directory
    documentDirectories plan client analysis root rest

def documentAll (plan : Plan) (client : Client σ) (root : Path) : Run σ Unit := do
  modify fun s => { s with current := root }
  let collection ← documentRoot plan client root
  let directories ← Run.look fun fs =>
    Report.ofExcept (FirstLevel.select fs root collection.directories)
  documentDirectories plan client collection.analysis root directories

def failedRun (s : Session σ) (failure : Failure) : FailedRun :=
  { directory := s.current.toString
    category := failure.category
    written := s.manifests.length
    message := failure.message }

/-- A run whose failures are logged, except those that no step handles. -/
def logged (run : Run σ Unit) : Run σ Unit :=
  tryCatch run fun failure => do
    if failure.isHandled then Run.log (.generationFailed (failedRun (← get) failure))
    throw failure

def completedRun (root : Path) (s : Session σ) : CompletedRun :=
  { root := root.toString
    manifests := s.manifests.length
    calls := s.usage.calls
    inputTokens := s.usage.inputTokens
    outputTokens := s.usage.outputTokens
    cost := s.usage.cost }

def outcome (plan : Plan) (root : Path) (s : Session σ) : Outcome :=
  { message :=
      s!"{plan.manifestName} generation complete ({s.manifests.length} manifests)"
    path := (root.child plan.manifestName).toString
    usage := s.usage
    manifests := s.manifests }

def run (plan : Plan) (client : Client σ) (root : String) : Run σ Outcome := do
  let location ← Run.look fun fs => Report.ofExcept (fs.locate (Path.ofString root))
  let root := Path.ofLocation location
  logged (documentAll plan client root)
  Run.log (.generationComplete (completedRun root (← get)))
  return outcome plan root (← get)

end Documentation

end TreeManifest
