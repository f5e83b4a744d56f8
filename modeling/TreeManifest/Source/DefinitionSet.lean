import TreeManifest.Description
import TreeManifest.Listing
import TreeManifest.Source.Declaration

/-!
# The definitions of a directory

The source files directly in a directory, by name, are parsed one after the other, as many as the
limit allows; the names of the others are kept. A file without a grammar or without text contributes
nothing, and one whose parser fails is logged and left out. A parser that was obtained once stays;
a grammar that could not be had is asked for again with the next file.
-/

namespace TreeManifest.Source

structure FileDefinitions where
  file : String
  language : String
  definitions : List Definition
  deriving DecidableEq, Repr

structure DefinitionSet where
  directory : String
  files : List FileDefinitions
  skipped : List String
  deriving DecidableEq, Repr

def optionalText : Option String → Json
  | none => .null
  | some text => .str text

def texts (items : List String) : Json := .arr (items.map .str)

def Definition.toJson (d : Definition) : Json :=
  .obj [("name", .str d.name), ("kind", .str d.kind), ("line", .int d.line),
    ("signature", optionalText d.signature), ("docstring", optionalText d.docstring),
    ("members", texts d.members)]

def FileDefinitions.toJson (f : FileDefinitions) : Json :=
  .obj [("file", .str f.file), ("language", .str f.language),
    ("definitions", .arr (f.definitions.map Definition.toJson))]

def DefinitionSet.toJson (set : DefinitionSet) : Json :=
  .obj [("directory", .str set.directory), ("files", .arr (set.files.map FileDefinitions.toJson)),
    ("skipped_files", texts set.skipped)]

def optionalTextOf? : Option Json → Option (Option String)
  | none | some .null => some none
  | some (.str text) => some (some text)
  | some _ => none

def optionalItems? : Option Json → Option (List Json)
  | none => some []
  | some (.arr items) => some items
  | some _ => none

def text? : Option Json → Option String
  | some (.str text) => some text
  | _ => none

def whole? : Option Json → Option Int
  | some (.int n) => some n
  | _ => none

def Definition.ofJson? (value : Json) : Option Definition := do
  return {
    name := ← text? (value.member? "name")
    kind := ← text? (value.member? "kind")
    line := ← whole? (value.member? "line")
    signature := ← optionalTextOf? (value.member? "signature")
    docstring := ← optionalTextOf? (value.member? "docstring")
    members := ← (← optionalItems? (value.member? "members")).mapM fun item => text? (some item) }

def FileDefinitions.ofJson? (value : Json) : Option FileDefinitions := do
  return {
    file := ← text? (value.member? "file")
    language := ← text? (value.member? "language")
    definitions := ← (← optionalItems? (value.member? "definitions")).mapM Definition.ofJson? }

/-- The definitions that a JSON object holds. Members may come in any order, lists and optional
texts may be missing, and members of other names are passed over. -/
def DefinitionSet.ofJson? (value : Json) : Option DefinitionSet := do
  return {
    directory := ← text? (value.member? "directory")
    files := ← (← optionalItems? (value.member? "files")).mapM FileDefinitions.ofJson?
    skipped := ← (← optionalItems? (value.member? "skipped_files")).mapM fun item =>
      text? (some item) }

/-- The grammars at hand: the packages and the entries that cannot be had, and what parsing the
octets of a file gives. A parse fails on `none`. -/
structure Grammars where
  missingPackages : List String
  missingEntries : List String
  parse : Language → List UInt8 → Option (List Node)

def Grammars.offers (grammars : Grammars) (language : Language) : Bool :=
  !grammars.missingPackages.contains language.grammar.package &&
    !grammars.missingEntries.contains language.grammar.entry

abbrev Parsers := List Language

structure SourceFile where
  name : String
  language : Language
  deriving DecidableEq, Repr

def SourceFile.ofName? (name : String) : Option SourceFile :=
  if Path.isHiddenName name then none
  else (Language.ofExtension? (Text.lower (Path.suffixOf name))).map fun language => ⟨name, language⟩

def sourcesAmong (fs : FileSystem) (directory : Location) :
    List String → Except Failure (List SourceFile)
  | [] => .ok []
  | name :: names => do
    let isFile ← fs.isFile? (Path.ofLocation (directory ++ [name]))
    let rest ← sourcesAmong fs directory names
    return if isFile then (SourceFile.ofName? name).toList ++ rest else rest

def sourcesIn (fs : FileSystem) (directory : Location) : Except Failure (List SourceFile) :=
  match fs.namesAt (Path.ofLocation directory) with
  | .error e => .error (.access e (Path.ofLocation directory).toString)
  | .ok names => sourcesAmong fs directory names

/-- How many of `count` files a limit keeps. A negative limit tells how many are left out. -/
def keptCount (count : Nat) (limit : Int) : Nat :=
  if limit < 0 then (count + limit).toNat else limit.toNat

structure Parsed where
  events : List Event
  parsers : Parsers
  file : Option FileDefinitions

def parseFile (grammars : Grammars) (fs : FileSystem) (p : Path) (source : SourceFile) :
    Except Event (Option FileDefinitions) :=
  match fs.read p with
  | .error _ => .ok none
  | .ok octets =>
    if Description.isBinaryContent octets then .ok none
    else match grammars.parse source.language octets with
      | none => .error (.extractionFailed p.toString)
      | some tree =>
        .ok (some ⟨source.name, source.language.name, definitionsOf source.language octets tree⟩)

def extractFile (grammars : Grammars) (fs : FileSystem) (directory : Location) (parsers : Parsers)
    (source : SourceFile) : Parsed :=
  if parsers.contains source.language || grammars.offers source.language then
    let parsers := if parsers.contains source.language then parsers else source.language :: parsers
    match parseFile grammars fs (Path.ofLocation (directory ++ [source.name])) source with
    | .ok file => ⟨[], parsers, file⟩
    | .error event => ⟨[event], parsers, none⟩
  else ⟨[.grammarUnavailable source.language.name], parsers, none⟩

def extractFiles (grammars : Grammars) (fs : FileSystem) (directory : Location) :
    Parsers → List SourceFile → Report (List FileDefinitions × Parsers)
  | parsers, [] => Report.pure ([], parsers)
  | parsers, source :: sources =>
    let parsed := extractFile grammars fs directory parsers source
    let rest := extractFiles grammars fs directory parsed.parsers sources
    ⟨parsed.events ++ rest.events,
      rest.result.map fun (files, parsers) => (parsed.file.toList ++ files, parsers)⟩

/-- The definitions in the directory that a path stands for, and the parsers obtained so far. A
failure comes before the first file, so no parser is lost by it. -/
def extract (grammars : Grammars) (limit : Int) (fs : FileSystem) (parsers : Parsers) (p : Path) :
    Report (DefinitionSet × Parsers) := do
  let directory ← Report.ofExcept (fs.resolve p)
  Report.ofExcept (Listing.directoryAt fs directory)
  let sources ← Report.ofExcept (sourcesIn fs directory)
  let kept := keptCount sources.length limit
  let (files, parsers) ← extractFiles grammars fs directory parsers (sources.take kept)
  let skipped := (sources.drop kept).map (·.name)
  return (⟨(Path.ofLocation directory).toString, files, skipped⟩, parsers)

end TreeManifest.Source
