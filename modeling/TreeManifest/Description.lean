import TreeManifest.Json.Printer
import TreeManifest.Json.Reader
import TreeManifest.Report
import TreeManifest.Text.Case
import TreeManifest.Text.Lines

/-!
# Descriptions of files

One line about a file, from its name and a look at its text: the title of a Markdown file, the
identity of a package, the first documentation comment of a script. A file that cannot be read as
text, or whose package data is malformed, is described as any other project file.
-/

namespace TreeManifest.Description

inductive Method where
  | title
  | package
  | configuration
  | yaml
  | docComment
  | plain
  deriving DecidableEq, Repr

def packageFile : String := "package.json"

def scriptExtensions : List String := [".ts", ".js", ".tsx", ".jsx"]

def yamlExtensions : List String := [".yaml", ".yml"]

def Method.ofName (name : String) : Method :=
  let extension := Text.lower (Path.suffixOf name)
  if extension = ".md" then title
  else if name = packageFile then package
  else if extension = ".json" then configuration
  else if yamlExtensions.contains extension then yaml
  else if scriptExtensions.contains extension then docComment
  else plain

def plainText : String := "Project file"
def documentationText : String := "Documentation file"
def configurationText : String := "Configuration file"
def yamlText : String := "YAML configuration file"
def sourceText : String := "Source code file"

/-- How much of a file is looked at to tell whether it is binary. -/
def sampleSize : Nat := 8192

def isBinaryContent (octets : List UInt8) : Bool := (octets.take sampleSize).contains 0

def trimmedOr (fallback : String) (cs : List Char) : String :=
  match Text.trim cs with
  | [] => fallback
  | kept => String.ofList kept

/-- The text after `# ` on the first line that has some. -/
def heading? (cs : List Char) : Option (List Char) :=
  (cs.splitOn '\n').findSome? fun
    | '#' :: ' ' :: c :: rest => some (c :: rest)
    | _ => none

def ofMarkdown (cs : List Char) : String :=
  match heading? cs with
  | some title => trimmedOr documentationText title
  | none => documentationText

def packageKeys : List String := ["name", "version", "dependencies", "devDependencies"]

/-- The members of a package that tell what it is, in a fixed order; nothing if the text is not one
JSON object. -/
def ofPackage? (cs : List Char) : Option String :=
  match Json.parse (String.ofList cs) with
  | .ok (.obj members) =>
    let kept := packageKeys.filterMap fun key => (Mapping.get? key members).map (key, ·)
    some (Json.obj kept).compact
  | _ => none

def after? (mark : List Char) : List Char → Option (List Char)
  | [] => if mark = [] then some [] else none
  | c :: rest =>
    if mark.isPrefixOf (c :: rest) then some ((c :: rest).drop mark.length) else after? mark rest

def before? (mark : List Char) : List Char → Option (List Char)
  | [] => if mark = [] then some [] else none
  | c :: rest =>
    if mark.isPrefixOf (c :: rest) then some [] else (before? mark rest).map (c :: ·)

/-- The text inside the first documentation comment. -/
def docComment? (cs : List Char) : Option (List Char) :=
  (after? "/**".toList cs).bind (before? "*/".toList)

def undecorate (line : List Char) : List Char :=
  let body := line.dropWhile Text.isBlank
  Text.trim (body.dropWhile (· = '*'))

def joinLines (lines : List (List Char)) : List Char :=
  List.intercalate [' '] (lines.filter (· ≠ []))

def ofScript (cs : List Char) : String :=
  match docComment? cs with
  | none => sourceText
  | some comment =>
    match joinLines ((Text.splitLines comment).map undecorate) with
    | [] => sourceText
    | text => String.ofList text

/-- The text of a file as it is described: decoded without fail, line endings unified. -/
def textOf (octets : List UInt8) : List Char := Text.unifyLineEnds (Text.Utf8.decodeLossy octets)

/-- The description of a file's octets; nothing if they cannot be used. -/
def ofContent? (method : Method) (octets : List UInt8) : Option String :=
  let text := if isBinaryContent octets then none else some (textOf octets)
  match method with
  | .title => text.map ofMarkdown
  | .package => text.bind ofPackage?
  | .docComment => text.map ofScript
  | .configuration => some configurationText
  | .yaml => some yamlText
  | .plain => some plainText

def Method.reads : Method → Bool
  | title | package | docComment => true
  | configuration | yaml | plain => false

def describe (fs : FileSystem) (path : String) : Report String :=
  let p := Path.ofString path
  let method := Method.ofName p.name
  let content := if FileSystem.hasNull p then none else (fs.read p).toOption
  let description :=
    if method.reads then content.bind (ofContent? method) else ofContent? method []
  match description with
  | some text => Report.pure text
  | none => ⟨[.fileUndescribed p.toString], .ok plainText⟩

end TreeManifest.Description
