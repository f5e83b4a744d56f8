import TreeManifest.Json.Printer
import TreeManifest.Prompt.Scope
import TreeManifest.Prompt.Template

/-!
# Requests for manifests

A request is the text of the rules for all manifests and the messages that follow it. The one
message for a directory holds its definitions and the descriptions of what lies in it as JSON, then
the template and the numbered rules.
-/

namespace TreeManifest

inductive Speaker where
  | user
  | assistant
  deriving DecidableEq, Repr

def Speaker.text : Speaker → String
  | user => "user"
  | assistant => "assistant"

structure Message where
  speaker : Speaker
  content : String
  deriving DecidableEq, Repr

structure Request where
  system : String
  messages : List Message
  deriving DecidableEq, Repr

namespace Prompt

structure Content where
  introduction : String
  definitions : Json
  analysis : Mapping String String
  /-- What the paths of the analysis are relative to, in words. -/
  place : String
  template : String
  rules : List String

def analysisJson (analysis : Mapping String String) : Json :=
  .obj (analysis.map fun (path, description) => (path, .str description))

def Content.text (content : Content) : String :=
  String.join
    [content.introduction,
      "\n\nCode definitions:\n",
      content.definitions.indented,
      "\n\nFile analysis (paths relative to " ++ content.place ++ "):\n",
      (analysisJson content.analysis).indented,
      "\n\nTemplate:\n",
      content.template,
      "\n\nGeneration rules:\n",
      String.intercalate "\n" (numbered 1 content.rules),
      "\n"]

def request (manifestName : String) (content : Content) : Request :=
  ⟨systemText manifestName, [⟨.user, content.text⟩]⟩

def rootContent (definitions : Json) (analysis : Mapping String String) (template : String)
    (root : Path) (manifestName : String) : Content where
  introduction := rootIntroduction manifestName
  definitions := definitions
  analysis := scope analysis root
  place := "the project root"
  template := template
  rules := generationRules

def rootRequest (definitions : Json) (analysis : Mapping String String) (template : String)
    (root : Path) (manifestName : String) : Request :=
  request manifestName (rootContent definitions analysis template root manifestName)

/-- What a directory is called: its path from the root, or its name if it is elsewhere. -/
def directoryLabel (root directory : Path) : String :=
  match directory.relativeTo? root with
  | some relative => relative.toString
  | none => directory.name

def parentLabel (root directory : Path) : String :=
  if directory.parent = root then root.name else directory.parent.toString

def directoryContent (definitions : Json) (analysis : Mapping String String) (template : String)
    (root directory : Path) (manifestName : String) : Content where
  introduction := directoryIntroduction manifestName (directoryLabel root directory)
  definitions := definitions
  analysis := scope analysis directory
  place := "\"" ++ directoryLabel root directory ++ "\""
  template := template
  rules := generationRules ++ [parentRule (parentLabel root directory)]

def directoryRequest (definitions : Json) (analysis : Mapping String String) (template : String)
    (root directory : Path) (manifestName : String) : Request :=
  request manifestName (directoryContent definitions analysis template root directory manifestName)

end Prompt

end TreeManifest
