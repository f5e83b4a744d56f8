/-!
# Wording of requests

The sentences that a request for a manifest is made of: the rules that every manifest must satisfy,
the introductions, and the rules for one directory.
-/

namespace TreeManifest.Prompt

def paragraph (lines : List String) : String :=
  String.join (lines.map (· ++ "\n"))

def lineText (parts : List String) : String := String.intercalate " " parts

def hole (name : String) : String := "\x7b\x7b" ++ name ++ "\x7d\x7d"

inductive Status where
  | implemented
  | inProgress
  | planned
  deriving DecidableEq, Repr

def Status.text : Status → String
  | implemented => "implemented"
  | inProgress => "in_progress"
  | planned => "planned"

def Status.all : List Status := [implemented, inProgress, planned]

def statusValues : String := String.intercalate ", " (Status.all.map Status.text)

def systemText (manifestName : String) : String :=
  paragraph
    [lineText
        ["You are an expert at describing the structure of software projects as YAML manifests.",
          "You write", manifestName, "files that document one directory of a source tree:",
          "its files, subdirectories, definitions and dependencies."],
      "",
      "## Hard Constraints",
      "",
      "1. Output YAML only. No prose before or after it, no markdown code fences.",
      lineText
        ["2. Represent directory nesting hierarchically: subdirectories are nested under their",
          "parent's `directories` key, never flattened into paths."],
      lineText
        ["3. Exclude system and housekeeping files (for example .DS_Store, Thumbs.db,",
          "desktop.ini, editor swap files)."],
      lineText ["4. Include the directory's own", manifestName, "as an entry under `files`."],
      lineText
        ["5. Every file entry has a `description` and a `status` field. `status` is exactly one of:",
          statusValues ++ "."]]

def rootIntroduction (manifestName : String) : String :=
  lineText
    ["Generate the", manifestName, "for the project root from the information below.",
      "Follow the template and fill in what the information supports."]

def directoryIntroduction (manifestName label : String) : String :=
  lineText
    ["Generate the", manifestName, "for the directory \"" ++ label ++ "\" of the project",
      "from the information below.",
      "Follow the template and fill in what the information supports."]

def generationRules : List String :=
  ["Reflect the actual structure of the directory accurately.",
    "Describe functions and types concretely, based on the code definitions.",
    lineText
      ["Set each status according to how complete the implementation is",
        "(" ++ statusValues ++ ")."],
    lineText
      ["Take dependencies from package manifests (package.json, pyproject.toml and similar)",
        "when they are present."],
    lineText
      ["Include an optional template section only when there is relevant information for it;",
        "otherwise omit the section entirely.",
        "Never emit empty placeholders or", hole "...", "markers."],
    "Output YAML only, without markdown code fences."]

def parentRule (parentLabel : String) : String :=
  lineText
    ["Describe how this directory relates to its parent directory",
      "(\"" ++ parentLabel ++ "\"): its role in the parent project and any internal dependencies",
      "on sibling directories."]

def numbered (number : Nat) : List String → List String
  | [] => []
  | rule :: rules => (toString number ++ ". " ++ rule) :: numbered (number + 1) rules

end TreeManifest.Prompt
