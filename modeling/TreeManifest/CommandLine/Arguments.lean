import TreeManifest.CommandLine.Grammar

/-!
# The program's command line

Two grammars: the options of the program itself, whose one positional argument is a command with all
words after it, and the options of the command that generates manifests.
-/

namespace TreeManifest.CommandLine

structure Generation where
  root : Option String
  model : Option String
  manifestName : Option String
  verbose : Bool
  deriving DecidableEq, Repr

structure Arguments where
  version : Bool
  generation : Option Generation
  /-- Words that the command left over. -/
  commandLeftOver : List String
  deriving DecidableEq, Repr

def programName : String := "stcgen"

def commandName : String := "generate"

def textLines (lines : List String) : String := String.join (lines.map (· ++ "\n"))

def programUsage : String :=
  textLines ["usage: stcgen [-h] [--version] \x7bgenerate\x7d ..."]

def programHelp : String :=
  programUsage ++ textLines
    ["",
      "Generate stc.yaml structure manifests for a project and its first-level",
      "subdirectories.",
      "",
      "positional arguments:",
      "  \x7bgenerate\x7d",
      "    generate  Generate manifests for a directory tree",
      "",
      "options:",
      "  -h, --help  show this help message and exit",
      "  --version   Print version and exit"]

def generateUsage : String :=
  textLines
    ["usage: stcgen generate [-h] [--model MODEL] [--manifest-name MANIFEST_NAME]",
      "                       [--verbose]",
      "                       root_path"]

def generateHelp : String :=
  generateUsage ++ textLines
    ["",
      "positional arguments:",
      "  root_path             Project root to document",
      "",
      "options:",
      "  -h, --help            show this help message and exit",
      "  --model MODEL, -m MODEL",
      "                        LiteLLM model identifier (default: LITELLM_MODEL or",
      "                        settings default)",
      "  --manifest-name MANIFEST_NAME",
      "                        Manifest file name (default: stc.yaml)",
      "  --verbose, -v         Enable debug logging"]

def helpFlag : Flag α := ⟨["-h", "--help"], .help⟩

def dropSeparators (words : List (Word α)) : List (Word α) :=
  words.dropWhile fun
    | .separator => true
    | _ => false

/-- The root: one plain word. The first separator around it is left out. -/
def takeRoot : Positional Generation := fun values words =>
  match values.root, dropSeparators words with
  | none, .plain text :: rest => .ok (some ({ values with root := some text }, dropSeparators rest))
  | _, _ => .ok none

def generateGrammar : Grammar Generation where
  program := programName ++ " " ++ commandName
  usage := generateUsage
  help := generateHelp
  flags :=
    [helpFlag,
      ⟨["--model", "-m"], .take fun text values => { values with model := some text }⟩,
      ⟨["--manifest-name"], .take fun text values => { values with manifestName := some text }⟩,
      ⟨["--verbose", "-v"], .set fun values => { values with verbose := true }⟩]
  positional := takeRoot
  missing := fun values => if values.root.isNone then ["root_path"] else []

def programFlags : List (Flag Arguments) :=
  [helpFlag, ⟨["--version"], .set fun values => { values with version := true }⟩]

def unknownCommand (text : String) : Ending :=
  .misuse programUsage programName
    ("argument command: invalid choice: " ++ Text.quote text ++ " (choose from " ++
      Text.quote commandName ++ ")")

/-- A command and all words after it. A separator before it is part of them. -/
def takeCommand : Positional Arguments := fun values words =>
  match dropSeparators words with
  | [] => .ok none
  | _ :: _ =>
    match words.map Word.text with
    | [] => .ok none
    | command :: texts =>
      if command = commandName then do
        let s ← generateGrammar.read ⟨none, none, none, false⟩ texts
        return some
          ({ values with generation := some s.values, commandLeftOver := s.leftOver }, [])
      else throw (unknownCommand command)

def programGrammar : Grammar Arguments where
  program := programName
  usage := programUsage
  help := programHelp
  flags := programFlags
  positional := takeCommand
  missing := fun _ => []

def Arguments.read (texts : List String) : Except Ending Arguments := do
  let s ← programGrammar.read ⟨false, none, []⟩ texts
  match s.leftOver ++ s.values.commandLeftOver with
  | [] => return s.values
  | extra =>
    throw (programGrammar.misuse
      ("unrecognized arguments: " ++ String.intercalate " " extra))

end TreeManifest.CommandLine
