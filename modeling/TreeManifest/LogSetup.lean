import TreeManifest.Failure
import TreeManifest.Text.Case

/-!
# Setting up the log

The state of the process's loggers as far as the program touches it. Setting up happens at most
once, and so does the removal of the handlers that the provider's library brings; both are marked as
done before they do anything, so a set-up that fails on its level is not repeated.
-/

namespace TreeManifest

structure Logger where
  name : String
  level : Nat
  handlers : Nat
  propagates : Bool
  deriving DecidableEq, Repr

structure RootConfiguration where
  level : Nat
  format : String
  dateFormat : String
  deriving DecidableEq, Repr

structure LogSetup where
  isSetUp : Bool
  isCleaned : Bool
  /-- The level of the program's own logger. -/
  level : Nat
  configurations : List RootConfiguration
  /-- The level that the provider's library reads from its environment. -/
  providerLevel : Option String
  loggers : List Logger
  deriving DecidableEq, Repr

namespace LogSetup

def warningLevel : Nat := 30

def unsetLevel : Nat := 0

def infoLevel : Nat := 20

def levels : List (String × Nat) :=
  [("DEBUG", 10), ("INFO", infoLevel), ("WARN", warningLevel), ("WARNING", warningLevel),
    ("ERROR", 40), ("CRITICAL", 50), ("FATAL", 50), ("NOTSET", unsetLevel)]

def basicFormat : String := "%(levelname)s:%(name)s:%(message)s"

def stylesText : String :=
  let braced := "\x7blevelname\x7d:\x7bname\x7d:\x7bmessage\x7d"
  let signed := "$\x7blevelname\x7d:$\x7bname\x7d:$\x7bmessage\x7d"
  s!"\x7b'%': (<class 'logging.PercentStyle'>, '{basicFormat}'), "
    ++ s!"'\x7b': (<class 'logging.StrFormatStyle'>, '{braced}'), "
    ++ s!"'$': (<class 'logging.StringTemplateStyle'>, '{signed}')\x7d"

/-- Names in the form of a level's name that stand for something else. -/
def otherNames : List (String × Failure) :=
  [("BASIC_FORMAT", .unusableLevel basicFormat), ("_STYLES", .untypedLevel stylesText)]

def levelOf (name : String) : Except Failure Nat :=
  let name := Text.upper name
  match levels.lookup name with
  | some level => .ok level
  | none => .error ((otherNames.lookup name).getD (.unknownLevel name))

def providerLoggers : List String := ["LiteLLM", "LiteLLM Router", "LiteLLM Proxy"]

def suppressedLoggers : List String := providerLoggers ++ ["httpx", "httpcore"]

def configuration : RootConfiguration :=
  ⟨warningLevel, "%(asctime)s %(levelname)s [%(name)s] %(message)s", "%Y-%m-%dT%H:%M:%S"⟩

/-- The state before anything is set up, with the provider's level as the user has it. -/
def initial (providerLevel : Option String) : LogSetup :=
  { isSetUp := false
    isCleaned := false
    level := unsetLevel
    configurations := []
    providerLevel := providerLevel
    loggers := suppressedLoggers.map fun name => ⟨name, unsetLevel, 0, true⟩ }

abbrev Step := LogSetup × Option Failure

def setLevel (s : LogSetup) (name : String) : Step :=
  match levelOf name with
  | .ok level => ({ s with level }, none)
  | .error failure => (s, some failure)

def changeLoggers (s : LogSetup) (names : List String) (change : Logger → Logger) : LogSetup :=
  { s with loggers := s.loggers.map fun l => if names.contains l.name then change l else l }

def setUp (s : LogSetup) (level : String) : Step :=
  if s.isSetUp then (s, none)
  else
    let begun :=
      { s with
        isSetUp := true
        providerLevel := some (s.providerLevel.getD "WARNING")
        configurations := s.configurations ++ [configuration] }
    match begun.setLevel level with
    | (s, none) =>
      (s.changeLoggers suppressedLoggers fun l => { l with level := warningLevel }, none)
    | failed => failed

def cleanUp (s : LogSetup) : LogSetup :=
  if s.isCleaned then s
  else
    { s with isCleaned := true }.changeLoggers providerLoggers fun l =>
      { l with handlers := 0, propagates := true }

/-- What another library does: it adds a handler to a logger. -/
def addHandler (s : LogSetup) (name : String) : LogSetup :=
  s.changeLoggers [name] fun l => { l with handlers := l.handlers + 1 }

/-- What another library does: it keeps a logger's records to itself, or no longer. -/
def setPropagation (s : LogSetup) (name : String) (propagates : Bool) : LogSetup :=
  s.changeLoggers [name] fun l => { l with propagates }

/-- The least level that the program's own logger lets through. One that is not set takes the level
of the root logger. -/
def threshold (s : LogSetup) : Nat := if s.level = unsetLevel then warningLevel else s.level

end LogSetup

end TreeManifest
