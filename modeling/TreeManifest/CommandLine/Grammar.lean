import TreeManifest.Text.Digit
import TreeManifest.Text.Quoted

/-!
# Grammars of command lines

How the words of a command line are told apart and taken in. Words that start with a dash are
options; long ones may be shortened as long as only one fits, and short ones may share a word. A
double dash ends the options. Words that nobody takes are left over.
-/

namespace TreeManifest.CommandLine

/-- How a command line ends before the program does anything. -/
inductive Ending where
  | help (text : String)
  | misuse (usage program message : String)
  deriving DecidableEq, Repr

inductive Effect (α : Type) where
  | help
  | set (change : α → α)
  | take (change : String → α → α)

structure Flag (α : Type) where
  names : List String
  effect : Effect α

def Flag.title (flag : Flag α) : String := String.intercalate "/" flag.names

def Flag.takesValue (flag : Flag α) : Bool :=
  match flag.effect with
  | .take _ => true
  | .help | .set _ => false

/-- A value in the same word as its option, and whether an equals sign comes before it. -/
structure Joined where
  equals : Bool
  text : String
  deriving DecidableEq, Repr

inductive Word (α : Type) where
  | plain (text : String)
  | separator
  /-- An option by one of its names, with the value that is joined to it if there is one. -/
  | option (flag : Flag α) (name : String) (joined : Option Joined) (text : String)
  | unknownOption (text : String)

def separatorText : String := "--"

def Word.text : Word α → String
  | plain text => text
  | separator => separatorText
  | option _ _ _ text => text
  | unknownOption text => text

def Word.isOption : Word α → Bool
  | option .. | unknownOption _ => true
  | plain _ | separator => false

/-- What a positional argument makes of the words from it on: the values after it, and the words
that it leaves. -/
abbrev Positional (α : Type) := α → List (Word α) → Except Ending (Option (α × List (Word α)))

structure Grammar (α : Type) where
  program : String
  usage : String
  help : String
  flags : List (Flag α)
  positional : Positional α
  /-- The names of required arguments that were not given. -/
  missing : α → List String

namespace Grammar

variable (g : Grammar α)

def misuse (message : String) : Ending := .misuse g.usage g.program message

def flagError (flag : Flag α) (message : String) : Ending :=
  g.misuse ("argument " ++ flag.title ++ ": " ++ message)

def named : List (String × Flag α) :=
  g.flags.flatMap fun flag => flag.names.map (·, flag)

def flag? (name : String) : Option (Flag α) := g.named.lookup name

def splitEquals? (word : List Char) : Option (String × String) :=
  match word.span (· ≠ '=') with
  | (front, _ :: back) => some (String.ofList front, String.ofList back)
  | (_, []) => none

/-- The options that a word with two dashes may be short for. -/
def longCandidates (word : List Char) : List (String × Flag α × Option Joined) :=
  let (front, joined) : String × Option Joined := match splitEquals? word with
    | some (front, joined) => (front, some ⟨true, joined⟩)
    | none => (String.ofList word, none)
  (g.named.filter fun (name, _) => front.toList.isPrefixOf name.toList).map
    fun (name, flag) => (name, flag, joined)

/-- The options that a word with one dash may stand for: its first letter, with the rest joined to
it, or a longer name. -/
def shortCandidates (word : List Char) : List (String × Flag α × Option Joined) :=
  g.named.filterMap fun (name, flag) =>
    if name.toList = word.take 2 then
      some (name, flag, some ⟨false, String.ofList (word.drop 2)⟩)
    else if word.isPrefixOf name.toList then some (name, flag, none)
    else none

def candidates (word : List Char) : List (String × Flag α × Option Joined) :=
  if word.take 2 = ['-', '-'] then g.longCandidates word else g.shortCandidates word

/-- Whether a word is a negative number, with a final line feed at most. -/
def isNegativeNumber (word : List Char) : Bool :=
  let isDigit := fun c => (Text.digitValue? c).isSome
  let body := word.drop 1
  let body := if body.getLast? = some '\n' then body.dropLast else body
  let (whole, rest) := body.span isDigit
  match rest with
  | [] => !whole.isEmpty
  | '.' :: fraction => !fraction.isEmpty && fraction.all isDigit
  | _ => false

def classifyDashed (text : String) : Except Ending (Word α) :=
  let word := text.toList
  match g.candidates word with
  | [(name, flag, joined)] => .ok (.option flag name joined text)
  | [] =>
    if isNegativeNumber word || word.contains ' ' then .ok (.plain text)
    else .ok (.unknownOption text)
  | several =>
    let names := String.intercalate ", " (several.map (·.1))
    .error (g.misuse ("ambiguous option: " ++ text ++ " could match " ++ names))

def classify (text : String) : Except Ending (Word α) :=
  match text.toList with
  | '-' :: _ :: _ =>
    match g.flag? text with
    | some flag => .ok (.option flag text none text)
    | none =>
      match (splitEquals? text.toList).bind fun (name, joined) =>
          (g.flag? name).map fun flag => (name, flag, joined) with
      | some (name, flag, joined) => .ok (.option flag name (some ⟨true, joined⟩) text)
      | none => g.classifyDashed text
  | _ => .ok (.plain text)

/-- The words of a command line. After the first double dash all of them are plain. -/
def words : List String → Except Ending (List (Word α))
  | [] => .ok []
  | text :: rest =>
    if text = separatorText then .ok (.separator :: rest.map .plain)
    else do
      let word ← g.classify text
      return word :: (← words rest)

structure State (α : Type) where
  values : α
  leftOver : List String

def isLong (name : String) : Bool := name.toList.take 2 = ['-', '-']

def takeBare (values : α) (flag : Flag α) (rest : List (Word α)) :
    Except Ending (α × List (Word α)) :=
  match flag.effect with
  | .help => .error (.help g.help)
  | .set change => .ok (change values, rest)
  | .take change =>
    match rest with
    | .plain text :: rest => .ok (change text values, rest)
    | _ => .error (g.flagError flag "expected one argument")

/-- How a cluster of short options ends: with an option whose value may follow, with one whose value
is joined to it, or with letters that are no option. -/
inductive ClusterEnd (α : Type) where
  | bare (flag : Flag α)
  | valued (change : α → α)
  | unknown (text : String)

def cluster (flag : Flag α) (name : String) (equals : Bool) (letters : List Char) :
    Except Ending (List (Flag α) × ClusterEnd α) :=
  match flag.effect with
  | .take change => .ok ([], .valued (change (String.ofList letters)))
  | _ =>
    let ignored := g.flagError flag
      ("ignored explicit argument " ++ Text.quote (String.ofList letters))
    match letters with
    | [] => .error ignored
    | letter :: rest =>
      if isLong name || equals || letter = '-' then .error ignored
      else
        let next := String.ofList ['-', letter]
        match g.flag? next, rest with
        | none, _ => .ok ([flag], .unknown (String.ofList ('-' :: letters)))
        | some flag', [] => .ok ([flag], .bare flag')
        | some flag', '=' :: value =>
          (cluster flag' next true value).map fun (closed, last) => (flag :: closed, last)
        | some flag', rest =>
          (cluster flag' next false rest).map fun (closed, last) => (flag :: closed, last)
termination_by letters.length

def applyClosed (values : α) : List (Flag α) → Except Ending α
  | [] => .ok values
  | flag :: rest => do
    let (values, _) ← g.takeBare values flag []
    applyClosed values rest

def findsValue (flag : Flag α) : List (Word α) → Bool
  | .plain _ :: _ => true
  | _ => !flag.takesValue

/-- The values after an option, the words that it leaves over, and the words after it. A cluster has
no effect before its last option has found its value. -/
def takeOption (s : State α) (flag : Flag α) (name : String) (joined : Option Joined)
    (rest : List (Word α)) : Except Ending (State α × List (Word α)) :=
  match joined with
  | none => (g.takeBare s.values flag rest).map fun (values, rest) => ({ s with values }, rest)
  | some joined => do
    let (closed, last) ← g.cluster flag name joined.equals joined.text.toList
    match last with
    | .bare flag =>
      if !findsValue flag rest then throw (g.flagError flag "expected one argument")
      let values ← g.applyClosed s.values closed
      let (values, rest) ← g.takeBare values flag rest
      return ({ s with values }, rest)
    | .valued change =>
      let values ← g.applyClosed s.values closed
      return ({ s with values := change values }, rest)
    | .unknown text =>
      let values ← g.applyClosed s.values closed
      return (⟨values, s.leftOver ++ [text]⟩, rest)

def takeAll : (fuel : Nat) → State α → List (Word α) → Except Ending (State α)
  | 0, s, words => .ok { s with leftOver := s.leftOver ++ words.map Word.text }
  | _ + 1, s, [] => .ok s
  | fuel + 1, s, .option flag name joined _ :: rest => do
    let (s, rest) ← g.takeOption s flag name joined rest
    takeAll fuel s rest
  | fuel + 1, s, .unknownOption text :: rest =>
    takeAll fuel { s with leftOver := s.leftOver ++ [text] } rest
  | fuel + 1, s, words => do
    match ← g.positional s.values words with
    | some (values, rest) => takeAll fuel { s with values } rest
    | none =>
      let (skipped, rest) := words.span fun word => !word.isOption
      takeAll fuel { s with leftOver := s.leftOver ++ skipped.map Word.text } rest

def read (start : α) (texts : List String) : Except Ending (State α) := do
  let words ← g.words texts
  let s ← g.takeAll (words.length + 1) ⟨start, []⟩ words
  match g.missing s.values with
  | [] => return s
  | names =>
    throw (g.misuse ("the following arguments are required: " ++ String.intercalate ", " names))

end Grammar

end TreeManifest.CommandLine
