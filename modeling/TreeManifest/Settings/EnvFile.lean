import TreeManifest.Mapping
import TreeManifest.Text.Blank

/-!
# Environment files

A file of bindings `NAME=value`, one after the other. Values in single or double quotes may run over
several lines; others end with their line or at a comment. A name may stand alone, and then has no
value. What cannot be read is passed over to the end of its line. In values, `${NAME}` and
`${NAME:-default}` stand for the value of an earlier binding or of the environment.

Line ends are line feeds here; other ones have been unified before.
-/

namespace TreeManifest.EnvFile

structure Binding where
  name : String
  value : Option String
  deriving DecidableEq, Repr

def isInnerBlank (c : Char) : Bool := Text.isBlank c && c ≠ '\n' && c ≠ '\r'

def skipInner (cs : List Char) : List Char := cs.dropWhile isInnerBlank

def skipLine (cs : List Char) : List Char := (cs.dropWhile (· ≠ '\n')).drop 1

def skipExport (cs : List Char) : List Char :=
  let word := "export".toList
  if word.isPrefixOf cs then
    let rest := cs.drop word.length
    if rest.head?.any isInnerBlank then skipInner rest else cs
  else cs

/-- A step of a reader: what it read and what follows, or the place where it gave up. -/
abbrev Step (α : Type) := Except (List Char) (α × List Char)

def readName (cs : List Char) : Step (Option String) :=
  match cs with
  | '#' :: _ => .ok (none, cs)
  | '\'' :: rest =>
    match rest.span (· ≠ '\'') with
    | (name, _ :: after) => if name = [] then .error cs else .ok (some (String.ofList name), after)
    | (_, []) => .error cs
  | _ =>
    match cs.span fun c => c ≠ '=' && c ≠ '#' && !Text.isBlank c with
    | ([], _) => .error cs
    | (name, after) => .ok (some (String.ofList name), after)

/-- The text up to the first quote that no backslash precedes, and what follows the quote. -/
def splitAtFree (quote : Char) : (escaped : Bool) → List Char → Option (List Char × List Char)
  | _, [] => none
  | escaped, c :: rest =>
    if c = quote && !escaped then some ([], rest)
    else (splitAtFree quote (c = '\\') rest).map fun (body, after) => (c :: body, after)

def splitAtLast (quote : Char) : List Char → Option (List Char × List Char)
  | [] => none
  | c :: rest =>
    match splitAtLast quote rest with
    | some (body, after) => some (c :: body, after)
    | none => if c = quote then some ([], rest) else none

def escaped? (c : Char) : Option Char :=
  match c with
  | '\\' | '\'' | '"' => some c
  | 'a' => some '\x07'
  | 'b' => some '\x08'
  | 'f' => some '\x0c'
  | 'n' => some '\n'
  | 'r' => some '\r'
  | 't' => some '\t'
  | 'v' => some '\x0b'
  | _ => none

def escapedPlain? (c : Char) : Option Char := if c = '\\' || c = '\'' then some c else none

def unescape (decode : Char → Option Char) : List Char → List Char
  | [] => []
  | '\\' :: c :: rest =>
    match decode c with
    | some d => d :: unescape decode rest
    | none => '\\' :: unescape decode (c :: rest)
  | c :: rest => c :: unescape decode rest

/-- The value in quotes at the head of a text. If every later quote is escaped, the last one ends
the value all the same. -/
def readQuoted (quote : Char) (decode : Char → Option Char) (cs : List Char) : Step String :=
  let body := cs.drop 1
  match (splitAtFree quote false body).or (splitAtLast quote body) with
  | some (value, after) => .ok (String.ofList (unescape decode value), after)
  | none => .error cs

def dropComment : List Char → List Char
  | [] => []
  | c :: rest =>
    if Text.isBlank c && (rest.dropWhile Text.isBlank).head? = some '#' then []
    else c :: dropComment rest

def readPlain (cs : List Char) : String × List Char :=
  let (line, after) := cs.span (· ≠ '\n')
  (String.ofList (Text.trimRight (dropComment line)), after)

def readValue (cs : List Char) : Step String :=
  match cs with
  | '\'' :: _ => readQuoted '\'' escapedPlain? cs
  | '"' :: _ => readQuoted '"' escaped? cs
  | _ => .ok (readPlain cs)

def readEnd (cs : List Char) : Step Unit :=
  let atComment := skipInner cs
  let rest := if atComment.head? = some '#' then atComment.dropWhile (· ≠ '\n') else cs
  match skipInner rest with
  | [] => .ok ((), [])
  | '\n' :: after => .ok ((), after)
  | _ => .error rest

def readAssigned (cs : List Char) : Step (Option String) :=
  match skipInner cs with
  | '=' :: rest => (readValue (skipInner rest)).map fun (value, after) => (some value, after)
  | rest => .ok (none, rest)

def readBinding (cs : List Char) : Except (List Char) (Option Binding × List Char) := do
  let (name, rest) ← readName (skipExport cs)
  let (value, rest) ← readAssigned rest
  let (_, rest) ← readEnd rest
  return (name.map (⟨·, value⟩), rest)

/-- The bindings of a text. Every line that is read or passed over makes the rest shorter. -/
def bindingsFrom : (fuel : Nat) → List Char → List Binding
  | 0, _ => []
  | fuel + 1, cs =>
    match cs.dropWhile Text.isBlank with
    | [] => []
    | text =>
      match readBinding text with
      | .ok (binding, rest) => binding.toList ++ bindingsFrom fuel rest
      | .error rest => bindingsFrom fuel (skipLine rest)

def bindings (cs : List Char) : List Binding := bindingsFrom (cs.length + 1) cs

def readReference? (cs : List Char) : Option (String × String × List Char) :=
  let (name, rest) := cs.span fun c => c ≠ '}' && c ≠ ':'
  match rest with
  | '}' :: after => some (String.ofList name, "", after)
  | ':' :: '-' :: rest =>
    match rest.span (· ≠ '}') with
    | (fallback, _ :: after) => some (String.ofList name, String.ofList fallback, after)
    | (_, []) => none
  | _ => none

def expandFrom (lookUp : String → String → String) : (fuel : Nat) → List Char → List Char
  | 0, cs => cs
  | _ + 1, [] => []
  | fuel + 1, '$' :: '{' :: rest =>
    match readReference? rest with
    | some (name, fallback, after) =>
      (lookUp name fallback).toList ++ expandFrom lookUp fuel after
    | none => '$' :: expandFrom lookUp fuel ('{' :: rest)
  | fuel + 1, c :: rest => c :: expandFrom lookUp fuel rest

def expand (lookUp : String → String → String) (value : String) : String :=
  String.ofList (expandFrom lookUp (value.toList.length + 1) value.toList)

/-- What a reference stands for: an earlier binding goes before the environment, and one without a
value hides it. -/
def valueOf (environment : Mapping String String) (earlier : Mapping String (Option String))
    (name fallback : String) : String :=
  match Mapping.get? name earlier with
  | some value => value.getD ""
  | none => (Mapping.get? name environment).getD fallback

def resolveBindings (environment : Mapping String String) :
    Mapping String (Option String) → List Binding → Mapping String (Option String)
  | values, [] => values
  | values, binding :: rest =>
    let value := binding.value.map (expand (valueOf environment values))
    resolveBindings environment (Mapping.put binding.name value values) rest

def read (environment : Mapping String String) (cs : List Char) : Mapping String (Option String) :=
  resolveBindings environment [] (bindings cs)

end TreeManifest.EnvFile
