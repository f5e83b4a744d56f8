import TreeManifest.FileSystem.Basic

/-!
# Following paths

The system's own way from a path to what it names: part by part, through links and through
directories that may be searched, with the errors that stop it. Reading, writing and the tests on a
path all follow it. At most `maxLinks` links are followed, so a loop of links is an error and not an
endless walk.
-/

namespace TreeManifest

inductive AccessError where
  | notFound
  | denied
  | notDirectory
  | isDirectory
  | nameTooLong
  | tooManyLinks
  deriving DecidableEq, Repr

namespace AccessError

def number : AccessError → Nat
  | notFound => 2
  | denied => 13
  | notDirectory => 20
  | isDirectory => 21
  | nameTooLong => 36
  | tooManyLinks => 40

def text : AccessError → String
  | notFound => "No such file or directory"
  | denied => "Permission denied"
  | notDirectory => "Not a directory"
  | isDirectory => "Is a directory"
  | nameTooLong => "File name too long"
  | tooManyLinks => "Too many levels of symbolic links"

/-- Whether an error leaves open what is there. The others mean that nothing is. -/
def isRefusal : AccessError → Bool
  | denied | nameTooLong => true
  | _ => false

end AccessError

namespace FileSystem

def maxLinks : Nat := 40

def maxNameSize : Nat := 255

/-- The parts of a link's target. Its empty parts go, but for one after a final slash, which
requires a directory before it; single dots stay. -/
def targetParts (target : String) : List String :=
  let parts := ((Path.splitSlashes target.toList).map String.ofList).filter (· ≠ "")
  if target.toList.getLast? = some '/' then parts ++ [""] else parts

def targetBase (directory : Location) (target : String) : Location :=
  if target.toList.head? = some '/' then [] else directory

inductive Stop where
  /-- The end of the path: its location and what is there, if anything is. -/
  | reached (location : Location) (entry : Option Entry)
  /-- A link in `directory`, and the parts that follow it. -/
  | link (directory : Location) (target : String) (rest : List String)

def Stop.entry : Stop → Except AccessError Entry
  | reached _ (some entry) => .ok entry
  | reached _ none => .error .notFound
  | link _ target _ => .ok (.link target)

/-- From an existing location along `parts` up to a link or the end. Only the last part may name
nothing. -/
def scan (fs : FileSystem) (location : Location) : List String → Except AccessError Stop
  | [] => .ok (.reached location (fs.entryAt? location))
  | part :: rest =>
    if !fs.isDirectoryAt location then .error .notDirectory
    else if part = "" then scan fs location rest
    else if location ∈ fs.unsearchable then .error .denied
    else if part = "." then scan fs location rest
    else if part = ".." then scan fs location.dropLast rest
    else if maxNameSize < part.utf8ByteSize then .error .nameTooLong
    else match fs.entryAt? (location ++ [part]) with
      | some (.link target) => .ok (.link location target rest)
      | some _ => scan fs (location ++ [part]) rest
      | none =>
        if rest = [] then .ok (.reached (location ++ [part]) none) else .error .notFound

/-- From an existing location along `parts`, through at most `links` links. -/
def follow (fs : FileSystem) :
    (links : Nat) → Location → List String → Except AccessError (Location × Option Entry)
  | links, location, parts =>
    match fs.scan location parts with
    | .error e => .error e
    | .ok (.reached location entry) => .ok (location, entry)
    | .ok (.link directory target rest) =>
      match links with
      | 0 => .error .tooManyLinks
      | links + 1 =>
        follow fs links (targetBase directory target) (targetParts target ++ rest)

def start (fs : FileSystem) (p : Path) : Location :=
  if p.anchor = .here then fs.working else []

/-- The location that a path leads to, and what is there. -/
def find (fs : FileSystem) (p : Path) : Except AccessError (Location × Option Entry) :=
  fs.follow maxLinks (fs.start p) p.parts

def status (fs : FileSystem) (p : Path) : Except AccessError Entry :=
  match fs.find p with
  | .ok (_, some entry) => .ok entry
  | .ok (_, none) => .error .notFound
  | .error e => .error e

/-- What the last part of a path is in its directory, also where it is a link. -/
def named (fs : FileSystem) (p : Path) : Except AccessError Entry :=
  match fs.find p.parent with
  | .error e => .error e
  | .ok (location, _) => (fs.scan location [p.name]).bind Stop.entry

/-- The answer of a test: false where nothing is there, an error where that cannot be told. -/
def answer (holds : Entry → Bool) : Except AccessError Entry → Except AccessError Bool
  | .ok entry => .ok (holds entry)
  | .error e => if e.isRefusal then .error e else .ok false

def read (fs : FileSystem) (p : Path) : Except AccessError (List UInt8) :=
  match fs.find p with
  | .ok (location, some (.file octets)) =>
    if location ∈ fs.unreadable then .error .denied else .ok octets
  | .ok (_, some _) => .error .isDirectory
  | .ok (_, none) => .error .notFound
  | .error e => .error e

/-- The names in the directory that a path leads to, sorted. -/
def namesAt (fs : FileSystem) (p : Path) : Except AccessError (List String) :=
  match fs.find p with
  | .ok (location, some .directory) =>
    if location ∈ fs.unreadable then .error .denied else .ok (fs.names location)
  | .ok (_, some _) => .error .notDirectory
  | .ok (_, none) => .error .notFound
  | .error e => .error e

/-- Whether the last part of a path is seen to be a link, wherever it leads. -/
def isLink (fs : FileSystem) (p : Path) : Bool :=
  match fs.named p with
  | .ok entry => entry.isLink
  | .error _ => false

/-- The file system in which the file that a path leads to holds `octets`, created if it is not
there. -/
def write (fs : FileSystem) (p : Path) (octets : List UInt8) : Except AccessError FileSystem :=
  match fs.find p with
  | .ok (_, some .directory) => .error .isDirectory
  | .ok (location, _) =>
    if location ∈ fs.unreadable ∨ location ∈ fs.unwritable then .error .denied
    else .ok (fs.put location (.file octets))
  | .error e => .error e

end FileSystem

end TreeManifest
