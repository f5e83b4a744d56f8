import TreeManifest.Ignore.Rules
import TreeManifest.Report

/-!
# Bounded listings

What lies under a root, level by level and by name within a directory. `visits` is the unbounded
walk as data: the items in order, the directories that could not be read, and the first failure.
`cut` takes as many items as the limit allows and tells whether one was left out. A root that is the
top of the file system or the home directory is not walked.
-/

namespace TreeManifest

/-- Directories of dependencies and build output, which are never entered. -/
def skippedDirectories : List String :=
  ["Pods", "__pycache__", "build", "bundle", "deps", "dist", "env", "node_modules", "out", "pkg",
    "target", "temp", "tmp", "vendor", "venv"]

structure Item where
  location : Location
  isDirectory : Bool
  deriving DecidableEq, Repr

def directoryText (location : Location) : String :=
  if location = [] then "/" else (Path.ofLocation location).toString ++ "/"

def Item.text (item : Item) : String :=
  if item.isDirectory then directoryText item.location
  else (Path.ofLocation item.location).toString

structure Listing where
  entries : List String
  /-- Whether items were left out. -/
  truncated : Bool
  deriving DecidableEq, Repr

namespace Listing

inductive Visit where
  | item (item : Item)
  | unreadable (directory : Location)
  | failed (failure : Failure)

structure Walk where
  base : Location
  ignores : String → Bool

def Walk.relative (walk : Walk) (location : Location) : String :=
  String.intercalate "/" (location.drop walk.base.length)

/-- Whether a link may be listed: it leads to no directory, and not out of the base. -/
def Walk.admitsLink (fs : FileSystem) (walk : Walk) (p : Path) : Except Failure Bool := do
  if ← fs.isDirectory? p then return false
  else return walk.base.isPrefixOf (← fs.resolve p)

/-- Whether what is at a path is passed over because it is a link. -/
def Walk.excludesLink (fs : FileSystem) (walk : Walk) (p : Path) : Except Failure Bool := do
  if ← fs.isLink? p then (walk.admitsLink fs p).map not else return false

/-- The item at a location directly in a directory that is walked, if it is to be listed. -/
def Walk.admit? (fs : FileSystem) (walk : Walk) (location : Location) :
    Except Failure (Option Item) := do
  let p := Path.ofLocation location
  if ← walk.excludesLink fs p then return none
  else if ← fs.isDirectory? p then
    if Path.isHiddenName p.name || skippedDirectories.contains p.name then return none
    else if walk.ignores (walk.relative location ++ "/") then return none
    else return some ⟨location, true⟩
  else if !(← fs.isFile? p) then return none
  else if walk.ignores (walk.relative location) then return none
  else return some ⟨location, false⟩

/-- The visits in one directory. Only the base must be readable. -/
def Walk.visitDirectory (fs : FileSystem) (walk : Walk) (directory : Location) : List Visit :=
  match fs.namesAt (Path.ofLocation directory) with
  | .error e =>
    if e = .denied ∧ directory ≠ walk.base then [.unreadable directory]
    else [.failed (.access e (Path.ofLocation directory).toString)]
  | .ok names => names.filterMap fun name =>
    match walk.admit? fs (directory ++ [name]) with
    | .ok (some item) => some (.item item)
    | .ok none => none
    | .error failure => some (.failed failure)

def directoriesOf (visits : List Visit) : List Location :=
  visits.filterMap fun
    | .item ⟨location, true⟩ => some location
    | _ => none

def Walk.visitLevels (fs : FileSystem) (walk : Walk) : (depth : Nat) → List Location → List Visit
  | 0, _ => []
  | _ + 1, [] => []
  | depth + 1, directories =>
    let visits := directories.flatMap (walk.visitDirectory fs)
    visits ++ walk.visitLevels fs depth (directoriesOf visits)

/-- More levels than the file system has below any location. -/
def maxLevels (fs : FileSystem) : Nat := fs.entries.length + 1

def Walk.visits (fs : FileSystem) (walk : Walk) (recursive : Bool) : List Visit :=
  walk.visitLevels fs (if recursive then maxLevels fs else 1) [walk.base]

/-- The first items of a walk, as many as `limit` allows, with the events on the way. -/
def cut : (limit : Nat) → List Visit → Report Listing
  | _, [] => Report.pure ⟨[], false⟩
  | limit, .unreadable directory :: rest =>
    let report := cut limit rest
    ⟨.directoryUnreadable (Path.ofLocation directory).toString :: report.events, report.result⟩
  | _, .failed failure :: _ => Report.fail failure
  | 0, .item _ :: _ => Report.pure ⟨[], true⟩
  | limit + 1, .item item :: rest =>
    let report := cut limit rest
    ⟨report.events, report.result.map fun l => { l with entries := item.text :: l.entries }⟩

/-- Whether a root is too large to be walked: the top, or the home directory. -/
def isProtected (fs : FileSystem) (base : Location) : Except Failure Bool := do
  if base = [] then return true
  return base = (← fs.locate (Path.ofString "~"))

/-- The rules of a root's ignore file. One that cannot be opened has none. -/
def rulesOf (fs : FileSystem) (base : Location) : Except Failure Ignore.Rules := do
  let p := Path.ofLocation (base ++ [".gitignore"])
  if !(← fs.exists? p) then return []
  match fs.read p with
  | .ok octets => Ignore.readRules octets
  | .error _ => return []

def ofBase (fs : FileSystem) (base : Location) (recursive : Bool) (limit : Int) :
    Report Listing := do
  if ← Report.ofExcept (isProtected fs base) then
    Report.note (.listingRefused (Path.ofLocation base).toString)
    return ⟨[directoryText base], false⟩
  let rules ← Report.ofExcept (rulesOf fs base)
  cut limit.toNat (Walk.visits fs ⟨base, rules.ignores⟩ recursive)

def directoryAt (fs : FileSystem) (location : Location) : Except Failure Unit := do
  let p := Path.ofLocation location
  if ← fs.isDirectory? p then return ()
  throw (.missingDirectory p.toString)

def list (fs : FileSystem) (root : String) (recursive : Bool) (limit : Int) : Report Listing := do
  let base ← Report.ofExcept (fs.locate (Path.ofString root))
  Report.ofExcept (directoryAt fs base)
  ofBase fs base recursive limit

end Listing

end TreeManifest
