import TreeManifest.Mapping
import TreeManifest.Path

/-!
# A file system as a value

What every location holds, with the directory that relative paths start in, the home directories and
what the user of the program may not do. The top of the file system is always a directory. Writing a
file changes what one location holds and nothing else (`entryAt?_put_of_ne`).
-/

namespace TreeManifest

inductive Entry where
  | file (octets : List UInt8)
  | directory
  | link (target : String)
  deriving DecidableEq, Repr

def Entry.isFile : Entry → Bool
  | .file _ => true
  | _ => false

def Entry.isLink : Entry → Bool
  | .link _ => true
  | _ => false

structure FileSystem where
  entries : Mapping Location Entry
  working : Location
  home : Option String
  /-- The files that cannot be opened, and the directories whose names cannot be read. -/
  unreadable : List Location
  /-- The directories that no path leads through. -/
  unsearchable : List Location := []
  /-- The places that no file can be written to. -/
  unwritable : List Location := []
  /-- The home directories of the users that a path can name. -/
  homes : Mapping String String := []
  deriving DecidableEq, Repr

namespace FileSystem

def entryAt? (fs : FileSystem) (location : Location) : Option Entry :=
  if location = [] then some .directory else Mapping.get? location fs.entries

def put (fs : FileSystem) (location : Location) (entry : Entry) : FileSystem :=
  { fs with entries := Mapping.put location entry fs.entries }

def isDirectoryAt (fs : FileSystem) (location : Location) : Bool :=
  fs.entryAt? location = some .directory

def nameBelow? (directory location : Location) : Option String :=
  match location.getLast? with
  | some name => if location.dropLast = directory then some name else none
  | none => none

def insertName (name : String) : List String → List String
  | [] => [name]
  | other :: rest => if name ≤ other then name :: other :: rest else other :: insertName name rest

def sortNames (names : List String) : List String := names.foldr insertName []

def names (fs : FileSystem) (directory : Location) : List String :=
  sortNames (fs.entries.filterMap fun (location, _) => nameBelow? directory location)

theorem entryAt?_put_self {fs : FileSystem} {location : Location} {entry : Entry}
    (h : location ≠ []) : (fs.put location entry).entryAt? location = some entry := by
  simp [entryAt?, put, h, Mapping.get?_put_self]

theorem entryAt?_put_of_ne {fs : FileSystem} {location other : Location} {entry : Entry}
    (h : other ≠ location) : (fs.put location entry).entryAt? other = fs.entryAt? other := by
  simp [entryAt?, put, Mapping.get?_put_of_ne h]

theorem mem_insertName {name other : String} {names : List String} :
    other ∈ insertName name names ↔ other = name ∨ other ∈ names := by
  induction names with
  | nil => simp [insertName]
  | cons n rest ih =>
    simp only [insertName]
    split
    · simp
    · simp [ih, or_left_comm]

theorem mem_sortNames {name : String} {names : List String} :
    name ∈ sortNames names ↔ name ∈ names := by
  induction names with
  | nil => simp [sortNames]
  | cons n rest ih => simpa [sortNames, mem_insertName] using or_congr_right ih

end FileSystem

end TreeManifest
