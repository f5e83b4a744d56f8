import TreeManifest.FileSystem.Access

/-!
# Resolved locations

The location that a path has after its links and its `..` are worked out, for paths that the system
itself cannot follow to their end. Unlike the system, which needs every part to exist, resolution
goes on below what is missing. A path that starts in the working directory is followed as a relative
path until a link leads to the top. Each link is opened once under each of the paths that lead to
it; one that is met again while it is open is a loop, and from there on the parts are only written
out.
-/

namespace TreeManifest.FileSystem

/-- What remains to be done: a part to follow, or a link to close. -/
inductive Task where
  | part (name : String)
  | close (link : Path)
  deriving DecidableEq, Repr

def Task.part? : Task → Option String
  | part name => some name
  | close _ => none

def writePart (location : Location) (part : String) : Location :=
  if part = ".." then location.dropLast
  else if part = "" ∨ part = "." then location
  else location ++ [part]

def writeOut (location : Location) (parts : List String) : Location := parts.foldl writePart location

def place (fs : FileSystem) (p : Path) : Location := writeOut (fs.start p) p.parts

/-- The directory above a path whose links are worked out. A relative path may lead up from where it
starts, and then keeps its `..`. -/
def above (p : Path) : Path :=
  match p.parts.getLast? with
  | none => if p.anchor = .here then ⟨.here, [".."]⟩ else p
  | some last => if last = ".." then p.child ".." else p.parent

/-- The target of the link that a path ends with, for a path whose other links are worked out. No
link is seen in a directory that may not be searched. -/
def linkAt? (fs : FileSystem) (p : Path) : Option String :=
  match fs.scan (fs.start p) p.parts with
  | .ok (.link _ target []) => some target
  | _ => none

def targetStart (directory : Path) (target : String) : Path :=
  if target.toList.head? = some '/' then ⟨.top, []⟩ else directory

/-- How a resolution ends: at a location, or at one below a loop of links. -/
inductive Resolution where
  | resolved (location : Location)
  | looped (location : Location)
  deriving DecidableEq, Repr

/-- The location after `tasks`, from the path reached so far. `opened` holds the links met so far,
with what they lead to once they are closed. -/
def resolveTasks (fs : FileSystem) :
    (fuel : Nat) → Mapping Path (Option Path) → Path → List Task → Resolution
  | 0, _, p, _ => .looped (fs.place p)
  | _ + 1, _, p, [] => .resolved (fs.place p)
  | fuel + 1, opened, p, .close link :: tasks =>
    resolveTasks fs fuel (Mapping.put link (some p) opened) p tasks
  | fuel + 1, opened, p, .part name :: tasks =>
    if name = "" ∨ name = "." then resolveTasks fs fuel opened p tasks
    else if name = ".." then resolveTasks fs fuel opened (above p) tasks
    else
      let next := p.child name
      match fs.linkAt? next with
      | some target => match Mapping.get? next opened with
        | some (some known) => resolveTasks fs fuel opened known tasks
        | some none => .looped (writeOut (fs.place next) (tasks.filterMap Task.part?))
        | none =>
          resolveTasks fs fuel (Mapping.put next none opened) (targetStart p target)
            ((targetParts target).map .part ++ .close next :: tasks)
      | none => resolveTasks fs fuel opened next tasks

/-- The steps that a resolution of `parts` may take. A link is met under one path from the top and
one from each directory above the working one. -/
def resolveFuel (fs : FileSystem) (parts : List String) : Nat :=
  parts.length + 1 + (fs.working.length + 2) * (fs.entries.map fun
    | (_, .link target) => (targetParts target).length + 2
    | _ => 0).foldr (· + ·) 0

def resolvePath (fs : FileSystem) (p : Path) : Resolution :=
  let start : Path := if p.anchor = .here then ⟨.here, []⟩ else ⟨.top, []⟩
  fs.resolveTasks (fs.resolveFuel p.parts) [] start (p.parts.map .part)

end TreeManifest.FileSystem
