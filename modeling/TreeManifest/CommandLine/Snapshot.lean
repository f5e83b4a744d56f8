import TreeManifest.CommandLine.Program

/-!
# Snapshots of a machine

A machine as one JSON object: its working directory, its homes, its environment, its files with
their syntax trees, and what the provider answers. A file is its text, the target of a link, or null
for a directory; the directories on the way to it are made.

The members are `working`, `home`, `homes`, `unreadable`, `unsearchable`, `unwritable`,
`environment`, `files`, `replies` and `price`, of which only `working` must be there. A file's value
is null, a text, `link` with a target, or `text` with a `tree`. `replies` holds the streams that the
calls of the provider open, the last of which repeats, and `price` the answer of its price list to
all of them.
-/

namespace TreeManifest.CommandLine.Snapshot

def natOf? : Json → Option Nat
  | .int n => if 0 ≤ n then some n.toNat else none
  | _ => none

def textOf? : Json → Option String
  | .str text => some text
  | _ => none

mutual

/-- A node: its type, whether it is named, where it starts and stops, its row and its children. -/
def nodeOf? : Json → Option Source.Node
  | .arr [type, named, start, stop, row, .arr children] => do
    return ⟨← textOf? type, (← natOf? named) ≠ 0, ← natOf? start, ← natOf? stop, ← natOf? row,
      ← nodesOf? children⟩
  | _ => none

def nodesOf? : List Json → Option (List Source.Node)
  | [] => some []
  | value :: rest => do return (← nodeOf? value) :: (← nodesOf? rest)

end

structure Item where
  path : String
  entry : Entry
  tree : Option (List Source.Node)

def itemOf? (path : String) (value : Json) : Option Item :=
  match value with
  | .null => some ⟨path, .directory, none⟩
  | .str text => some ⟨path, .file (Text.Utf8.encode text), none⟩
  | .obj members =>
    match Mapping.get? "link" members, Mapping.get? "text" members with
    | some (.str target), _ => some ⟨path, .link target, none⟩
    | none, some (.str text) =>
      let tree := match Mapping.get? "tree" members with
        | some (.arr nodes) => nodesOf? nodes
        | _ => none
      some ⟨path, .file (Text.Utf8.encode text), tree⟩
    | _, _ => none
  | _ => none

def ancestors (location : Location) : List Location :=
  (List.range location.length).filterMap fun n =>
    if n = 0 then none else some (location.take n)

def addDirectory (fs : FileSystem) (location : Location) : FileSystem :=
  if (fs.entryAt? location).isSome then fs else fs.put location .directory

def addItem (fs : FileSystem) (item : Item) : FileSystem :=
  let location := (Path.ofString item.path).parts
  let fs := (ancestors location).foldl addDirectory fs
  fs.put location item.entry

def parse (items : List Item) (octets : List UInt8) : Option (List Source.Node) :=
  match items.find? fun item => item.entry = .file octets && item.tree.isSome with
  | some item => item.tree
  | none => some []

def opening (replies : List Json) (n : Nat) : Provider.Opening :=
  match replies[n]?.or replies.getLast? with
  | some (.arr parts) => .stream (parts.map .record)
  | _ => .stream []

def locationsOf : Option Json → List Location
  | some (.arr paths) => (paths.filterMap textOf?).map fun path => (Path.ofString path).parts
  | _ => []

def textsOf? : Option Json → Option (Mapping String String)
  | some (.obj members) => members.mapM fun (name, value) => (textOf? value).map (name, ·)
  | _ => some []

def machineOf? (value : Json) : Option Machine := do
  let working ← (value.member? "working").bind textOf?
  let homes ← textsOf? (value.member? "homes")
  let environment ← textsOf? (value.member? "environment")
  let items ← match value.member? "files" with
    | some (.obj members) => members.mapM fun (path, value) => itemOf? path value
    | _ => some []
  let replies := match value.member? "replies" with
    | some (.arr replies) => replies
    | _ => []
  let price := match value.member? "price" with
    | some (.arr prices) => some prices
    | _ => none
  let location := (Path.ofString working).parts
  let bare : FileSystem :=
    { entries := []
      working := location
      home := (value.member? "home").bind textOf?
      unreadable := locationsOf (value.member? "unreadable")
      unsearchable := locationsOf (value.member? "unsearchable")
      unwritable := locationsOf (value.member? "unwritable")
      homes := homes }
  let empty := addDirectory ((ancestors location).foldl addDirectory bare) location
  return {
    fs := items.foldl addItem empty
    environment := environment
    grammars := ⟨[], [], fun _ => parse items⟩
    provider := ⟨opening replies, fun _ _ _ => price⟩ }

def changes (before after : FileSystem) : List (Location × List UInt8) :=
  after.entries.filterMap fun (location, entry) =>
    match entry with
    | .file octets =>
      if before.entryAt? location = some entry then none else some (location, octets)
    | _ => none

end TreeManifest.CommandLine.Snapshot
