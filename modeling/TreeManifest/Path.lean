/-!
# Paths as written

A path is an anchor and its parts, without empty and single-dot parts; `..` is kept, for only a
file system can tell what it means. Nothing here looks at files. A `Location` is a path from the top
that has been resolved: the names to follow, without `..`.
-/

namespace TreeManifest

/-- Where a path starts. Two leading slashes are told apart from one and from three. -/
inductive Anchor where
  | here
  | top
  | doubleTop
  deriving DecidableEq, Repr

def Anchor.text : Anchor → String
  | .here => ""
  | .top => "/"
  | .doubleTop => "//"

structure Path where
  anchor : Anchor
  parts : List String
  deriving DecidableEq, Repr

abbrev Location := List String

namespace Path

def splitSlashes : List Char → List (List Char)
  | [] => [[]]
  | c :: rest =>
    if c = '/' then [] :: splitSlashes rest
    else match splitSlashes rest with
      | [] => [[c]]
      | part :: parts => (c :: part) :: parts

/-- The parts that name something: neither empty nor the single dot. -/
def partsOf (text : List Char) : List String :=
  ((splitSlashes text).map String.ofList).filter fun part => part ≠ "" && part ≠ "."

def anchorOf (text : List Char) : Anchor :=
  match (text.takeWhile (· = '/')).length with
  | 0 => .here
  | 2 => .doubleTop
  | _ => .top

def ofString (text : String) : Path := ⟨anchorOf text.toList, partsOf text.toList⟩

/-- The written form; the empty path is a single dot. -/
def toString (p : Path) : String :=
  let text := p.anchor.text ++ String.intercalate "/" p.parts
  if text = "" then "." else text

def name (p : Path) : String := p.parts.getLast?.getD ""

/-- A path without its last part; an anchor alone is its own parent. -/
def parent (p : Path) : Path := ⟨p.anchor, p.parts.dropLast⟩

def child (p : Path) (name : String) : Path := ⟨p.anchor, p.parts ++ [name]⟩

def relativeTo? (p base : Path) : Option Path :=
  if p.anchor = base.anchor ∧ base.parts <+: p.parts then
    some ⟨.here, p.parts.drop base.parts.length⟩
  else none

/-- The extension of a name, from its last dot on; none if that dot is the first or the last
character. -/
def suffixOf (name : String) : String :=
  let cs := name.toList
  let extension := (cs.reverse.takeWhile (· ≠ '.')).reverse
  let before := cs.length - extension.length
  if extension = [] || before ≤ 1 then "" else String.ofList ('.' :: extension)

def ofLocation (location : Location) : Path := ⟨.top, location⟩

@[simp] theorem parent_child (p : Path) (name : String) : (p.child name).parent = p := by
  simp [parent, child]

@[simp] theorem name_child (p : Path) (name : String) : (p.child name).name = name := by
  simp [Path.name, child]

def isHiddenName (name : String) : Bool := name.toList.head? = some '.'

end Path

end TreeManifest
