import TreeManifest.Failure
import TreeManifest.Text.Blank

/-!
# Ignore patterns

One line of an ignore file, from its text to the relative paths it matches. A line is read into
segments between slashes, the segments into `Atom`s, and a pattern of atoms is matched by carrying
all the rests of the path that the atoms so far can leave. Directories are matched with a slash at
the end of their path.
-/

namespace TreeManifest.Ignore

/-- Characters between brackets: single ones and ranges, both ends included. -/
structure CharClass where
  negated : Bool
  ranges : List (Char × Char)
  deriving DecidableEq, Repr

def CharClass.contains (cls : CharClass) (c : Char) : Bool :=
  (cls.ranges.any fun (low, high) => low ≤ c && c ≤ high) != cls.negated

inductive Atom where
  | literal (char : Char)
  | oneOf (cls : CharClass)
  /-- One character of a name. -/
  | anyChar
  /-- Any part of a name. -/
  | anyText
  /-- A whole name or the rest of one. -/
  | anyName
  | slash
  /-- Any number of leading directories. -/
  | anyAbove
  /-- A slash and any number of directories, or nothing. -/
  | anyBetween
  /-- A slash, or the end of the path. -/
  | nameEnd
  /-- The end of the path, after a slash or not. -/
  | pathEnd
  deriving DecidableEq, Repr

def atEnd (cs : List Char) : Bool := cs = [] || cs = ['\n']

def restsWhile (p : Char → Bool) : List Char → List (List Char)
  | [] => [[]]
  | c :: rest => (c :: rest) :: if p c then restsWhile p rest else []

/-- The rests after a slash that has one character or more before it, none of them a line feed. -/
def restsAfterSlash (cs : List Char) : List (List Char) :=
  (restsWhile (· ≠ '\n') (cs.drop 1)).filterMap fun
    | '/' :: rest => if cs.head? = some '\n' then none else some rest
    | _ => none

def Atom.rests : Atom → List Char → List (List Char)
  | literal char, c :: rest => if c = char then [rest] else []
  | oneOf cls, c :: rest => if cls.contains c then [rest] else []
  | anyChar, c :: rest => if c = '/' then [] else [rest]
  | anyText, cs => restsWhile (· ≠ '/') cs
  | anyName, c :: rest => if c = '/' then [] else restsWhile (· ≠ '/') rest
  | slash, c :: rest => if c = '/' then [rest] else []
  | anyAbove, cs => cs :: restsAfterSlash cs
  | anyBetween, c :: rest =>
    (c :: rest) :: if c = '/' then (restsWhile (· ≠ '\n') rest).drop 1 else []
  | anyBetween, [] => [[]]
  | nameEnd, cs => match cs with
    | '/' :: rest => [rest]
    | _ => if atEnd cs then [cs] else []
  | pathEnd, cs => match cs with
    | '/' :: rest => if atEnd rest then [rest] else []
    | _ => if atEnd cs then [cs] else []
  | _, [] => []

inductive Matcher where
  /-- Atoms that must fit from the start of the path. -/
  | fromStart (atoms : List Atom)
  /-- A slash anywhere: every directory, and everything in a directory. -/
  | anySlash
  /-- Any character but a line feed: everything. -/
  | everything
  deriving DecidableEq, Repr

def Matcher.matches : Matcher → List Char → Bool
  | fromStart atoms, cs =>
    !(atoms.foldl (fun rests atom => (rests.flatMap atom.rests).eraseDups) [cs]).isEmpty
  | anySlash, cs => cs.contains '/'
  | everything, cs => cs.any (· ≠ '\n')

/-! ## Reading a segment -/

inductive Piece where
  | atom (atom : Atom)
  | brackets (negated : Bool) (inside : List Char)
  deriving DecidableEq, Repr

/-- The text between brackets and what follows them, for a segment after an opening bracket. A
bracket right after the opening one, or after a negation there, is part of the text. -/
def splitBrackets? (cs : List Char) : Option (Bool × List Char × List Char) :=
  let (negated, body) := match cs with
    | '!' :: rest => (true, rest)
    | '^' :: rest => (true, rest)
    | _ => (false, cs)
  let (first, rest) := match body with
    | ']' :: rest => ([']'], rest)
    | _ => ([], body)
  match rest.span (· ≠ ']') with
  | (inside, ']' :: after) => some (negated, first ++ inside, after)
  | _ => none

/-- A segment as pieces; `none` if its last character is a backslash with nothing to make literal.
Every piece takes a character, so the length is fuel enough. -/
def readGlob : (fuel : Nat) → List Char → Option (List Piece)
  | _, [] => some []
  | 0, _ => none
  | fuel + 1, c :: rest =>
    if c = '\\' then match rest with
      | [] => none
      | d :: rest => (readGlob fuel rest).map (.atom (.literal d) :: ·)
    else if c = '*' then (readGlob fuel rest).map (.atom .anyText :: ·)
    else if c = '?' then (readGlob fuel rest).map (.atom .anyChar :: ·)
    else if c = '[' then match splitBrackets? rest with
      | none => (readGlob fuel rest).map (.atom (.literal '[') :: ·)
      | some (negated, inside, after) => (readGlob fuel after).map (.brackets negated inside :: ·)
    else (readGlob fuel rest).map (.atom (.literal c) :: ·)

/-! ## Reading ranges

The position of an error is counted in the pattern's expanded text, in which each piece has a fixed
width. -/

/-- Characters with a meaning of their own in expanded text take two places there. -/
def literalWidth (c : Char) : Nat :=
  if c ∈ "()[]\x7b\x7d?*+-|^$\\.&~# \t\n\r\x0b\x0c".toList then 2 else 1

def Atom.width : Atom → Nat
  | literal c => literalWidth c
  | oneOf _ => 0
  | anyChar => 4
  | anyText => 5
  | anyName => 5
  | slash => 1
  | anyAbove => 8
  | anyBetween => 8
  | nameEnd => 7
  | pathEnd => 3

/-- A backslash inside brackets is written twice in expanded text. -/
def insideWidth (c : Char) : Nat := if c = '\\' then 2 else 1

def insideText (c : Char) : String := if c = '\\' then "\\\\" else String.ofList [c]

/-- The ranges between brackets. A hyphen between two characters makes a range, which must not run
backwards; a hyphen at the end stands for itself. -/
def readRanges (position : Nat) : List Char → Except Failure (List (Char × Char))
  | low :: '-' :: high :: rest =>
    if high < low then .error (.reversedRange (insideText low) (insideText high) position)
    else do
      let ranges ← readRanges (position + insideWidth low + 1 + insideWidth high) rest
      return (low, high) :: ranges
  | c :: rest => do
    let ranges ← readRanges (position + insideWidth c) rest
    return (c, c) :: ranges
  | [] => .ok []

def readPieces (position : Nat) : List Piece → Except Failure (List Atom)
  | [] => .ok []
  | .atom atom :: pieces => do
    let atoms ← readPieces (position + atom.width) pieces
    return atom :: atoms
  | .brackets negated inside :: pieces => do
    let start := position + 1 + if negated then 1 else 0
    let ranges ← readRanges start inside
    let width := (inside.map insideWidth).sum + 1
    let atoms ← readPieces (start + width) pieces
    return .oneOf ⟨negated, ranges⟩ :: atoms

end TreeManifest.Ignore
