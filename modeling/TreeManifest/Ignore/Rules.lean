import TreeManifest.Ignore.Pattern
import TreeManifest.Text.Lines

/-!
# Ignore rules

A whole ignore file. A line is a comment, nothing, or a rule that ignores what it matches or, after
an exclamation mark, takes it back; the last rule that matches a path decides (`Rules.ignores`).
-/

namespace TreeManifest.Ignore

structure Rule where
  matcher : Matcher
  /-- Whether what matches is ignored, or taken back. -/
  ignores : Bool
  deriving DecidableEq, Repr

abbrev Rules := List Rule

def Rules.ignores (rules : Rules) (path : String) : Bool :=
  match rules.reverse.find? (·.matcher.matches path.toList) with
  | some rule => rule.ignores
  | none => false

/-- A rule's text: blanks at the end are cut, but for a last blank that a backslash protects. -/
def ruleText (line : List Char) : List Char :=
  if ['\\', ' '] <:+ line then line else Text.trimRight line

def collapse : List String → List String
  | "**" :: "**" :: rest => collapse ("**" :: rest)
  | segment :: rest => segment :: collapse rest
  | [] => []

/-- The segments of a pattern in full form. A pattern that starts with a slash is tied to the root,
and so is one with a slash inside; any other applies at every depth. A final slash asks for
everything below. -/
def fullSegments (pattern : List Char) : List String :=
  let segments := (Path.splitSlashes pattern).map String.ofList
  let placed := match segments with
    | "" :: rest => rest
    | [first] => if first = "**" then [first] else ["**", first]
    | [first, ""] => if first = "**" then [first, ""] else ["**", first, ""]
    | _ => segments
  let below := match placed.getLast? with
    | some "" => placed.dropLast ++ ["**"]
    | _ => placed
  collapse below

/-- The pieces of the segments from the `index`-th on. `afterName` tells that a slash must come
before the next name. -/
def segmentPieces (index : Nat) (afterName : Bool) : List String → Option (List Piece)
  | [] => some []
  | segment :: rest =>
    if segment = "**" then
      if rest = [] then some [.atom .slash]
      else if index = 0 then (segmentPieces (index + 1) false rest).map (.atom .anyAbove :: ·)
      else (segmentPieces (index + 1) true rest).map (.atom .anyBetween :: ·)
    else do
      let slash := if afterName then [Piece.atom .slash] else []
      let name ←
        if segment = "*" then some [Piece.atom .anyName]
        else readGlob segment.length segment.toList
      let ending :=
        if rest ≠ [] then []
        else if segment = "*" then [Piece.atom .pathEnd]
        else [Piece.atom .nameEnd]
      let pieces ← segmentPieces (index + 1) true rest
      return slash ++ name ++ ending ++ pieces

def readMatcher (line pattern : List Char) : Except Failure Matcher :=
  let invalid := Failure.invalidPattern (String.ofList line)
  let directoryOnly := pattern.getLast? = some '/' && pattern ≠ ['/']
  match fullSegments pattern with
  | [] => .error invalid
  | ["**"] => .ok (if directoryOnly then .anySlash else .everything)
  | ["**", "*"] => .ok .everything
  | ["**", "*", "**"] => .ok .anySlash
  | segments => match segmentPieces 0 false segments with
    | none => .error invalid
    | some pieces => (readPieces 1 pieces).map .fromStart

def readRule (line : List Char) : Except Failure (Option Rule) :=
  match ruleText line with
  | [] => .ok none
  | '#' :: _ => .ok none
  | '!' :: pattern => do
    let matcher ← readMatcher line pattern
    return some ⟨matcher, false⟩
  | pattern => do
    let matcher ← readMatcher line pattern
    return some ⟨matcher, true⟩

def readLines (lines : List (List Char)) : Except Failure Rules := do
  return (← lines.mapM readRule).filterMap id

def chunkSize : Nat := 8192

/-- The octets of each decoding step: a chunk, after the octets of a sequence that the step before
left open. Returns the text of the steps before the first ill-formed part, and that part at its
position in its own step. -/
def decodeChunks : (fuel : Nat) → (held octets : List UInt8) →
    List Char × Option Text.Utf8.Malformed
  | 0, _, _ => ([], none)
  | fuel + 1, held, octets =>
    let step := held ++ octets.take chunkSize
    let rest := octets.drop chunkSize
    let (cs, bad) := Text.Utf8.scanStrict 0 (Text.Utf8.pieces step)
    match bad with
    | none =>
      if octets = [] then (cs, none)
      else
        let (more, bad) := decodeChunks fuel [] rest
        (cs ++ more, bad)
    | some part =>
      if part.reason = .truncated && octets ≠ [] then
        let (more, bad) := decodeChunks fuel (step.drop (step.length - part.size)) rest
        (cs ++ more, bad)
      else ([], some part)

/-- The rules of a file. Lines that end before the first ill-formed part's chunk are read first, so
an invalid pattern among them is what is reported. -/
def readRules (octets : List UInt8) : Except Failure Rules :=
  match decodeChunks (octets.length + 2) [] octets with
  | (cs, none) => readLines (Text.linesWithEnds (Text.unifyLineEnds cs))
  | (cs, some part) => do
    let lines := Text.linesWithEnds (Text.unifyLineEnds cs)
    let _ ← readLines (lines.filter (·.getLast? = some '\n'))
    .error (.malformedText part)

end TreeManifest.Ignore
