import TreeManifest.Session

/-!
# Writing a manifest

One call of the model makes one manifest. Pieces of text are joined in the order of their arrival,
reports of usage are counted and all other pieces are passed over. The file is written once, after
the end of the stream, and holds the UTF-8 octets of the text; a stream that fails writes nothing.
-/

namespace TreeManifest

namespace Manifest

/-- What a stream leaves for the manifest: a text, or the kind of a value that is none. -/
inductive Piece where
  | text (text : String)
  | notText (kind : String)
  deriving DecidableEq, Repr

/-- The counters after the chunks of a stream, and the pieces among them. -/
def receive : Usage → List Chunk → Usage × Except Failure (List Piece)
  | usage, [] => (usage, .ok [])
  | usage, .text text :: rest =>
    let (usage, pieces) := receive usage rest
    (usage, pieces.map (.text text :: ·))
  | usage, .notText kind :: rest =>
    let (usage, pieces) := receive usage rest
    (usage, pieces.map (.notText kind :: ·))
  | usage, .usage call :: rest =>
    match usage.add call with
    | (usage, .ok ()) => receive usage rest
    | (usage, .error failure) => (usage, .error failure)
  | usage, .lacking name :: _ => (usage, .error (.missingAttribute name))
  | usage, .reasoning _ :: rest => receive usage rest
  | usage, .other :: rest => receive usage rest

def joinFrom (index : Nat) : List Piece → Except Failure String
  | [] => .ok ""
  | .text text :: rest => (joinFrom (index + 1) rest).map (text ++ ·)
  | .notText kind :: _ => .error (.notText index kind)

def absorb (usage : Usage) (reply : Reply) : Usage × Except Failure String :=
  let (usage, pieces) := receive usage reply.chunks
  (usage, do
    let pieces ← pieces
    match reply.failure with
    | some failure => throw failure
    | none => joinFrom 0 pieces)

def writeText (fs : FileSystem) (p : Path) (text : String) : Except Failure FileSystem :=
  if FileSystem.hasNull p then .error .nullInPath
  else (fs.write p (Text.Utf8.encode text)).mapError (FileSystem.pathFailure p)

end Manifest

namespace Run

/-- The text that a reply makes, with its usage counted. -/
def absorb (reply : Reply) : Run σ String := do
  let (usage, text) := Manifest.absorb (← get).usage reply
  modify fun s => { s with usage }
  match text with
  | .ok text => return text
  | .error failure => throw failure

def write (p : Path) (text : String) : Run σ Unit := do
  match Manifest.writeText (← get).fs p text with
  | .ok fs => modify fun s => { s with fs }
  | .error failure => throw failure

def generateManifest (client : Client σ) (request : Request) (p : Path) : Run σ String := do
  let text ← absorb (← ask client request)
  write p text
  log (.manifestWritten p.toString text.length)
  return text

end Run

end TreeManifest
