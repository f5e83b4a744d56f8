import TreeManifest.Failure

/-!
# First-level directories

The directories that get a manifest of their own beside the root: those directly in it that are not
hidden, each real directory once, under the first of its names.
-/

namespace TreeManifest.FirstLevel

def isCandidate (root p : Path) : Bool := p.parent = root && !Path.isHiddenName p.name

def selectNew (fs : FileSystem) (root : Path) :
    (seen : List Location) → List Path → Except Failure (List Path)
  | _, [] => .ok []
  | seen, p :: rest =>
    if isCandidate root p then do
      let location ← fs.resolve p
      if seen.contains location then selectNew fs root seen rest
      else return p :: (← selectNew fs root (location :: seen) rest)
    else selectNew fs root seen rest

/-- The first-level directories among listed ones. The root itself is none of them. -/
def select (fs : FileSystem) (root : Path) (directories : List String) :
    Except Failure (List Path) := do
  let location ← fs.resolve root
  selectNew fs root [location] (directories.map Path.ofString)

end TreeManifest.FirstLevel
