import TreeManifest.Description
import TreeManifest.Listing

/-!
# Collections

A listing with a description of every file in it. Hidden files are listed and not described.
-/

namespace TreeManifest

structure Collection where
  entries : List String
  files : List String
  directories : List String
  /-- The description of each described file, by its listed path. -/
  analysis : Mapping String String
  truncated : Bool
  deriving DecidableEq, Repr

namespace Collection

/-- Entries of directories end with a slash. -/
def isDirectoryEntry (entry : String) : Bool := entry.toList.getLast? = some '/'

def isHiddenEntry (entry : String) : Bool :=
  let named := Text.dropRightWhile (· = '/') entry.toList
  (named.reverse.takeWhile (· ≠ '/')).reverse.head? = some '.'

/-- The descriptions of files in order; a file that is listed twice is described twice and kept
once. -/
def describeAll (fs : FileSystem) :
    Mapping String String → List String → Report (Mapping String String)
  | analysis, [] => Report.pure analysis
  | analysis, file :: files => do
    let description ← Description.describe fs file
    describeAll fs (Mapping.put file description analysis) files

def ofListing (fs : FileSystem) (root : String) (limit : Int) (listing : Listing) :
    Report Collection := do
  if listing.truncated then Report.note (.listingTruncated root limit)
  let files := listing.entries.filter (!isDirectoryEntry ·)
  let directories := listing.entries.filter isDirectoryEntry
  let analysis ← describeAll fs [] (files.filter (!isHiddenEntry ·))
  Report.note (.filesCollected root files.length directories.length analysis.length)
  return ⟨listing.entries, files, directories, analysis, listing.truncated⟩

end Collection

abbrev Lister := FileSystem → String → Int → Report Listing

def Lister.walking : Lister := fun fs root limit => Listing.list fs root true limit

def Collection.collect (fs : FileSystem) (lister : Lister) (root : String) (limit : Int) :
    Report Collection := do
  ofListing fs root limit (← lister fs root limit)

end TreeManifest
