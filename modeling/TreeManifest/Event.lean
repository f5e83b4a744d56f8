import TreeManifest.Decimal.Fixed
import TreeManifest.Failure

/-!
# Events

What the program tells its log: one constructor for each thing that can happen, with its level and
its line. The order of a run's events is part of what the run gives.
-/

namespace TreeManifest

inductive Level where
  | debug
  | info
  | warning
  | error
  deriving DecidableEq, Repr

namespace Level

def name : Level → String
  | debug => "DEBUG"
  | info => "INFO"
  | warning => "WARNING"
  | error => "ERROR"

def rank : Level → Nat
  | debug => 10
  | info => 20
  | warning => 30
  | error => 40

end Level

structure FailedRun where
  /-- The directory whose step failed. -/
  directory : String
  category : Category
  written : Nat
  message : String
  deriving DecidableEq

structure CompletedRun where
  root : String
  manifests : Nat
  calls : Nat
  inputTokens : Int
  outputTokens : Int
  cost : Float

inductive Event where
  | unusualManifestName (name : String)
  | listingRefused (root : String)
  | directoryUnreadable (path : String)
  | listingTruncated (root : String) (limit : Int)
  | fileUndescribed (path : String)
  | filesCollected (root : String) (files directories described : Nat)
  | grammarUnavailable (language : String)
  | extractionFailed (path : String)
  | manifestWritten (path : String) (chars : Nat)
  | usageMissing (model : String)
  | costUnavailable (model : String)
  | generationFailed (run : FailedRun)
  | generationComplete (run : CompletedRun)

namespace Event

def maxErrorChars : Nat := 200

def shortened (text : String) : String := String.ofList (text.toList.take maxErrorChars)

def truthText (b : Bool) : String := if b then "True" else "False"

def level : Event → Level
  | unusualManifestName _ | listingRefused _ | directoryUnreadable _ | fileUndescribed _
  | extractionFailed _ => .warning
  | listingTruncated .. | manifestWritten .. | generationComplete _ => .info
  | filesCollected .. | grammarUnavailable _ | usageMissing _ | costUnavailable _ => .debug
  | generationFailed _ => .error

def line (name : String) (fields : List (String × String)) : String :=
  String.intercalate " " ((("event", name) :: fields).map fun (key, value) => key ++ "=" ++ value)

def FailedRun.fields (run : FailedRun) : List (String × String) :=
  [("directory", run.directory), ("error_class", run.category.text),
    ("retryable", truthText run.category.retryable), ("manifests_written", toString run.written),
    ("error", shortened run.message)]

def CompletedRun.fields (run : CompletedRun) : List (String × String) :=
  [("root", run.root), ("manifests", toString run.manifests), ("calls", toString run.calls),
    ("input_tokens", toString run.inputTokens), ("output_tokens", toString run.outputTokens),
    ("cost", Decimal.fixed 6 run.cost)]

def message : Event → String
  | unusualManifestName name => "manifest_filename " ++ name ++ " does not have a YAML extension"
  | listingRefused root => line "listing_refused" [("root", root)]
  | directoryUnreadable path => line "directory_unreadable" [("path", path)]
  | listingTruncated root limit =>
    line "listing_truncated" [("root", root), ("limit", toString limit)]
  | fileUndescribed path => line "file_analysis_failed" [("path", path)]
  | filesCollected root files directories described =>
    line "files_collected" [("root", root), ("files", toString files),
      ("directories", toString directories), ("analyzed", toString described)]
  | grammarUnavailable language => line "grammar_unavailable" [("language", language)]
  | extractionFailed path => line "definition_extraction_failed" [("path", path)]
  | manifestWritten path chars =>
    line "manifest_written" [("path", path), ("chars", toString chars)]
  | usageMissing model => line "usage_missing" [("model", model)]
  | costUnavailable model => line "cost_unavailable" [("model", model)]
  | generationFailed run => line "generation_failed" (FailedRun.fields run)
  | generationComplete run => line "generation_complete" (CompletedRun.fields run)

end Event

end TreeManifest
