import TreeManifest.Documentation
import TreeManifest.Proofs.Listing.Survival
import TreeManifest.Proofs.Provider.Retry

/-!
# Failures that are handled

No step of the program asks for its end by itself. Whatever it meets in a tree, a step that fails
gives a failure that is handled (`Handled`), and so do the replies of a provider whose errors do not
ask for the end of the program either (`Provider.client_handled`).
-/

namespace TreeManifest

variable {α β : Type}

def Handled (result : Except Failure α) : Prop :=
  ∀ failure, result = .error failure → failure.isHandled = true

namespace Handled

@[simp] theorem ok (value : α) : Handled (.ok value : Except Failure α) :=
  fun _ h => (nomatch h)

@[simp] theorem pure (value : α) : Handled (Pure.pure value : Except Failure α) := ok value

@[simp] theorem error_iff {failure : Failure} :
    Handled (.error failure : Except Failure α) ↔ failure.isHandled = true := by
  simp [Handled]

theorem bind {x : Except Failure α} {f : α → Except Failure β} (h : Handled x)
    (hf : ∀ value, Handled (f value)) : Handled (x >>= f) := by
  rcases x with failure | value
  · exact error_iff.mpr (error_iff.mp h)
  · exact hf value

theorem map {x : Except Failure α} (h : Handled x) (f : α → β) : Handled (x.map f) := by
  rcases x with failure | value
  · exact error_iff.mpr (error_iff.mp h)
  · exact ok (f value)

theorem mapError {ε : Type} {x : Except ε α} {f : ε → Failure}
    (h : ∀ e, (f e).isHandled = true) : Handled (x.mapError f) := by
  rcases x with e | value
  · exact error_iff.mpr (h e)
  · exact ok value

theorem ite {c : Prop} [Decidable c] {x y : Except Failure α} (h : Handled x) (h' : Handled y) :
    Handled (if c then x else y) := by
  split
  · exact h
  · exact h'

end Handled

-- ---------------------------------------------------------------------------
-- Paths
-- ---------------------------------------------------------------------------

namespace FileSystem

variable (fs : FileSystem) (p : Path)

theorem resolve_handled : Handled (fs.resolve p) := by
  refine .ite (by simp [Failure.isHandled]) ?_
  rcases fs.find p with e | found
  · show Handled (fs.resolveMissing p)
    unfold resolveMissing
    split
    · exact .ok _
    · dsimp only
      split <;> simp [Failure.isHandled]
  · exact .ok _

theorem ask_handled (holds : Entry → Bool) (there : Except AccessError Entry) :
    Handled (ask p holds there) := .ite (.ok _) (.mapError fun _ => rfl)

end FileSystem

-- ---------------------------------------------------------------------------
-- Ignore files
-- ---------------------------------------------------------------------------

namespace Ignore

end Ignore

-- ---------------------------------------------------------------------------
-- Listings
-- ---------------------------------------------------------------------------

namespace Report

theorem result_handled_bind {report : Report α} {next : α → Report β} (h : Handled report.result)
    (hn : ∀ value, Handled (next value).result) : Handled (report >>= next).result := by
  rw [result_bind]
  exact h.bind hn

end Report

open FileSystem
open Report (result_handled_bind)

namespace Listing

variable (fs : FileSystem)

theorem directoryAt_handled (location : Location) : Handled (directoryAt fs location) := by
  refine (ask_handled _ _ _).bind fun given => ?_
  split
  · exact .pure _
  · exact Handled.error_iff.mpr rfl

end Listing

-- ---------------------------------------------------------------------------
-- Collections, first levels and definitions
-- ---------------------------------------------------------------------------

theorem Source.extract_handled (grammars : Grammars) (limit : Int) (fs : FileSystem)
    (parsers : Parsers) (p : Path) : Handled (extract grammars limit fs parsers p).result := by
  have hamong : ∀ directory names, Handled (sourcesAmong fs directory names) := by
    intro directory names
    induction names with
    | nil => exact .ok _
    | cons name names ih =>
      exact (ask_handled _ _ _).bind fun _ => ih.bind fun _ => .pure _
  have hsources : ∀ directory, Handled (sourcesIn fs directory) := by
    intro directory
    unfold sourcesIn
    split
    · exact Handled.error_iff.mpr rfl
    · exact hamong _ _
  have hfiles : ∀ directory sources parsers,
      Handled (extractFiles grammars fs directory parsers sources).result := by
    intro directory sources
    induction sources with
    | nil => exact fun parsers => .ok _
    | cons source sources ih => exact fun parsers => (ih _).map _
  refine result_handled_bind (resolve_handled fs p) fun directory => ?_
  refine result_handled_bind (Listing.directoryAt_handled fs directory) fun _ => ?_
  refine result_handled_bind (hsources directory) fun sources => ?_
  exact result_handled_bind (hfiles _ _ _) fun _ => .ok _

-- ---------------------------------------------------------------------------
-- Replies and manifests
-- ---------------------------------------------------------------------------

/-- A reply that does not break off with a request to end the program. -/
def Reply.EndsHandled (reply : Reply) : Prop :=
  ∀ failure ∈ reply.failure, failure.isHandled = true

namespace Manifest

theorem receive_handled (usage : Usage) (chunks : List Chunk) :
    Handled (receive usage chunks).2 := by
  induction chunks generalizing usage with
  | nil => exact .ok _
  | cons chunk rest ih =>
    cases chunk with
    | text text => exact (ih usage).map _
    | notText kind => exact (ih usage).map _
    | reasoning text => exact ih usage
    | other => exact ih usage
    | lacking name => exact Handled.error_iff.mpr rfl
    | usage call =>
      rcases hadd : usage.add call with ⟨usage', failure | ⟨⟩⟩
      · have hfailure : failure.isHandled = true := by
          unfold Usage.add at hadd
          split at hadd
          · cases hadd
            rfl
          · split at hadd <;> cases hadd
            rfl
        simpa [receive, hadd] using hfailure
      · simpa [receive, hadd] using ih usage'

theorem joinFrom_handled (index : Nat) (pieces : List Piece) : Handled (joinFrom index pieces) := by
  induction pieces generalizing index with
  | nil => exact .ok _
  | cons piece rest ih =>
    cases piece with
    | text text => exact (ih _).map _
    | notText kind => exact Handled.error_iff.mpr rfl

theorem absorb_handled (usage : Usage) {reply : Reply} (h : reply.EndsHandled) :
    Handled (absorb usage reply).2 := by
  refine (receive_handled usage reply.chunks).bind fun pieces => ?_
  split
  · rename_i failure hfailure
    exact Handled.error_iff.mpr (h failure hfailure)
  · exact joinFrom_handled 0 pieces

theorem writeText_handled (fs : FileSystem) (p : Path) (text : String) :
    Handled (writeText fs p text) :=
  .ite (Handled.error_iff.mpr rfl) (.mapError fun _ => rfl)

end Manifest

namespace Provider

end Provider

end TreeManifest
