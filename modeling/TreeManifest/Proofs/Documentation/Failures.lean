import TreeManifest.Proofs.Documentation.Course
import TreeManifest.Proofs.Handled

/-!
# How a run fails

A run that follows a walk and the grammars at hand fails only with failures that are handled, as long
as its client does not ask for the end of the program (`run_handled`).
-/

namespace TreeManifest.Documentation

variable {σ α β : Type} {client : Client σ} {plan : Plan}

def FailsHandled (x : Run σ α) : Prop := ∀ s, Handled (x.run s).1

namespace FailsHandled

theorem bind {x : Run σ α} {f : α → Run σ β} (h : FailsHandled x)
    (hf : ∀ value, FailsHandled (f value)) : FailsHandled (x >>= f) := by
  intro s
  have hx := h s
  rw [Run.run_bind]
  generalize x.run s = r at hx ⊢
  obtain ⟨failure | value, s₁⟩ := r
  · exact Handled.error_iff.mpr (Handled.error_iff.mp hx)
  · exact hf value s₁

theorem of_ok {x : Run σ α} (h : ∀ s, ∃ value, (x.run s).1 = .ok value) : FailsHandled x := by
  intro s
  obtain ⟨value, hvalue⟩ := h s
  simp [hvalue]

theorem pure (value : α) : FailsHandled (Pure.pure value : Run σ α) := of_ok fun _ => ⟨_, rfl⟩

theorem get : FailsHandled (MonadState.get : Run σ (Session σ)) := of_ok fun s => ⟨s, rfl⟩

theorem changed (f : Session σ → Session σ) : FailsHandled (modify f : Run σ PUnit) :=
  of_ok fun _ => ⟨(), rfl⟩

theorem log (event : Event) : FailsHandled (Run.log event : Run σ Unit) := of_ok fun _ => ⟨(), rfl⟩

theorem look {step : FileSystem → Report α} (h : ∀ fs, Handled (step fs).result) :
    FailsHandled (Run.look step : Run σ α) := by
  intro s
  rw [Run.run_look]
  exact h s.fs

theorem extract {grammars : Source.Grammars} {limit : Int}
    (hextractor : plan.extractor = .parsing grammars limit) (directory : Path) :
    FailsHandled (Documentation.extract plan directory : Run σ Json) := by
  refine get.bind fun s => (look fun fs => ?_).bind fun _ => (changed _).bind fun _ => pure _
  rw [hextractor]
  exact Report.result_handled_bind (Source.extract_handled _ _ _ _ _) fun _ => .ok _

theorem document (hclient : ∀ request state, (client request state).1.EndsHandled)
    (directory : Path) (request : Request) :
    FailsHandled (Documentation.document plan client directory request) := by
  intro s
  have habsorb := Manifest.absorb_handled s.usage.recordCall (hclient request s.client)
  rcases ha : (Manifest.absorb s.usage.recordCall (client request s.client).1).2 with failure | text
  · rw [document_unanswered ha]
    exact Handled.error_iff.mpr (habsorb failure ha)
  have hwrites := Manifest.writeText_handled s.fs (directory.child plan.manifestName) text
  rcases hw : Manifest.writeText s.fs (directory.child plan.manifestName) text with failure | fs
  · rw [document_unwritten ha hw]
    exact Handled.error_iff.mpr (hwrites failure hw)
  · rw [document_ok (Run.generateManifest_ok ha hw)]
    exact .ok _

theorem documentDirectories {grammars : Source.Grammars} {limit : Int}
    (hextractor : plan.extractor = .parsing grammars limit)
    (hclient : ∀ request state, (client request state).1.EndsHandled)
    (analysis : Mapping String String) (root : Path) (directories : List Path) :
    FailsHandled (Documentation.documentDirectories plan client analysis root directories) := by
  induction directories with
  | nil => exact pure ()
  | cons directory rest ih =>
    have hdirectory : FailsHandled (documentDirectory plan client analysis root directory) :=
      (changed _).bind fun _ => (extract hextractor directory).bind fun _ =>
        document hclient directory _
    exact hdirectory.bind fun _ => ih

theorem logged {x : Run σ Unit} (h : FailsHandled x) : FailsHandled (Documentation.logged x) := by
  intro s
  have hx := h s
  generalize hr : x.run s = r at hx
  obtain ⟨failure | ⟨⟩, s₁⟩ := r
  · rw [logged_error hr]
    exact hx
  · rw [logged_ok hr]
    exact hx

end FailsHandled

end TreeManifest.Documentation
