import TreeManifest.Proofs.Documentation.Steps
import TreeManifest.Proofs.FirstLevel
import TreeManifest.Proofs.FileSystem.Extends
import TreeManifest.Proofs.FileSystem.Write

/-!
# What the steps of a run leave

Each step puts one file into its directory, which holds the text of the reply to the request of the
step (`Step.effect`). So steps leave a tree that extends the one before and differs from it in the
manifests of their directories alone (`Steps.effect`).
-/

namespace TreeManifest.Documentation

open FileSystem (Target putAll)

variable {σ : Type} {plan : Plan} {client : Client σ} {s s' : Session σ} {turn : Turn}
  {turns : List Turn}

theorem Steps.requests (h : Steps plan client turns s s') :
    s'.requests = s.requests ++ turns.map (·.request) := by
  induction h with
  | nil => simp
  | cons hstep _ ih => rw [ih, hstep.requests, List.map_cons, List.append_assoc]; rfl

theorem Steps.manifests (h : Steps plan client turns s s') :
    s'.manifests = s.manifests ++
      turns.map fun turn => (turn.directory.child plan.manifestName).toString := by
  induction h with
  | nil => simp
  | cons hstep _ ih => rw [ih, hstep.manifests, List.map_cons, List.append_assoc]; rfl

theorem Steps.notes (h : Steps plan client turns s s') : OnlyNotes plan client s s' := by
  induction h with
  | nil => exact .refl _
  | cons hstep _ ih => exact hstep.notes.trans ih

theorem Step.tree (h : Step plan client turn s s') (hfs : s.fs.IsTree)
    (hname : IsBare plan.manifestName) (hparts : ∀ part ∈ turn.directory.parts, Path.IsPart part) :
    s'.fs.IsTree ∧ s.fs.Extends s'.fs := by
  obtain ⟨usage, -, hwrite⟩ := h.written
  exact FileSystem.writeText_tree hfs (hname.child_parts hparts) hwrite

theorem Step.effect (h : Step plan client turn s s') (hfs : s.fs.IsTree)
    (hname : IsBare plan.manifestName)
    (hlink : s.fs.isLink (turn.directory.child plan.manifestName) = false) :
    ∃ location, s.fs.Target turn.directory plan.manifestName location ∧
      s'.fs = s.fs.put (location ++ [plan.manifestName])
        (.file (Text.Utf8.encode (client turn.request s.client).1.text)) := by
  obtain ⟨usage, -, hwrite⟩ := h.written
  exact FileSystem.writeText_ok hfs hname hlink hwrite

def textsOf (client : Client σ) (state : σ) (turns : List Turn) : List String :=
  (client.replies state (turns.map (·.request))).map Reply.text

theorem length_textsOf (client : Client σ) (state : σ) (turns : List Turn) :
    (textsOf client state turns).length = turns.length := by
  simp [textsOf, Client.length_replies]

/-- The file system that steps leave, with the locations of the directories they were about. -/
structure Effect (plan : Plan) (client : Client σ) (turns : List Turn) (locations : List Location)
    (s s' : Session σ) : Prop where
  targets : List.Forall₂
    (fun turn location => s.fs.Target turn.directory plan.manifestName location) turns locations
  fs : s'.fs = putAll plan.manifestName s.fs (locations.zip (textsOf client s.client turns))
  isTree : s'.fs.IsTree
  grown : s.fs.Extends s'.fs

theorem Steps.effect (h : Steps plan client turns s s') (hfs : s.fs.IsTree)
    (hname : IsBare plan.manifestName)
    (hlink : ∀ turn ∈ turns, s.fs.isLink (turn.directory.child plan.manifestName) = false) :
    ∃ locations, Effect plan client turns locations s s' := by
  induction h with
  | nil => exact ⟨[], .nil, rfl, hfs, .refl _⟩
  | @cons turn turns s₀ s₁ s₂ hstep _ ih =>
    obtain ⟨location, htarget, hput⟩ := hstep.effect hfs hname (hlink turn List.mem_cons_self)
    have hafter : s₁.fs.IsTree ∧ s₀.fs.Extends s₁.fs := hput ▸ htarget.put hfs
    obtain ⟨htree, hgrown⟩ := hafter
    obtain ⟨locations, heffect⟩ := ih htree fun other hm =>
      hgrown.frame.isLink_eq _ ▸ hlink other (List.mem_cons_of_mem turn hm)
    refine ⟨location :: locations, .cons htarget ?_, ?_, heffect.isTree, hgrown.trans heffect.grown⟩
    · exact heffect.targets.imp fun _ _ ht => ht.of_frame hgrown.frame.symm
    · rw [heffect.fs, hput, hstep.state]
      rfl

variable {locations : List Location}

theorem Effect.unchanged (h : Effect plan client turns locations s s') {location : Location}
    (hl : ∀ directory ∈ locations, location ≠ directory ++ [plan.manifestName]) :
    s'.fs.entryAt? location = s.fs.entryAt? location := by
  rw [h.fs]
  refine FileSystem.entryAt?_putAll_of_not_mem fun directory hm => hl directory ?_
  obtain ⟨⟨_, text⟩, hzip, rfl⟩ := List.mem_map.mp hm
  exact (List.of_mem_zip hzip).1

theorem Effect.read (h : Effect plan client turns locations s s') (hn : locations.Nodup) :
    List.Forall₂ (fun turn reply =>
      s'.fs.read (turn.directory.child plan.manifestName) = .ok (Text.Utf8.encode reply.text))
      turns (client.replies s.client (turns.map (·.request))) := by
  suffices h : List.Forall₂ (fun turn text =>
      s'.fs.read (turn.directory.child plan.manifestName) = .ok (Text.Utf8.encode text))
      turns (textsOf client s.client turns) by
    rwa [textsOf, List.forall₂_map_right_iff] at h
  have hlength := length_textsOf client s.client turns
  have htargets := h.targets.length_eq
  rw [List.forall₂_iff_get]
  refine ⟨hlength.symm, fun k hk hk' => ?_⟩
  have htarget := ((List.forall₂_iff_get.mp h.targets).2 k hk (htargets ▸ hk)).of_frame h.grown.frame
  have hentry : s'.fs.entryAt? (locations.get ⟨k, htargets ▸ hk⟩ ++ [plan.manifestName]) =
      some (.file (Text.Utf8.encode ((textsOf client s.client turns).get ⟨k, hk'⟩))) := by
    rw [h.fs]
    refine FileSystem.entryAt?_putAll_of_mem ?_ ?_
    · rw [List.map_fst_zip (by omega)]
      exact hn
    · have hzip : k < (locations.zip (textsOf client s.client turns)).length := by
        rw [List.length_zip]
        omega
      simpa using List.getElem_mem hzip
  have hfind := htarget.find_child h.isTree
  rw [hentry] at hfind
  exact FileSystem.read_eq_ok.mpr ⟨_, hfind, htarget.writable.readable⟩

end TreeManifest.Documentation
