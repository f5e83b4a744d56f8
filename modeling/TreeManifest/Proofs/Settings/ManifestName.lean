import TreeManifest.Proofs.FileSystem.Write
import TreeManifest.Proofs.Prompt.Rescope
import TreeManifest.Proofs.Report
import TreeManifest.Settings.Reading

/-!
# Names for manifests

A text may name the manifests if it is one part of a path that does not lead up
(`Setting.manifestNameOf_eq_ok`). Every name that settings come with is such a text
(`Settings.isBare_manifestName`), and after a directory it leads to what lies directly there
(`Path.join_of_isBare`).
-/

namespace TreeManifest

variable {name : String}

theorem Path.ofString_of_isPart (h : IsPart name) : ofString name = ⟨.here, [name]⟩ := by
  have hparts : ∀ part ∈ [name], IsPart part := List.forall_mem_singleton.mpr h
  have htext : (⟨.here, [name]⟩ : Path).toString = name := by
    rw [toString_relative hparts (List.cons_ne_nil _ _), String.intercalate_singleton]
  rw [← ofString_toString_relative hparts, htext]

theorem Path.join_of_isBare (h : IsBare name) (directory : Path) :
    directory.join (ofString name) = directory.child name := by
  rw [ofString_of_isPart h.isPart]
  rfl

theorem isBare_iff :
    IsBare name ↔ name ≠ "" ∧ '/' ∉ name.toList ∧ name ≠ "." ∧ name ≠ ".." :=
  ⟨fun h => ⟨h.isPart.ne_empty, h.isPart.slash_not_mem, h.isPart.ne_dot, h.ne_up⟩,
    fun ⟨hempty, hslash, hdot, hup⟩ => ⟨⟨hempty, hdot, hslash⟩, hup⟩⟩

/-- The check compares a text with the last part of the path that it is read as. It passes the texts
that are read as this one part. -/
theorem Setting.isBareName_iff : isBareName name = true ↔ IsBare name := by
  refine ⟨isBare_of_isBareName, fun h => ?_⟩
  have hname : (Path.ofString name).name = name := by
    rw [Path.ofString_of_isPart h.isPart]
    rfl
  simp [isBareName, hname, h.isPart.ne_empty, h.isPart.ne_dot, h.ne_up]

theorem Setting.manifestNameOf_eq_ok {value : Json} :
    manifestNameOf value = .ok name ↔ value = .str name ∧ IsBare name := by
  rw [← isBareName_iff, manifestNameOf, bind_ok]
  constructor
  · rintro ⟨text, htext, h⟩
    split at h
    · next hbare =>
      cases h
      cases value <;> cases htext
      exact ⟨rfl, hbare⟩
    · cases h
  · rintro ⟨rfl, hbare⟩
    exact ⟨name, rfl, if_pos hbare⟩

-- ---------------------------------------------------------------------------
-- Settings
-- ---------------------------------------------------------------------------

namespace Settings

variable {sources : Sources} {settings : Settings}

theorem check_eq_ok {α : Type} {setting : Setting} {default value : α}
    {read : Json → Except Complaint α} (h : check sources setting default read = .ok value) :
    value = default ∨ ∃ given, read given = .ok value := by
  unfold check at h
  split at h
  · exact .inl (Except.ok.inj h).symm
  · exact .inr ⟨_, mapError_ok.mp h⟩

theorem ofSources_manifestName (h : ofSources sources = .ok settings) :
    check sources .manifestName default.manifestName Setting.manifestNameOf =
      .ok settings.manifestName := by
  simp only [ofSources, mapError_ok, bind_ok] at h
  obtain ⟨_, -, _, -, _, -, _, -, _, -, _, -, name, hname, _, -, _, -, _, -, h⟩ := h
  rw [hname, ← Except.ok.inj h]

theorem isBare_manifestName {fs : FileSystem} {environment : Mapping String String}
    {given : List (String × Json)} (h : (read fs environment given).result = .ok settings) :
    IsBare settings.manifestName := by
  unfold read at h
  split at h
  · cases h
  · obtain hdefault | ⟨value, hvalue⟩ :=
      check_eq_ok (ofSources_manifestName (mapError_ok.mp h))
    · rw [hdefault]
      exact isBare_of_isBareName (by decide)
    · exact (Setting.manifestNameOf_eq_ok.mp hvalue).2

end Settings

end TreeManifest
