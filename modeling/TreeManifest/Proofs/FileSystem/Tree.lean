import Mathlib.Data.List.Induction
import Mathlib.Data.List.Nodup
import TreeManifest.FileSystem.Access
import TreeManifest.Proofs.Path.Written

/-!
# Trees

What every file system on a machine satisfies and the type of file systems does not say: each
location is told once, by names that a directory can hold, and lies in a directory
(`FileSystem.IsTree`). In a tree everything above an existing location is a directory
(`IsTree.isDirectoryAt_of_front`), so there are no more levels than entries
(`IsTree.length_le`).
-/

namespace TreeManifest

namespace Mapping

variable {κ : Type u} {α : Type v} [DecidableEq κ]

theorem mem_of_get? {key : κ} {value : α} {m : Mapping κ α} (h : get? key m = some value) :
    (key, value) ∈ m := by
  induction m with
  | nil => simp [get?] at h
  | cons binding rest ih =>
    obtain ⟨k, v⟩ := binding
    by_cases hk : k = key
    · simp_all [get?]
    · exact List.mem_cons_of_mem _ (ih (by simpa [get?, hk] using h))

theorem get?_of_mem {key : κ} {value : α} {m : Mapping κ α} (hn : (keys m).Nodup)
    (h : (key, value) ∈ m) : get? key m = some value := by
  induction m with
  | nil => simp at h
  | cons binding rest ih =>
    obtain ⟨k, v⟩ := binding
    simp only [keys, List.map_cons, List.nodup_cons] at hn
    rcases List.mem_cons.mp h with heq | hr
    · cases heq; simp [get?]
    · have hk : k ≠ key := fun he => hn.1 (List.mem_map.mpr ⟨_, hr, he.symm⟩)
      simpa [get?, hk] using ih hn.2 hr

theorem put_eq_self {key : κ} {value : α} {m : Mapping κ α} (h : get? key m = some value) :
    put key value m = m := by
  induction m with
  | nil => simp [get?] at h
  | cons binding rest ih =>
    obtain ⟨k, v⟩ := binding
    by_cases hk : k = key
    · simp_all [get?, put]
    · simpa [put, hk] using ih (by simpa [get?, hk] using h)

theorem mem_keys_put {key other : κ} {value : α} {m : Mapping κ α} :
    other ∈ keys (put key value m) ↔ other = key ∨ other ∈ keys m := by
  by_cases hm : key ∈ keys m
  · rw [keys_put_of_mem hm]
    exact ⟨Or.inr, fun h => h.elim (fun he => he ▸ hm) id⟩
  · rw [keys_put_of_not_mem hm, List.mem_append, List.mem_singleton, or_comm]

end Mapping

structure IsName (name : String) : Prop where
  isPart : Path.IsPart name
  ne_up : name ≠ ".."
  size_le : name.utf8ByteSize ≤ FileSystem.maxNameSize

instance (name : String) : Decidable (IsName name) :=
  decidable_of_iff
    ((name ≠ "" ∧ name ≠ "." ∧ '/' ∉ name.toList) ∧ name ≠ ".." ∧
      name.utf8ByteSize ≤ FileSystem.maxNameSize)
    ⟨fun ⟨⟨h₁, h₂, h₃⟩, h₄, h₅⟩ => ⟨⟨h₁, h₂, h₃⟩, h₄, h₅⟩,
      fun ⟨⟨h₁, h₂, h₃⟩, h₄, h₅⟩ => ⟨⟨h₁, h₂, h₃⟩, h₄, h₅⟩⟩

namespace FileSystem

/-- What a file system on a machine satisfies. -/
structure IsTree (fs : FileSystem) : Prop where
  nodup : (Mapping.keys fs.entries).Nodup
  below : ∀ location ∈ Mapping.keys fs.entries,
    location ≠ [] ∧ fs.isDirectoryAt location.dropLast = true
  names : ∀ location ∈ Mapping.keys fs.entries, ∀ name ∈ location, IsName name
  working : fs.isDirectoryAt fs.working = true

instance (fs : FileSystem) : Decidable fs.IsTree :=
  decidable_of_iff
    ((Mapping.keys fs.entries).Nodup ∧
      (∀ location ∈ Mapping.keys fs.entries,
        location ≠ [] ∧ fs.isDirectoryAt location.dropLast = true) ∧
      (∀ location ∈ Mapping.keys fs.entries, ∀ name ∈ location, IsName name) ∧
      fs.isDirectoryAt fs.working = true)
    ⟨fun ⟨h₁, h₂, h₃, h₄⟩ => ⟨h₁, h₂, h₃, h₄⟩, fun ⟨h₁, h₂, h₃, h₄⟩ => ⟨h₁, h₂, h₃, h₄⟩⟩

variable {fs : FileSystem} {location : Location}

theorem isDirectoryAt_iff :
    fs.isDirectoryAt location = true ↔ fs.entryAt? location = some .directory := by
  simp [isDirectoryAt]

@[simp] theorem isDirectoryAt_top : fs.isDirectoryAt [] = true := by
  simp [isDirectoryAt, entryAt?]

theorem mem_keys_of_entryAt? {entry : Entry} (h : fs.entryAt? location = some entry)
    (hne : location ≠ []) : location ∈ Mapping.keys fs.entries := by
  rw [entryAt?, if_neg hne] at h
  exact List.mem_map.mpr ⟨_, Mapping.mem_of_get? h, rfl⟩

theorem IsTree.entryAt?_of_mem (hfs : fs.IsTree) {entry : Entry}
    (h : (location, entry) ∈ fs.entries) : fs.entryAt? location = some entry := by
  have hne := (hfs.below location (List.mem_map.mpr ⟨_, h, rfl⟩)).1
  rw [entryAt?, if_neg hne]
  exact Mapping.get?_of_mem hfs.nodup h

theorem IsTree.isName (hfs : fs.IsTree) {entry : Entry} (h : fs.entryAt? location = some entry) :
    ∀ name ∈ location, IsName name := by
  intro name hn
  exact hfs.names location (mem_keys_of_entryAt? h (List.ne_nil_of_mem hn)) name hn

theorem IsTree.isDirectoryAt_dropLast (hfs : fs.IsTree) {entry : Entry}
    (h : fs.entryAt? location = some entry) : fs.isDirectoryAt location.dropLast = true := by
  by_cases hne : location = []
  · subst hne; exact isDirectoryAt_top
  · exact (hfs.below location (mem_keys_of_entryAt? h hne)).2

theorem IsTree.isDirectoryAt_of_front (hfs : fs.IsTree) {entry : Entry} {rest : List String}
    (h : fs.entryAt? (location ++ rest) = some entry) (hne : rest ≠ []) :
    fs.isDirectoryAt location = true := by
  induction rest using List.reverseRecOn generalizing entry with
  | nil => exact absurd rfl hne
  | append_singleton front name ih =>
    rw [← List.append_assoc] at h
    have hd := hfs.isDirectoryAt_dropLast h
    rw [List.dropLast_concat] at hd
    cases front with
    | nil => simpa using hd
    | cons first front => exact ih (isDirectoryAt_iff.mp hd) (by simp)

theorem IsTree.isDirectoryAt_of_append (hfs : fs.IsTree) {rest : List String}
    (h : fs.isDirectoryAt (location ++ rest) = true) : fs.isDirectoryAt location = true := by
  by_cases hne : rest = []
  · simpa [hne] using h
  · exact hfs.isDirectoryAt_of_front (isDirectoryAt_iff.mp h) hne

/-- A location is no longer than there are entries: each of its names ends another one. -/
theorem IsTree.length_le (hfs : fs.IsTree) {entry : Entry}
    (h : fs.entryAt? location = some entry) : location.length ≤ fs.entries.length := by
  let above := (List.range location.length).map fun k => location.take (k + 1)
  have hnodup : above.Nodup := by
    refine List.Nodup.map_on ?_ List.nodup_range
    intro i hi j hj heq
    have hlen := congrArg List.length heq
    simp only [List.length_take, List.mem_range] at hlen hi hj
    omega
  have hsub : above ⊆ Mapping.keys fs.entries := by
    intro other ho
    obtain ⟨k, hk, rfl⟩ := List.mem_map.mp ho
    have hk := List.mem_range.mp hk
    have hne : location.take (k + 1) ≠ [] := by
      simpa using List.ne_nil_of_length_pos (by omega)
    by_cases hl : location.drop (k + 1) = []
    · rw [List.take_of_length_le (by simpa using hl)]
      exact mem_keys_of_entryAt? h (List.ne_nil_of_length_pos (by omega))
    · have hsplit : fs.entryAt? (location.take (k + 1) ++ location.drop (k + 1)) = some entry := by
        rwa [List.take_append_drop]
      exact mem_keys_of_entryAt?
        (isDirectoryAt_iff.mp (hfs.isDirectoryAt_of_front hsplit hl)) hne
  simpa [above, Mapping.keys] using hnodup.length_le_of_subset hsub

-- ---------------------------------------------------------------------------
-- Names in a directory
-- ---------------------------------------------------------------------------

theorem nameBelow?_eq_some {directory location : Location} {name : String} :
    nameBelow? directory location = some name ↔ location = directory ++ [name] := by
  unfold nameBelow?
  cases location using List.reverseRecOn with
  | nil => simp
  | append_singleton front last =>
    rw [List.getLast?_concat, List.dropLast_concat]
    simp only
    constructor
    · intro h
      split at h
      · rename_i hfront
        rw [hfront, Option.some.inj h]
      · cases h
    · intro h
      obtain ⟨rfl, hlast⟩ := List.append_inj' h rfl
      rw [if_pos rfl, (List.cons.inj hlast).1]

theorem IsTree.mem_names (hfs : fs.IsTree) {directory : Location} {name : String} :
    name ∈ fs.names directory ↔ ∃ entry, fs.entryAt? (directory ++ [name]) = some entry := by
  rw [FileSystem.names, mem_sortNames, List.mem_filterMap]
  constructor
  · rintro ⟨⟨location, entry⟩, hm, hname⟩
    rw [nameBelow?_eq_some] at hname
    subst hname
    exact ⟨entry, hfs.entryAt?_of_mem hm⟩
  · rintro ⟨entry, he⟩
    obtain ⟨⟨location, entry'⟩, hm, rfl⟩ := List.mem_map.mp (mem_keys_of_entryAt? he (by simp))
    exact ⟨_, hm, nameBelow?_eq_some.mpr rfl⟩

end FileSystem

end TreeManifest
