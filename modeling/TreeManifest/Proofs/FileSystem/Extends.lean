import Mathlib.Data.List.Sort
import TreeManifest.Proofs.FileSystem.Frame

/-!
# More files

A file system extends another one if the two have the same directories and links and every file of
the one is a file of the other, with whatever content (`Extends`). Then the names in a directory are
among those in the other one, in the same order (`Extends.names_sublist`).
-/

namespace TreeManifest.FileSystem

-- ---------------------------------------------------------------------------
-- Sorted names
-- ---------------------------------------------------------------------------

theorem insertName_eq (name : String) (names : List String) :
    insertName name names = names.orderedInsert (· ≤ ·) name := by
  induction names with
  | nil => rfl
  | cons other rest ih => rw [insertName, List.orderedInsert, ih]

theorem sortNames_eq (names : List String) : sortNames names = names.insertionSort (· ≤ ·) := by
  induction names with
  | nil => rfl
  | cons name rest ih =>
    rw [List.insertionSort_cons, ← ih, ← insertName_eq]
    rfl

theorem pairwise_sortNames (names : List String) : (sortNames names).Pairwise (· ≤ ·) := by
  rw [sortNames_eq]
  exact List.pairwise_insertionSort _ _

theorem sortNames_perm (names : List String) : (sortNames names).Perm names := by
  rw [sortNames_eq]
  exact List.perm_insertionSort _ _

variable {fs fs' fs'' : FileSystem} {location : Location}

theorem IsTree.nodup_names (hfs : fs.IsTree) (directory : Location) :
    (fs.names directory).Nodup := by
  rw [FileSystem.names, (sortNames_perm _).nodup_iff]
  refine List.Pairwise.filterMap _ ?_ (List.pairwise_map.mp hfs.nodup)
  rintro ⟨other, _⟩ ⟨other', _⟩ hne name hn name' hn' rfl
  exact hne ((nameBelow?_eq_some.mp hn).trans (nameBelow?_eq_some.mp hn').symm)

theorem IsTree.names_sublist (hfs : fs.IsTree) {directory : Location}
    (hsub : fs.names directory ⊆ fs'.names directory) :
    (fs.names directory).Sublist (fs'.names directory) :=
  List.sublist_of_subperm_of_pairwise (List.subperm_of_subset (hfs.nodup_names directory) hsub)
    (pairwise_sortNames _) (pairwise_sortNames _)

-- ---------------------------------------------------------------------------
-- Extensions
-- ---------------------------------------------------------------------------

/-- The directories and the links are the same, and what is a file stays one. What is added lies in
directories that may be searched. -/
structure Extends (fs fs' : FileSystem) : Prop where
  frame : fs.SameFrame fs'
  file : ∀ location octets, fs.entryAt? location = some (.file octets) →
    ∃ octets', fs'.entryAt? location = some (.file octets')
  searchable : ∀ directory name entry, fs.entryAt? (directory ++ [name]) = none →
    fs'.entryAt? (directory ++ [name]) = some entry → directory ∉ fs.unsearchable

theorem Extends.entry (h : fs.Extends fs') {entry : Entry} (he : fs.entryAt? location = some entry) :
    ∃ entry', fs'.entryAt? location = some entry' := by
  have hframe := h.frame.entry location
  cases entry with
  | file octets =>
    obtain ⟨octets', hf⟩ := h.file location octets he
    exact ⟨_, hf⟩
  | directory =>
    rw [he] at hframe
    exact ⟨_, frame_eq_directory.mp hframe.symm⟩
  | link target =>
    rw [he] at hframe
    exact ⟨_, frame_eq_link.mp hframe.symm⟩

theorem Extends.refl (fs : FileSystem) : fs.Extends fs :=
  ⟨.refl fs, fun _ octets h => ⟨octets, h⟩, fun _ _ _ hnone he => nomatch hnone.symm.trans he⟩

theorem Extends.trans (h : fs.Extends fs') (h' : fs'.Extends fs'') : fs.Extends fs'' := by
  refine ⟨h.frame.trans h'.frame, fun location octets hf => ?_,
    fun directory name entry hnone he => ?_⟩
  · obtain ⟨octets', hf'⟩ := h.file location octets hf
    exact h'.file location octets' hf'
  · rcases hmiddle : fs'.entryAt? (directory ++ [name]) with _ | entry'
    · exact h.frame.unsearchable ▸ h'.searchable directory name entry hmiddle he
    · exact h.searchable directory name entry' hnone hmiddle

theorem Extends.names_sublist (h : fs.Extends fs') (hfs : fs.IsTree) (hfs' : fs'.IsTree)
    (directory : Location) : (fs.names directory).Sublist (fs'.names directory) := by
  refine hfs.names_sublist fun name hm => ?_
  obtain ⟨entry, he⟩ := hfs.mem_names.mp hm
  exact hfs'.mem_names.mpr (h.entry he)

theorem Extends.names_unsearchable (h : fs.Extends fs') (hfs : fs.IsTree) (hfs' : fs'.IsTree)
    {directory : Location} (hs : directory ∈ fs.unsearchable) :
    fs'.names directory ⊆ fs.names directory := by
  intro name hm
  obtain ⟨entry, he⟩ := hfs'.mem_names.mp hm
  by_contra hold
  have hnone : fs.entryAt? (directory ++ [name]) = none :=
    Option.eq_none_iff_forall_ne_some.mpr fun entry' he' => hold (hfs.mem_names.mpr ⟨entry', he'⟩)
  exact h.searchable directory name entry hnone he hs

theorem Extends.isFile? (h : fs.Extends fs') (hfs : fs.IsTree) (hfs' : fs'.IsTree) {p : Path}
    (hf : fs.isFile? p = .ok true) : fs'.isFile? p = .ok true := by
  obtain ⟨hnull, location, octets, hfind⟩ := isFile?_eq_true.mp hf
  obtain ⟨octets', hentry⟩ := h.file location octets (hfs.entryAt?_of_find hfind)
  obtain ⟨entry', hfind', -⟩ := h.frame.find_ok hfind
  rw [← hfs'.entryAt?_of_find hfind', hentry] at hfind'
  exact isFile?_eq_true.mpr ⟨hnull, location, octets', hfind'⟩

theorem Extends.isFile?_cases (h : fs.Extends fs') (hfs : fs.IsTree) (hfs' : fs'.IsTree) (p : Path) :
    fs'.isFile? p = fs.isFile? p ∨ fs.isFile? p = .ok false ∧ fs'.isFile? p = .ok true := by
  rcases hf : fs.isFile? p with failure | _ | _
  · exact .inl (h.frame.isFile?_error hf)
  · rcases hf' : fs'.isFile? p with failure | _ | _
    · rw [h.frame.symm.isFile?_error hf'] at hf
      cases hf
    · exact .inl rfl
    · exact .inr ⟨rfl, rfl⟩
  · exact .inl (h.isFile? hfs hfs' hf)

theorem namesAt_eq_ok {p : Path} {listed : List String} :
    fs.namesAt p = .ok listed ↔ ∃ location, fs.find p = .ok (location, some .directory) ∧
      location ∉ fs.unreadable ∧ listed = fs.names location := by
  unfold namesAt
  rcases hf : fs.find p with e | ⟨there, _ | _ | _ | _⟩
  · simp
  · simp
  · simp
  · simp only [Except.ok.injEq, Prod.mk.injEq, and_true, exists_eq_left']
    split <;> simp_all [eq_comm]
  · simp

-- ---------------------------------------------------------------------------
-- The same files
-- ---------------------------------------------------------------------------

/-- The directories, the links and the files are the same; only contents may differ. -/
structure Alike (fs fs' : FileSystem) : Prop where
  frame : fs.SameFrame fs'
  file : ∀ location, (∃ octets, fs.entryAt? location = some (.file octets)) ↔
    ∃ octets, fs'.entryAt? location = some (.file octets)

namespace Alike

theorem symm (h : fs.Alike fs') : fs'.Alike fs :=
  ⟨h.frame.symm, fun location => (h.file location).symm⟩

theorem entry_none (h : fs.Alike fs') (hnone : fs.entryAt? location = none) :
    fs'.entryAt? location = none := by
  have hframe := h.frame.entry location
  rw [hnone] at hframe
  rcases he : fs'.entryAt? location with _ | octets | _ | target
  · rfl
  · obtain ⟨_, hf⟩ := (h.file location).mpr ⟨octets, he⟩
    cases hnone.symm.trans hf
  · rw [he] at hframe
    cases hframe
  · rw [he] at hframe
    cases hframe

theorem toExtends (h : fs.Alike fs') : fs.Extends fs' :=
  ⟨h.frame, fun location octets hf => (h.file location).mp ⟨octets, hf⟩,
    fun _ _ _ hnone he => nomatch he.symm.trans (h.entry_none hnone)⟩

theorem names_eq (h : fs.Alike fs') (hfs : fs.IsTree) (hfs' : fs'.IsTree) (directory : Location) :
    fs.names directory = fs'.names directory :=
  (h.toExtends.names_sublist hfs hfs' directory).antisymm
    (h.symm.toExtends.names_sublist hfs' hfs directory)

theorem isFile?_eq (h : fs.Alike fs') (hfs : fs.IsTree) (hfs' : fs'.IsTree) (p : Path) :
    fs.isFile? p = fs'.isFile? p := by
  rcases h.toExtends.isFile?_cases hfs hfs' p with heq | ⟨hf, hf'⟩
  · exact heq.symm
  · rcases h.symm.toExtends.isFile?_cases hfs' hfs p with heq | ⟨hf'', -⟩
    · exact heq
    · rw [hf'] at hf''
      cases hf''

theorem file_of_ne (h : fs.Alike fs') (hne : fs.entryAt? location ≠ fs'.entryAt? location) :
    ∃ octets octets', fs.entryAt? location = some (.file octets) ∧
      fs'.entryAt? location = some (.file octets') ∧ octets ≠ octets' := by
  have hframe := h.frame.entry location
  have hfile := h.file location
  rcases he : fs.entryAt? location with _ | octets | _ | target
  · rcases he' : fs'.entryAt? location with _ | octets' | _ | target' <;>
      rw [he, he'] at hframe hne hfile
    · exact absurd rfl hne
    · obtain ⟨octets, hnone⟩ := hfile.mpr ⟨octets', rfl⟩
      cases hnone
    · cases hframe
    · cases hframe
  · obtain ⟨octets', he'⟩ := hfile.mp ⟨octets, he⟩
    refine ⟨octets, octets', rfl, he', ?_⟩
    rintro rfl
    exact hne (he.trans he'.symm)
  · rw [he] at hframe hne
    exact absurd (frame_eq_directory.mp hframe.symm).symm hne
  · rw [he] at hframe hne
    exact absurd (frame_eq_link.mp hframe.symm).symm hne

theorem find_eq (h : fs.Alike fs') (hfs' : fs'.IsTree) {p : Path}
    {entry : Option Entry} (hf : fs.find p = .ok (location, entry)) :
    fs'.find p = .ok (location, fs'.entryAt? location) := by
  obtain ⟨entry', hf', -⟩ := h.frame.find_ok hf
  rw [hf', hfs'.entryAt?_of_find hf']

theorem find_congr (h : fs.Alike fs') (hfs' : fs'.IsTree) {p : Path}
    (hs : fs'.status p = fs.status p) : fs'.find p = fs.find p := by
  rcases hf : fs.find p with e | ⟨location, entry⟩
  · obtain ⟨e', hf', -⟩ := h.frame.find_error hf
    rw [status_of_find_error hf, status_of_find_error hf'] at hs
    rw [hf', Except.error.inj hs]
  · have hf' := h.find_eq hfs' hf
    rw [hf'] at ⊢
    rw [status, status, hf, hf'] at hs
    rcases hentry : fs'.entryAt? location with _ | entry' <;> rcases entry with _ | entry <;>
      rw [hentry] at hs <;> simp_all

end Alike

end TreeManifest.FileSystem
