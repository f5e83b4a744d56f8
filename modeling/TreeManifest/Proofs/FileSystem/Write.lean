import TreeManifest.Manifest
import TreeManifest.Proofs.FileSystem.Extends
import TreeManifest.Proofs.FileSystem.Plain
import TreeManifest.Settings.Value

/-!
# Writing a manifest

A manifest whose path is no link is written directly into its directory (`writeText_ok`). That
changes what one location holds (`entryAt?_put_of_ne`) and leaves a tree that extends the one before
(`IsTree.write_ok`). Manifests of one name in distinct directories do not get into each other's way
(`entryAt?_putAll_of_mem`).
-/

namespace TreeManifest

/-- What a manifest may be called: one part of a path that does not lead up. -/
structure IsBare (name : String) : Prop where
  isPart : Path.IsPart name
  ne_up : name ≠ ".."

theorem isBare_of_isBareName {name : String} (h : Setting.isBareName name = true) : IsBare name := by
  simp only [Setting.isBareName, Bool.and_eq_true, decide_eq_true_eq, ne_eq] at h
  obtain ⟨⟨⟨hempty, hname⟩, hdot⟩, hup⟩ := h
  refine ⟨?_, hup⟩
  simp only [Path.name, Path.ofString] at hname
  cases hl : (Path.partsOf name.toList).getLast? with
  | none => rw [hl] at hname; exact absurd hname.symm hempty
  | some last =>
    rw [hl, Option.getD_some] at hname
    exact hname ▸ Path.isPart_of_mem_partsOf (List.mem_of_getLast? hl)

theorem IsBare.child_parts {directory : Path} {name : String} (hname : IsBare name)
    (hparts : ∀ part ∈ directory.parts, Path.IsPart part) :
    ∀ part ∈ (directory.child name).parts, Path.IsPart part := by
  intro part hm
  rcases List.mem_append.mp hm with hm | hm
  · exact hparts part hm
  · exact List.mem_singleton.mp hm ▸ hname.isPart

namespace FileSystem

variable {fs fs' : FileSystem} {location : Location} {name : String} {octets : List UInt8}

theorem entryAt?_put (hne : location ≠ []) {entry : Entry} (other : Location) :
    (fs.put location entry).entryAt? other =
      if other = location then some entry else fs.entryAt? other := by
  by_cases h : other = location
  · subst h; simp [entryAt?_put_self hne]
  · simp [h, entryAt?_put_of_ne h]

theorem SameFrame.put_file (hne : location ≠ []) (h : Entry.frame (fs.entryAt? location) = none) :
    fs.SameFrame (fs.put location (.file octets)) := by
  refine ⟨rfl, rfl, rfl, rfl, rfl, rfl, fun other => ?_⟩
  rw [entryAt?_put hne]
  split
  · subst_vars; rw [h]; rfl
  · rfl

structure Writable (fs : FileSystem) (location : Location) : Prop where
  readable : location ∉ fs.unreadable
  writable : location ∉ fs.unwritable

theorem SameFrame.writable (h : fs.SameFrame fs') (hw : fs.Writable location) :
    fs'.Writable location :=
  ⟨h.unreadable ▸ hw.readable, h.unwritable ▸ hw.writable⟩

theorem write_eq_ok {p : Path} : fs.write p octets = .ok fs' ↔
    ∃ location entry, fs.find p = .ok (location, entry) ∧ entry ≠ some .directory ∧
      fs.Writable location ∧ fs.put location (.file octets) = fs' := by
  have hwritable (location : Location) : fs.Writable location ↔
      ¬ (location ∈ fs.unreadable ∨ location ∈ fs.unwritable) := by
    rw [not_or]
    exact ⟨fun h => ⟨h.readable, h.writable⟩, fun h => ⟨h.1, h.2⟩⟩
  simp only [write, hwritable]
  rcases fs.find p with e | ⟨location, entry⟩
  · simp
  · by_cases hw : location ∈ fs.unreadable ∨ location ∈ fs.unwritable
    · rcases entry with _ | _ | _ | target <;> simp [hw, -not_or]
    · rcases entry with _ | _ | _ | target <;> simp [hw, -not_or]

theorem writeText_eq_ok {p : Path} {text : String} : Manifest.writeText fs p text = .ok fs' ↔
    hasNull p = false ∧ fs.write p (Text.Utf8.encode text) = .ok fs' := by
  unfold Manifest.writeText
  cases hasNull p <;> rcases fs.write p (Text.Utf8.encode text) with e | written <;>
    simp [Except.mapError]

/-- Other octets in a file are read by the paths that lead to it, and by no others. -/
theorem read_put_file {old : List UInt8} (hfile : fs.entryAt? location = some (.file old))
    (new : List UInt8) (p : Path) :
    ((fs.put location (.file new)).read p).toOption = (fs.read p).toOption ∨
      fs.read p = .ok old ∧ (fs.put location (.file new)).read p = .ok new := by
  have hne : location ≠ [] := by
    rintro rfl
    simp [entryAt?] at hfile
  have hframe : fs.SameFrame (fs.put location (.file new)) :=
    SameFrame.put_file hne (by rw [hfile]; rfl)
  rcases hfind : fs.find p with e | ⟨there, entry⟩
  · obtain ⟨e', hfind', -⟩ := hframe.find_error hfind
    left
    simp [read, hfind, hfind', Except.toOption]
  · obtain ⟨entry', hfind', -⟩ := hframe.find_ok hfind
    have hentry' := find_entry hfind'
    rw [entryAt?_put hne, ← find_entry hfind] at hentry'
    by_cases hthere : there = location
    · rw [if_pos hthere] at hentry'
      have hentry := find_entry hfind
      rw [hthere, hfile] at hentry
      by_cases hu : there ∈ fs.unreadable
      · left
        simp only [read, hfind, hfind', hentry, hentry', ← hframe.unreadable, if_pos hu]
      · right
        simp only [read, hfind, hfind', hentry, hentry', ← hframe.unreadable, if_neg hu, and_self]
    · left
      rw [if_neg hthere] at hentry'
      simp only [read, hfind, hfind', hentry', ← hframe.unreadable]

theorem IsTree.put_file (hfs : fs.IsTree) (hd : fs.isDirectoryAt location = true)
    (hname : IsName name) (h : Entry.frame (fs.entryAt? (location ++ [name])) = none) :
    (fs.put (location ++ [name]) (.file octets)).IsTree := by
  have hframe : fs.SameFrame (fs.put (location ++ [name]) (.file octets)) :=
    SameFrame.put_file (by simp) h
  have hkeys : ∀ other ∈ Mapping.keys (fs.put (location ++ [name]) (.file octets)).entries,
      other = location ++ [name] ∨ other ∈ Mapping.keys fs.entries := fun other hm =>
    Mapping.mem_keys_put.mp hm
  refine ⟨Mapping.nodup_keys_put hfs.nodup, ?_, ?_, ?_⟩
  · intro other hm
    rw [← hframe.isDirectoryAt_eq]
    rcases hkeys other hm with rfl | hm
    · exact ⟨by simp, by rwa [List.dropLast_concat]⟩
    · exact hfs.below other hm
  · intro other hm part hp
    rcases hkeys other hm with rfl | hm
    · rcases List.mem_append.mp hp with hp | hp
      · exact hfs.isName (isDirectoryAt_iff.mp hd) part hp
      · exact List.mem_singleton.mp hp ▸ hname
    · exact hfs.names other hm part hp
  · rw [← hframe.isDirectoryAt_eq]
    exact hfs.working

theorem Extends.put_file (hne : location ≠ []) (h : Entry.frame (fs.entryAt? location) = none)
    (hs : fs.entryAt? location = none → location.dropLast ∉ fs.unsearchable) :
    fs.Extends (fs.put location (.file octets)) := by
  refine ⟨SameFrame.put_file hne h, fun other there hf => ?_,
    fun directory name entry hnone he => ?_⟩
  · rw [entryAt?_put hne]
    split
    · exact ⟨octets, rfl⟩
    · exact ⟨there, hf⟩
  · rw [entryAt?_put hne] at he
    split at he
    · rename_i heq
      subst heq
      simpa using hs hnone
    · cases hnone.symm.trans he

/-- A path that leads to no directory leads to a file or to nothing. -/
theorem IsTree.frame_of_find (hfs : fs.IsTree) {p : Path} {entry : Option Entry}
    (hf : fs.find p = .ok (location, entry)) (hdir : entry ≠ some .directory) :
    Entry.frame (fs.entryAt? location) = none := by
  obtain rfl := hfs.entryAt?_of_find hf
  rcases he : fs.entryAt? location with _ | octets | _ | target
  · rfl
  · rfl
  · exact absurd he hdir
  · exact absurd he (hfs.not_link_of_find hf target)

/-- A write leaves a tree with one file more, or with other octets in a file. -/
theorem IsTree.write_ok (hfs : fs.IsTree) {p : Path} (hp : ∀ part ∈ p.parts, Path.IsPart part)
    (h : fs.write p octets = .ok fs') : fs'.IsTree ∧ fs.Extends fs' := by
  obtain ⟨location, entry, hf, hdir, -, rfl⟩ := write_eq_ok.mp h
  have hparts := hfs.find_parts hp hf
  have hnone := hfs.frame_of_find hf hdir
  obtain ⟨rfl, hstop⟩ := hfs.find_ok hf
  rcases hstop with ⟨there, hthere, -⟩ | ⟨hfree, directory, last, rfl, hd, hs, -, hsought⟩
  · -- An existing file is written in its place.
    cases location using List.reverseRecOn with
    | nil => simp [entryAt?, Entry.frame] at hnone
    | append_singleton directory last =>
      have hd := hfs.isDirectoryAt_dropLast hthere
      rw [List.dropLast_concat] at hd
      exact ⟨hfs.put_file hd (hfs.isName hthere last (by simp)) hnone,
        .put_file (by simp) hnone fun hfree => by cases hthere.symm.trans hfree⟩
  · have hname : IsName last := ⟨hparts last (by simp), hsought.ne_up, hsought.size_le⟩
    exact ⟨hfs.put_file hd hname hnone, .put_file (by simp) hnone fun _ => by simpa using hs⟩

/-- What a file holds can be written to it again where it has been written before. -/
theorem IsTree.write_read (hfs' : fs'.IsTree) (hframe : fs.SameFrame fs') {p : Path}
    {before : List UInt8} {after : FileSystem} (hwrite : fs.write p before = .ok after)
    (hread : fs'.read p = .ok octets) : fs'.write p octets = .ok fs' := by
  obtain ⟨location, entry, hf, -, hw, -⟩ := write_eq_ok.mp hwrite
  obtain ⟨entry', hf', -⟩ := hframe.find_ok hf
  obtain ⟨there, hfile, -⟩ := read_eq_ok.mp hread
  cases hf'.symm.trans hfile
  have hentry := hfs'.entryAt?_of_find hf'
  have hne : location ≠ [] := by
    rintro rfl
    cases hentry
  rw [entryAt?, if_neg hne] at hentry
  refine write_eq_ok.mpr ⟨location, _, hf', by simp, hframe.writable hw, ?_⟩
  rw [put, Mapping.put_eq_self hentry]

theorem writeText_tree (hfs : fs.IsTree) {p : Path} {text : String}
    (hp : ∀ part ∈ p.parts, Path.IsPart part) (h : Manifest.writeText fs p text = .ok fs') :
    fs'.IsTree ∧ fs.Extends fs' :=
  hfs.write_ok hp (writeText_eq_ok.mp h).2

/-- A text that has been written is read back, and no other place has changed. -/
theorem writeText_read (hfs : fs.IsTree) {p : Path} {text : String}
    (hp : ∀ part ∈ p.parts, Path.IsPart part) (h : Manifest.writeText fs p text = .ok fs') :
    fs'.read p = .ok (Text.Utf8.encode text) ∧ ∃ location entry, fs.find p = .ok (location, entry) ∧
      ∀ other, other ≠ location → fs'.entryAt? other = fs.entryAt? other := by
  obtain ⟨hfs', hextends⟩ := writeText_tree hfs hp h
  have hframe := hextends.frame
  obtain ⟨location, entry, hf, hd, hw, rfl⟩ := write_eq_ok.mp (writeText_eq_ok.mp h).2
  obtain ⟨entry', hf', -⟩ := hframe.find_ok hf
  have hentry := hfs'.entryAt?_of_find hf'
  have hne : location ≠ [] := by
    rintro rfl
    exact hd (hfs.entryAt?_of_find hf).symm
  rw [entryAt?_put_self hne] at hentry
  subst hentry
  exact ⟨read_eq_ok.mpr ⟨location, hf', (hframe.writable hw).readable⟩, location, entry, hf,
    fun other ho => entryAt?_put_of_ne ho⟩

/-- File systems with the same files, whose contents differ at most where those of other ones do. -/
structure Nearer (fs fs' after after' : FileSystem) : Prop where
  alike : after.Alike after'
  entry : ∀ location, after.entryAt? location ≠ after'.entryAt? location →
    fs.entryAt? location ≠ fs'.entryAt? location

theorem alike_put (hne : location ≠ []) (h : Entry.frame (fs.entryAt? location) = none)
    (octets octets' : List UInt8) :
    (fs.put location (.file octets)).Alike (fs.put location (.file octets')) := by
  refine ⟨(SameFrame.put_file hne h).symm.trans (SameFrame.put_file hne h), fun other => ?_⟩
  rw [entryAt?_put hne, entryAt?_put hne]
  split <;> simp

theorem nearer_put (h : fs.Alike fs') (hne : location ≠ [])
    (hnone : Entry.frame (fs.entryAt? location) = none) :
    fs.Nearer fs' (fs.put location (.file octets)) (fs'.put location (.file octets)) := by
  have hnone' : Entry.frame (fs'.entryAt? location) = none := h.frame.entry location ▸ hnone
  refine ⟨⟨(SameFrame.put_file hne hnone).symm.trans
    (h.frame.trans (SameFrame.put_file hne hnone')), fun other => ?_⟩, fun other hdiffer => ?_⟩
  · rw [entryAt?_put hne, entryAt?_put hne]
    split
    · exact Iff.rfl
    · exact h.file other
  · rw [entryAt?_put hne, entryAt?_put hne] at hdiffer
    split at hdiffer
    · exact absurd rfl hdiffer
    · exact hdiffer

theorem write_alike (h : fs.Alike fs') (hfs : fs.IsTree) (hfs' : fs'.IsTree) {p : Path}
    {after : FileSystem} (hw : fs.write p octets = .ok after) :
    ∃ after', fs'.write p octets = .ok after' ∧ fs.Nearer fs' after after' := by
  obtain ⟨location, entry, hf, hdir, hwritable, rfl⟩ := write_eq_ok.mp hw
  have hnone := hfs.frame_of_find hf hdir
  obtain rfl := hfs.entryAt?_of_find hf
  have hframe := h.frame.entry location
  have hdir' : fs'.entryAt? location ≠ some .directory := fun hd => by
    rw [hd] at hframe
    exact hdir (frame_eq_directory.mp hframe)
  have hne : location ≠ [] := by
    rintro rfl
    exact hdir rfl
  exact ⟨_, write_eq_ok.mpr ⟨location, _, h.find_eq hfs' hf, hdir', h.frame.writable hwritable, rfl⟩,
    nearer_put h hne hnone⟩

theorem writeText_alike (h : fs.Alike fs') (hfs : fs.IsTree) (hfs' : fs'.IsTree) (p : Path)
    (text : String) :
    (∃ after after', Manifest.writeText fs p text = .ok after ∧
        Manifest.writeText fs' p text = .ok after' ∧ fs.Nearer fs' after after') ∨
      ∃ failure failure', Manifest.writeText fs p text = .error failure ∧
        Manifest.writeText fs' p text = .error failure' := by
  rcases hw : Manifest.writeText fs p text with failure | after
  · rcases hw' : Manifest.writeText fs' p text with failure' | after'
    · exact .inr ⟨failure, failure', rfl, rfl⟩
    · obtain ⟨hnull, hok⟩ := writeText_eq_ok.mp hw'
      obtain ⟨_, hother, -⟩ := write_alike h.symm hfs' hfs hok
      cases hw.symm.trans (writeText_eq_ok.mpr ⟨hnull, hother⟩)
  · obtain ⟨hnull, hok⟩ := writeText_eq_ok.mp hw
    obtain ⟨after', hother, hnearer⟩ := write_alike h hfs hfs' hok
    exact .inl ⟨after, after', rfl, writeText_eq_ok.mpr ⟨hnull, hother⟩, hnearer⟩

theorem not_link_of_isLink (hfs : fs.IsTree) {directory : Path}
    (hd : fs.find directory = .ok (location, some .directory)) (hs : location ∉ fs.unsearchable)
    (hname : IsSought name) (hlink : fs.isLink (directory.child name) = false) (target : String) :
    fs.entryAt? (location ++ [name]) ≠ some (.link target) := by
  intro hentry
  rw [(hfs.isLink_child_iff hd hs hname).mpr ⟨target, hentry⟩] at hlink
  cases hlink

/-- What a path with a name below it leads to depends on the frame and on one entry. -/
theorem find_child_eq (hfs : fs.IsTree) (hfs' : fs'.IsTree) (hframe : fs.SameFrame fs')
    {directory : Path} (hd : fs.find directory = .ok (location, some .directory))
    (hname : IsBare name) (hlink : fs.isLink (directory.child name) = false)
    (hentry : fs'.entryAt? (location ++ [name]) = fs.entryAt? (location ++ [name])) :
    fs'.find (directory.child name) = fs.find (directory.child name) := by
  have hd' := hframe.find_directory hd
  have hne := hname.isPart.ne_empty
  by_cases hs : location ∈ fs.unsearchable
  · rw [hfs.find_child_denied hd hs hne, hfs'.find_child_denied hd' (hframe.unsearchable ▸ hs) hne]
  have hs' := hframe.unsearchable ▸ hs
  rcases Nat.lt_or_ge maxNameSize name.utf8ByteSize with hsize | hsize
  · rw [hfs.find_child_long hd hs hname.isPart.ne_dot hname.ne_up hsize,
      hfs'.find_child_long hd' hs' hname.isPart.ne_dot hname.ne_up hsize]
  · have hsought : IsSought name := ⟨hne, hname.isPart.ne_dot, hname.ne_up, hsize⟩
    have hnot := not_link_of_isLink hfs hd hs hsought hlink
    rw [hfs.find_child hd hs hsought hnot, hfs'.find_child hd' hs' hsought (hentry ▸ hnot), hentry]

/-- Where a manifest goes: into its directory, under its name, in the place of nothing or of a
file. -/
structure Target (fs : FileSystem) (directory : Path) (name : String) (location : Location) :
    Prop where
  find : fs.find directory = .ok (location, some .directory)
  searchable : location ∉ fs.unsearchable
  isName : IsName name
  writable : fs.Writable (location ++ [name])
  frame : Entry.frame (fs.entryAt? (location ++ [name])) = none

theorem writeText_ok (hfs : fs.IsTree) {directory : Path} {text : String} (hname : IsBare name)
    (hlink : fs.isLink (directory.child name) = false)
    (h : Manifest.writeText fs (directory.child name) text = .ok fs') :
    ∃ location, fs.Target directory name location ∧
      fs' = fs.put (location ++ [name]) (.file (Text.Utf8.encode text)) := by
  obtain ⟨there, entry, hf, hdir, hw, rfl⟩ := write_eq_ok.mp (writeText_eq_ok.mp h).2
  obtain ⟨location, hd, hs, heq, hsought⟩ := hfs.find_child_ok hname.isPart.ne_empty
    hname.isPart.ne_dot hname.ne_up hlink hf
  obtain ⟨rfl, rfl⟩ := Prod.mk.injEq .. ▸ heq
  exact ⟨location, ⟨hd, hs, ⟨hname.isPart, hname.ne_up, hsought.size_le⟩, hw,
    hfs.frame_of_find hf hdir⟩, rfl⟩

theorem Target.find_child (hfs : fs.IsTree) {directory : Path}
    (h : fs.Target directory name location) :
    fs.find (directory.child name) = .ok (location ++ [name], fs.entryAt? (location ++ [name])) := by
  refine hfs.find_child h.find h.searchable h.isName.isSought ?_
  intro target hl
  have hframe := h.frame
  rw [hl] at hframe
  cases hframe

theorem Target.of_frame {directory : Path} (h : fs.Target directory name location)
    (hframe : fs.SameFrame fs') : fs'.Target directory name location :=
  ⟨hframe.find_directory h.find, hframe.unsearchable ▸ h.searchable, h.isName,
    hframe.writable h.writable, by rw [← hframe.entry]; exact h.frame⟩

theorem Target.put (hfs : fs.IsTree) {directory : Path} (h : fs.Target directory name location) :
    (fs.put (location ++ [name]) (.file octets)).IsTree ∧
      fs.Extends (fs.put (location ++ [name]) (.file octets)) :=
  ⟨hfs.put_file (hfs.isDirectoryAt_of_find h.find) h.isName h.frame,
    .put_file (by simp) h.frame fun _ => by simpa using h.searchable⟩

def putAll (name : String) (fs : FileSystem) (texts : List (Location × String)) : FileSystem :=
  texts.foldl (fun fs (location, text) =>
    fs.put (location ++ [name]) (.file (Text.Utf8.encode text))) fs

variable {texts : List (Location × String)}

theorem entryAt?_putAll_of_not_mem {other : Location}
    (h : ∀ directory ∈ texts.map (·.1), other ≠ directory ++ [name]) :
    (putAll name fs texts).entryAt? other = fs.entryAt? other := by
  induction texts generalizing fs with
  | nil => rfl
  | cons first rest ih =>
    obtain ⟨directory, text⟩ := first
    simp only [List.map_cons, List.forall_mem_cons] at h
    exact (ih h.2).trans (entryAt?_put_of_ne h.1)

theorem entryAt?_putAll_of_mem (hn : (texts.map (·.1)).Nodup) {directory : Location} {text : String}
    (h : (directory, text) ∈ texts) :
    (putAll name fs texts).entryAt? (directory ++ [name]) =
      some (.file (Text.Utf8.encode text)) := by
  induction texts generalizing fs with
  | nil => simp at h
  | cons first rest ih =>
    simp only [List.map_cons, List.nodup_cons] at hn
    rcases List.mem_cons.mp h with rfl | hm
    · have hlater : ∀ other ∈ rest.map (·.1), directory ++ [name] ≠ other ++ [name] := by
        intro other ho heq
        exact hn.1 (List.append_cancel_right heq ▸ ho)
      rw [putAll, List.foldl_cons, ← putAll, entryAt?_putAll_of_not_mem hlater]
      exact entryAt?_put_self (by simp)
    · exact ih hn.2 hm

end FileSystem

end TreeManifest
