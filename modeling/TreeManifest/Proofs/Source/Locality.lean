import TreeManifest.Proofs.FileSystem.Write
import TreeManifest.Proofs.Source.Extraction

/-!
# Definitions depend on one directory

The definitions in a directory are made of what lies directly in it. So two trees of one frame that
have the same entries in a directory, none of which is a link, have the same definitions there
(`extract_local`), whatever files differ elsewhere.
-/

namespace TreeManifest

namespace FileSystem

/-- Two trees of one frame that hold the same directly in a directory, and no link there. -/
structure AgreeIn (fs fs' : FileSystem) (directory : Location) : Prop where
  frame : fs.SameFrame fs'
  entry : ∀ name, fs'.entryAt? (directory ++ [name]) = fs.entryAt? (directory ++ [name])
  linkless : ∀ name target, fs.entryAt? (directory ++ [name]) ≠ some (.link target)

variable {fs fs' : FileSystem} {directory location : Location} {name : String} {p : Path}

theorem AgreeIn.refl (h : ∀ name target, fs.entryAt? (directory ++ [name]) ≠ some (.link target)) :
    fs.AgreeIn fs directory :=
  ⟨.refl fs, fun _ => rfl, h⟩

theorem AgreeIn.put (h : fs.AgreeIn fs' directory) (hne : location ≠ directory)
    (hframe : Entry.frame (fs'.entryAt? (location ++ [name])) = none) (octets : List UInt8) :
    fs.AgreeIn (fs'.put (location ++ [name]) (.file octets)) directory := by
  refine ⟨h.frame.trans (SameFrame.put_file (by simp) hframe), fun other => ?_, h.linkless⟩
  have hother : directory ++ [other] ≠ location ++ [name] := fun heq =>
    hne (List.append_inj_left' heq rfl).symm
  rw [entryAt?_put_of_ne hother, h.entry]

theorem AgreeIn.names_eq (h : fs.AgreeIn fs' directory) (hfs : fs.IsTree) (hfs' : fs'.IsTree) :
    fs.names directory = fs'.names directory := by
  have hmem : ∀ name, name ∈ fs.names directory ↔ name ∈ fs'.names directory := by
    intro name
    rw [hfs.mem_names, hfs'.mem_names, h.entry]
  exact (hfs.names_sublist fun name => (hmem name).mp).antisymm
    (hfs'.names_sublist fun name => (hmem name).mpr)

theorem AgreeIn.find_child_eq (h : fs.AgreeIn fs' directory) (hfs : fs.IsTree) (hfs' : fs'.IsTree)
    (hd : fs.find p = .ok (directory, some .directory)) (hname : IsName name) :
    fs.find (p.child name) = fs'.find (p.child name) := by
  have hd' := h.frame.find_directory hd
  have hlinkless' : ∀ target, fs'.entryAt? (directory ++ [name]) ≠ some (.link target) := by
    rw [h.entry]
    exact h.linkless name
  by_cases hs : directory ∈ fs.unsearchable
  · rw [hfs.find_child_denied hd hs hname.isPart.ne_empty,
      hfs'.find_child_denied hd' (h.frame.unsearchable ▸ hs) hname.isPart.ne_empty]
  · rw [hfs.find_child hd hs hname.isSought (h.linkless name),
      hfs'.find_child hd' (h.frame.unsearchable ▸ hs) hname.isSought hlinkless', h.entry]

theorem AgreeIn.namesAt_eq (h : fs.AgreeIn fs' directory) (hfs : fs.IsTree) (hfs' : fs'.IsTree)
    (hd : fs.find p = .ok (directory, some .directory)) : fs.namesAt p = fs'.namesAt p := by
  simp only [namesAt, hd, h.frame.find_directory hd, h.names_eq hfs hfs', h.frame.unreadable]

theorem isFile?_congr (h : fs.find p = fs'.find p) : fs.isFile? p = fs'.isFile? p := by
  simp only [isFile?, status, h]

theorem SameFrame.read_congr (hframe : fs.SameFrame fs') (h : fs.find p = fs'.find p) :
    fs.read p = fs'.read p := by
  simp only [read, h, hframe.unreadable]

end FileSystem

namespace Source

open FileSystem

variable {fs fs' : FileSystem} {directory : Location} {grammars : Grammars} {limit : Int}
  {parsers : Parsers} {sources : List SourceFile}

theorem sourcesIn_local (h : fs.AgreeIn fs' directory) (hfs : fs.IsTree) (hfs' : fs'.IsTree)
    (hd : fs.isDirectoryAt directory = true) :
    sourcesIn fs directory = sourcesIn fs' directory := by
  rcases hfs.find_ofLocation_cases (present_of_isDirectoryAt hd) with hself | ⟨-, hdenied⟩
  case inr =>
    -- The directory is not reached by its own text in either tree.
    obtain ⟨e, hdenied', hframe⟩ := h.frame.find_error hdenied
    obtain rfl : e = .denied := by cases e <;> first | rfl | cases hframe
    simp only [sourcesIn, namesAt, hdenied, hdenied']
  rw [isDirectoryAt_iff.mp hd] at hself
  rw [sourcesIn, sourcesIn, ← h.namesAt_eq hfs hfs' hself]
  rcases hn : fs.namesAt (Path.ofLocation directory) with e | names
  · rfl
  obtain ⟨there, hthere, -, rfl⟩ := namesAt_eq_ok.mp hn
  cases hself.symm.trans hthere
  refine sourcesAmong_congr fun name hm => isFile?_congr ?_
  obtain ⟨entry, he⟩ := hfs.mem_names.mp hm
  exact h.find_child_eq hfs hfs' hself (hfs.isName he name (by simp))

theorem isName_of_mem_sourcesIn (hfs : fs.IsTree) {source : SourceFile}
    (h : sourcesIn fs directory = .ok sources) (hm : source ∈ sources) : IsName source.name := by
  unfold sourcesIn at h
  rcases hn : fs.namesAt (Path.ofLocation directory) with e | names
  · rw [hn] at h
    cases h
  rw [hn] at h
  obtain ⟨there, -, -, rfl⟩ := namesAt_eq_ok.mp hn
  obtain ⟨hname, -⟩ := mem_sourcesAmong h hm
  obtain ⟨entry, he⟩ := hfs.mem_names.mp hname
  exact hfs.isName he source.name (by simp)

theorem extractFiles_congr
    (h : ∀ source ∈ sources, fs.read (Path.ofLocation (directory ++ [source.name])) =
      fs'.read (Path.ofLocation (directory ++ [source.name]))) :
    extractFiles grammars fs directory parsers sources =
      extractFiles grammars fs' directory parsers sources := by
  induction sources generalizing parsers with
  | nil => rfl
  | cons source sources ih =>
    obtain ⟨hsource, hsources⟩ := List.forall_mem_cons.mp h
    simp only [extractFiles, extractFile_congr hsource, ih hsources]

/-- The definitions in a directory do not depend on files elsewhere. -/
theorem extract_local (h : fs.AgreeIn fs' directory) (hfs : fs.IsTree) (hfs' : fs'.IsTree)
    {p : Path} (hd : fs.find p = .ok (directory, some .directory)) :
    extract grammars limit fs parsers p = extract grammars limit fs' parsers p := by
  unfold extract
  rw [← h.frame.resolve_eq hfs hfs']
  refine Report.bind_congr fun there hr => ?_
  obtain rfl := resolve_eq_find hr hd
  have hhere := hfs.isDirectoryAt_of_find hd
  rw [Listing.directoryAt, Listing.directoryAt, ← h.frame.isDirectory?_eq,
    ← sourcesIn_local h hfs hfs' hhere]
  refine Report.bind_congr fun _ _ => Report.bind_congr fun sources hs => ?_
  have hread : ∀ source ∈ sources.take (keptCount sources.length limit),
      fs.read (Path.ofLocation (directory ++ [source.name])) =
        fs'.read (Path.ofLocation (directory ++ [source.name])) := by
    intro source hm
    obtain ⟨top, hself, -⟩ := sourcesIn_ok.mp ⟨sources, hs⟩
    obtain ⟨rfl, -⟩ := Prod.mk.injEq .. ▸
      hfs.eq_of_find_ofLocation (present_of_isDirectoryAt hhere) hself
    exact h.frame.read_congr (h.find_child_eq hfs hfs' hself
      (isName_of_mem_sourcesIn hfs hs (List.mem_of_mem_take hm)))
  simp only [extractFiles_congr hread]

end Source

theorem Extractor.parsing_local {grammars : Source.Grammars} {limit : Int} {fs fs' : FileSystem}
    {directory : Location} (h : fs.AgreeIn fs' directory) (hfs : fs.IsTree) (hfs' : fs'.IsTree)
    {p : Path} (hd : fs.find p = .ok (directory, some .directory)) (parsers : Source.Parsers) :
    parsing grammars limit fs parsers p = parsing grammars limit fs' parsers p := by
  rw [parsing, parsing, Source.extract_local h hfs hfs' hd]

end TreeManifest
