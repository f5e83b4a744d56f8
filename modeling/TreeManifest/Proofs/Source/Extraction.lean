import TreeManifest.Documentation
import TreeManifest.Proofs.FileSystem.Extends
import TreeManifest.Proofs.Listing.Entries

/-!
# When definitions can be found

Only what comes before the first file can fail: the directory and the kinds of what it holds
(`extract_ok`). Neither depends on files where the directory may be searched, so definitions that can
be found in a tree can be found in every tree of the same frame (`extract_frame`), if no further
names are in a directory that may not be.
-/

namespace TreeManifest.Source

open FileSystem

variable {fs fs' : FileSystem} {directory top : Location} {grammars : Grammars} {limit : Int}
  {parsers : Parsers}

theorem sourcesAmong_ok {names : List String} :
    (∃ sources, sourcesAmong fs directory names = .ok sources) ↔
      ∀ name ∈ names, ∃ isFile, fs.isFile? (Path.ofLocation (directory ++ [name])) = .ok isFile := by
  induction names with
  | nil => simp [sourcesAmong]
  | cons name names ih =>
    rw [List.forall_mem_cons, ← ih, sourcesAmong]
    rcases fs.isFile? (Path.ofLocation (directory ++ [name])) with failure | isFile
    · simp [bind, Except.bind]
    · rcases sourcesAmong fs directory names with failure | sources
      · simp [bind, Except.bind]
      · simp [bind, Except.bind, pure, Except.pure]

theorem sourcesIn_ok :
    (∃ sources, sourcesIn fs directory = .ok sources) ↔
      ∃ top, fs.find (Path.ofLocation directory) = .ok (top, some .directory) ∧ top ∉ fs.unreadable ∧
        ∀ name ∈ fs.names top,
          ∃ isFile, fs.isFile? (Path.ofLocation (directory ++ [name])) = .ok isFile := by
  unfold sourcesIn
  rcases hn : fs.namesAt (Path.ofLocation directory) with e | names
  · constructor
    · rintro ⟨sources, hs⟩
      cases hs
    · rintro ⟨top, hfind, hreadable, -⟩
      rw [namesAt_eq_ok.mpr ⟨top, hfind, hreadable, rfl⟩] at hn
      cases hn
  · obtain ⟨top, hfind, hreadable, rfl⟩ := namesAt_eq_ok.mp hn
    simp only [sourcesAmong_ok]
    constructor
    · exact fun h => ⟨top, hfind, hreadable, h⟩
    · rintro ⟨top', hfind', -, h⟩
      rw [hfind, Except.ok.injEq, Prod.mk.injEq] at hfind'
      exact hfind'.1 ▸ h

theorem extractFiles_ok (fs : FileSystem) (parsers : Parsers) (sources : List SourceFile) :
    ∃ found, (extractFiles grammars fs directory parsers sources).result = .ok found := by
  induction sources generalizing parsers with
  | nil => exact ⟨_, rfl⟩
  | cons source sources ih =>
    obtain ⟨found, hf⟩ := ih (extractFile grammars fs directory parsers source).parsers
    exact ⟨_, by rw [extractFiles, hf]; rfl⟩

theorem extract_ok {p : Path} :
    (∃ found, (extract grammars limit fs parsers p).result = .ok found) ↔
      ∃ directory, fs.resolve p = .ok directory ∧ Listing.directoryAt fs directory = .ok () ∧
        ∃ sources, sourcesIn fs directory = .ok sources := by
  unfold extract
  constructor
  · rintro ⟨found, h⟩
    obtain ⟨directory, hr, h⟩ := Report.result_bind_ok.mp h
    obtain ⟨⟨⟩, hd, h⟩ := Report.result_bind_ok.mp h
    obtain ⟨sources, hs, -⟩ := Report.result_bind_ok.mp h
    exact ⟨directory, hr, hd, sources, hs⟩
  · rintro ⟨directory, hr, hd, sources, hs⟩
    obtain ⟨found, hf⟩ := @extractFiles_ok directory grammars fs parsers
      (sources.take (keptCount sources.length limit))
    exact ⟨_, Report.result_bind_ok.mpr ⟨directory, hr, Report.result_bind_ok.mpr ⟨(), hd,
      Report.result_bind_ok.mpr ⟨sources, hs, Report.result_bind_ok.mpr ⟨found, hf, rfl⟩⟩⟩⟩⟩

-- ---------------------------------------------------------------------------
-- Trees of one frame
-- ---------------------------------------------------------------------------

/-- The kind of what a directory holds can be told, unless that is a link. -/
theorem isFile?_known (hfs : fs.IsTree)
    (hd : fs.find (Path.ofLocation directory) = .ok (top, some .directory))
    (hs : top ∉ fs.unsearchable) {name : String} {entry : Entry}
    (he : fs.entryAt? (top ++ [name]) = some entry) (hl : ∀ target, entry ≠ .link target) :
    ∃ isFile, fs.isFile? (Path.ofLocation (directory ++ [name])) = .ok isFile := by
  have hname := hfs.isName he name (by simp)
  have hfind : fs.find (Path.ofLocation (directory ++ [name])) = .ok (top ++ [name], some entry) := by
    refine he ▸ hfs.find_child hd hs hname.isSought fun target ht => ?_
    exact hl target (Option.some.inj (he.symm.trans ht))
  exact ⟨_, by rw [isFile?, status_of_find hfind, ask_ok]⟩

/-- What can be told of the names in a directory depends on the frame, unless it may not be searched:
then it must not have any. -/
theorem sourcesIn_frame (h : fs.SameFrame fs') (hfs : fs.IsTree) (hfs' : fs'.IsTree)
    (hnames : ∀ top ∈ fs.unsearchable, fs'.names top ⊆ fs.names top)
    (hs : ∃ sources, sourcesIn fs directory = .ok sources) :
    ∃ sources, sourcesIn fs' directory = .ok sources := by
  obtain ⟨top, hfind, hreadable, hknown⟩ := sourcesIn_ok.mp hs
  have hfind' := h.find_directory hfind
  refine sourcesIn_ok.mpr ⟨top, hfind', h.unreadable ▸ hreadable, fun name hm => ?_⟩
  obtain ⟨entry, he⟩ := hfs'.mem_names.mp hm
  by_cases hold : name ∈ fs.names top
  · obtain ⟨isFile, hf⟩ := hknown name hold
    rcases hf' : fs'.isFile? (Path.ofLocation (directory ++ [name])) with failure | isFile'
    · rw [h.symm.isFile?_error hf'] at hf
      cases hf
    · exact ⟨isFile', rfl⟩
  · -- What is new is no link, since these are the same, and lies in a directory to be searched.
    have hsearched : top ∉ fs'.unsearchable := fun hs => hold (hnames top (h.unsearchable ▸ hs) hm)
    refine isFile?_known hfs' hfind' hsearched he fun target ht => hold ?_
    exact hfs.mem_names.mpr ⟨_, h.link_iff.mpr (ht ▸ he)⟩

theorem extract_frame (h : fs.SameFrame fs') (hfs : fs.IsTree) (hfs' : fs'.IsTree)
    (hnames : ∀ top ∈ fs.unsearchable, fs'.names top ⊆ fs.names top) (parsers' : Parsers) {p : Path}
    (hx : ∃ found, (extract grammars limit fs parsers p).result = .ok found) :
    ∃ found, (extract grammars limit fs' parsers' p).result = .ok found := by
  obtain ⟨directory, hr, hd, hs⟩ := extract_ok.mp hx
  refine extract_ok.mpr ⟨directory, ?_, ?_, sourcesIn_frame h hfs hfs' hnames hs⟩
  · rwa [← h.resolve_eq hfs hfs']
  · rw [Listing.directoryAt_ok] at hd ⊢
    rwa [← h.isDirectory?_eq]

-- ---------------------------------------------------------------------------
-- Trees with the same files
-- ---------------------------------------------------------------------------

theorem name_of_ofName? {name : String} {source : SourceFile}
    (h : SourceFile.ofName? name = some source) : source.name = name := by
  unfold SourceFile.ofName? at h
  split at h
  · cases h
  · obtain ⟨language, -, rfl⟩ := Option.map_eq_some_iff.mp h
    rfl

theorem mem_sourcesAmong {names : List String} {sources : List SourceFile} {source : SourceFile}
    (h : sourcesAmong fs directory names = .ok sources) (hm : source ∈ sources) :
    source.name ∈ names ∧ SourceFile.ofName? source.name = some source ∧
      fs.isFile? (Path.ofLocation (directory ++ [source.name])) = .ok true := by
  induction names generalizing sources with
  | nil => cases h; simp at hm
  | cons name names ih =>
    rw [sourcesAmong] at h
    rcases hf : fs.isFile? (Path.ofLocation (directory ++ [name])) with failure | isFile
    · rw [hf] at h; cases h
    rcases hs : sourcesAmong fs directory names with failure | rest
    · rw [hf, hs] at h; cases h
    rw [hf, hs] at h
    cases isFile with
    | false => cases h; exact (ih hs hm).imp_left (List.mem_cons_of_mem name)
    | true =>
      cases h
      rcases List.mem_append.mp hm with hm | hm
      · have hsource := Option.mem_toList.mp hm
        rw [name_of_ofName? hsource]
        exact ⟨List.mem_cons_self, hsource, hf⟩
      · exact (ih hs hm).imp_left (List.mem_cons_of_mem name)

theorem sourcesAmong_congr {names : List String}
    (h : ∀ name ∈ names, fs.isFile? (Path.ofLocation (directory ++ [name])) =
      fs'.isFile? (Path.ofLocation (directory ++ [name]))) :
    sourcesAmong fs directory names = sourcesAmong fs' directory names := by
  induction names with
  | nil => rfl
  | cons name names ih =>
    obtain ⟨hname, hnames⟩ := List.forall_mem_cons.mp h
    rw [sourcesAmong, sourcesAmong, hname, ih hnames]

theorem sourcesIn_alike (h : fs.Alike fs') (hfs : fs.IsTree) (hfs' : fs'.IsTree)
    {sources : List SourceFile} (hs : sourcesIn fs directory = .ok sources) :
    sourcesIn fs' directory = .ok sources := by
  obtain ⟨top, hfind, hreadable, -⟩ := sourcesIn_ok.mp ⟨sources, hs⟩
  have hnames : fs.namesAt (Path.ofLocation directory) = .ok (fs.names top) :=
    namesAt_eq_ok.mpr ⟨top, hfind, hreadable, rfl⟩
  have hnames' : fs'.namesAt (Path.ofLocation directory) = .ok (fs.names top) :=
    namesAt_eq_ok.mpr ⟨top, h.frame.find_directory hfind, h.frame.unreadable ▸ hreadable,
      h.names_eq hfs hfs' top⟩
  rw [sourcesIn, hnames] at hs
  rw [sourcesIn, hnames', ← hs]
  exact (sourcesAmong_congr fun _ _ => h.isFile?_eq hfs hfs' _).symm

theorem extractFile_parsers (fs fs' : FileSystem) (source : SourceFile) :
    (extractFile grammars fs directory parsers source).parsers =
      (extractFile grammars fs' directory parsers source).parsers := by
  unfold extractFile
  split
  · rcases parseFile grammars fs (Path.ofLocation (directory ++ [source.name])) source <;>
      rcases parseFile grammars fs' (Path.ofLocation (directory ++ [source.name])) source <;> rfl
  · rfl

theorem extractFile_congr {source : SourceFile}
    (h : fs.read (Path.ofLocation (directory ++ [source.name])) =
      fs'.read (Path.ofLocation (directory ++ [source.name]))) :
    extractFile grammars fs directory parsers source =
      extractFile grammars fs' directory parsers source := by
  simp only [extractFile, parseFile, h]

theorem extractFiles_alike (fs fs' : FileSystem) (parsers : Parsers) (sources : List SourceFile) :
    ∃ files files' after, (extractFiles grammars fs directory parsers sources).result =
        .ok (files, after) ∧
      (extractFiles grammars fs' directory parsers sources).result = .ok (files', after) ∧
      (files ≠ files' → ∃ source ∈ sources,
        fs.read (Path.ofLocation (directory ++ [source.name])) ≠
          fs'.read (Path.ofLocation (directory ++ [source.name]))) := by
  induction sources generalizing parsers with
  | nil => exact ⟨[], [], parsers, rfl, rfl, fun hne => absurd rfl hne⟩
  | cons source sources ih =>
    obtain ⟨files, files', after, hf, hf', hdiffer⟩ :=
      ih (extractFile grammars fs directory parsers source).parsers
    have hparsers : (extractFile grammars fs directory parsers source).parsers =
        (extractFile grammars fs' directory parsers source).parsers := extractFile_parsers fs fs' source
    refine ⟨_, _, after, by rw [extractFiles, hf]; rfl,
      by rw [extractFiles, ← hparsers, hf']; rfl, fun hne => ?_⟩
    by_cases hread : fs.read (Path.ofLocation (directory ++ [source.name])) =
        fs'.read (Path.ofLocation (directory ++ [source.name]))
    · rw [extractFile_congr hread] at hne
      obtain ⟨other, hm, hother⟩ := hdiffer fun heq => hne (by rw [heq])
      exact ⟨other, List.mem_cons_of_mem source hm, hother⟩
    · exact ⟨source, List.mem_cons_self, hread⟩

/-- A source file in a directory that can be read and has other contents in another tree. -/
structure Differing (fs fs' : FileSystem) (directory : Location) (name : String)
    (location : Location) (octets octets' : List UInt8) : Prop where
  isSource : (SourceFile.ofName? name).isSome = true
  find : fs.find (Path.ofLocation (directory ++ [name])) = .ok (location, some (.file octets))
  find' : fs'.find (Path.ofLocation (directory ++ [name])) = .ok (location, some (.file octets'))
  readable : location ∉ fs.unreadable
  ne : octets ≠ octets'

/-- Definitions that are found differently come from a source file with other contents. -/
theorem extract_alike (h : fs.Alike fs') (hfs : fs.IsTree) (hfs' : fs'.IsTree) {p : Path}
    {set : DefinitionSet} {after : Parsers}
    (hx : (extract grammars limit fs parsers p).result = .ok (set, after)) :
    ∃ set', (extract grammars limit fs' parsers p).result = .ok (set', after) ∧
      (set ≠ set' → ∃ directory name location octets octets', fs.resolve p = .ok directory ∧
        Differing fs fs' directory name location octets octets') := by
  unfold extract at hx ⊢
  obtain ⟨directory, hr, hx⟩ := Report.result_bind_ok.mp hx
  obtain ⟨⟨⟩, hd, hx⟩ := Report.result_bind_ok.mp hx
  obtain ⟨sources, hs, hx⟩ := Report.result_bind_ok.mp hx
  have hresolve : fs.resolve p = .ok directory := hr
  have hdirectory : Listing.directoryAt fs directory = .ok () := hd
  have hsources : sourcesIn fs directory = .ok sources := hs
  rw [Listing.directoryAt_ok, h.frame.isDirectory?_eq, ← Listing.directoryAt_ok] at hdirectory
  obtain ⟨files, files', after', hf, hf', hdiffer⟩ := @extractFiles_alike directory grammars fs fs'
    parsers (sources.take (keptCount sources.length limit))
  obtain ⟨⟨found, there⟩, hfound, hx⟩ := Report.result_bind_ok.mp hx
  rw [hf, Except.ok.injEq] at hfound
  cases hfound
  cases hx
  refine ⟨_, Report.result_bind_ok.mpr ⟨directory, (h.frame.resolve_eq hfs hfs' p) ▸ hr,
    Report.result_bind_ok.mpr ⟨(), hdirectory, Report.result_bind_ok.mpr ⟨sources,
      sourcesIn_alike h hfs hfs' hsources,
      Report.result_bind_ok.mpr ⟨(files', _), hf', rfl⟩⟩⟩⟩, fun hne => ?_⟩
  -- A source file is there in the other tree as well: only its contents can differ.
  obtain ⟨source, hm, hread⟩ := hdiffer fun heq => hne (by rw [heq])
  obtain ⟨top, hfind, hreadable, -⟩ := sourcesIn_ok.mp ⟨sources, hsources⟩
  rw [sourcesIn, namesAt_eq_ok.mpr ⟨top, hfind, hreadable, rfl⟩] at hsources
  obtain ⟨-, hsource, hfile⟩ := mem_sourcesAmong hsources (List.mem_of_mem_take hm)
  obtain ⟨-, location, octets, hthere⟩ := isFile?_eq_true.mp hfile
  obtain ⟨octets', hoctets'⟩ := (h.file location).mp ⟨octets, hfs.entryAt?_of_find hthere⟩
  have hthere' := h.find_eq hfs' hthere
  rw [hoctets'] at hthere'
  refine ⟨directory, source.name, location, octets, octets', hresolve, by simp [hsource], hthere,
    hthere', fun hu => hread ?_, ?_⟩
  · simp only [FileSystem.read, hthere, hthere', ← h.frame.unreadable, hu, ↓reduceIte]
  · rintro rfl
    exact hread (by simp only [FileSystem.read, hthere, hthere', h.frame.unreadable])

end TreeManifest.Source

namespace TreeManifest

namespace Extractor

variable {grammars : Source.Grammars} {limit : Int} {fs fs' : FileSystem}
  {parsers after : Source.Parsers} {p : Path} {definitions : Json}

theorem parsing_eq_ok :
    (parsing grammars limit fs parsers p).result = .ok (definitions, after) ↔
      ∃ set, (Source.extract grammars limit fs parsers p).result = .ok (set, after) ∧
        definitions = set.toJson := by
  unfold parsing
  constructor
  · intro h
    obtain ⟨⟨set, there⟩, hs, h⟩ := Report.result_bind_ok.mp h
    cases h
    exact ⟨set, hs, rfl⟩
  · rintro ⟨set, hs, rfl⟩
    exact Report.result_bind_ok.mpr ⟨_, hs, rfl⟩

theorem parsing_frame (h : fs.SameFrame fs') (hfs : fs.IsTree) (hfs' : fs'.IsTree)
    (hnames : ∀ top ∈ fs.unsearchable, fs'.names top ⊆ fs.names top) (parsers' : Source.Parsers)
    (hx : (parsing grammars limit fs parsers p).result = .ok (definitions, after)) :
    ∃ found, (parsing grammars limit fs' parsers' p).result = .ok found := by
  obtain ⟨set, hs, -⟩ := parsing_eq_ok.mp hx
  obtain ⟨⟨set', after'⟩, hs'⟩ := Source.extract_frame h hfs hfs' hnames parsers' ⟨_, hs⟩
  exact ⟨_, parsing_eq_ok.mpr ⟨set', hs', rfl⟩⟩

theorem parsing_alike (h : fs.Alike fs') (hfs : fs.IsTree) (hfs' : fs'.IsTree)
    (hx : (parsing grammars limit fs parsers p).result = .ok (definitions, after)) :
    ∃ definitions', (parsing grammars limit fs' parsers p).result = .ok (definitions', after) ∧
      (definitions ≠ definitions' → ∃ directory name location octets octets',
        fs.resolve p = .ok directory ∧
          Source.Differing fs fs' directory name location octets octets') := by
  obtain ⟨set, hs, rfl⟩ := parsing_eq_ok.mp hx
  obtain ⟨set', hs', hdiffer⟩ := Source.extract_alike h hfs hfs' hs
  exact ⟨set'.toJson, parsing_eq_ok.mpr ⟨set', hs', rfl⟩, fun hne =>
    hdiffer fun heq => hne (by rw [heq])⟩

end Extractor

end TreeManifest
