import TreeManifest.Proofs.Listing.Order
import TreeManifest.Proofs.Listing.Survival
import TreeManifest.Proofs.Source.Extraction

/-!
# What becomes of each source file

The source files of a directory are taken by name, as many as the limit keeps, and the names of the
others are reported. What a file adds depends on its own octets and on the grammars that can be had
(`contribution?`), not on the files before it: the parsers that they leave do not change which
languages have one (`hasParser_extractFile`). So each file adds what it would add alone
(`extract_accounts`). A name of which the system does not tell whether it is a file keeps a directory
from being accounted for, since that is asked outside of what guards each file: any name in a
directory that may not be searched, and a link to where the system refuses to look.
-/

namespace TreeManifest.Source

open FileSystem

variable {fs : FileSystem} {directory location : Location} {grammars : Grammars} {limit : Int}
  {parsers : Parsers} {source : SourceFile} {names : List String} {p : Path}

def hasParser (grammars : Grammars) (parsers : Parsers) (language : Language) : Bool :=
  parsers.contains language || grammars.offers language

/-- What a source file with the given octets adds: nothing without a parser, nothing if it is
binary, and nothing if the parser crashes. -/
def contribution? (grammars : Grammars) (parsers : Parsers) (source : SourceFile)
    (octets : List UInt8) : Option FileDefinitions :=
  if hasParser grammars parsers source.language && !Description.isBinaryContent octets then
    (grammars.parse source.language octets).map fun tree =>
      ⟨source.name, source.language.name, definitionsOf source.language octets tree⟩
  else none

def SourceFile.octets? (fs : FileSystem) (directory : Location) (source : SourceFile) :
    Option (List UInt8) :=
  (fs.read (Path.ofLocation (directory ++ [source.name]))).toOption

theorem mem_parsers_extractFile {language : Language} :
    language ∈ (extractFile grammars fs directory parsers source).parsers ↔
      language ∈ parsers ∨ language = source.language ∧ grammars.offers language = true := by
  unfold extractFile
  rcases hcached : parsers.contains source.language with _ | _
  · rcases hoffers : grammars.offers source.language with _ | _
    · simp only [Bool.or_self, Bool.false_eq_true, ↓reduceIte]
      exact ⟨.inl, fun h => h.elim id fun ⟨heq, h⟩ => absurd h (by simp [heq, hoffers])⟩
    · simp only [Bool.false_or, ↓reduceIte, Bool.false_eq_true]
      have hmore : language ∈ source.language :: parsers ↔
          language ∈ parsers ∨ language = source.language ∧ grammars.offers language = true := by
        rw [List.mem_cons, or_comm]
        exact or_congr_right ⟨fun heq => ⟨heq, heq ▸ hoffers⟩, And.left⟩
      rcases parseFile grammars fs (Path.ofLocation (directory ++ [source.name])) source <;>
        exact hmore
  · simp only [Bool.true_or, ↓reduceIte]
    have hsame : language ∈ parsers ↔
        language ∈ parsers ∨ language = source.language ∧ grammars.offers language = true :=
      ⟨.inl, fun h => h.elim id fun ⟨heq, _⟩ => heq ▸ List.contains_iff_mem.mp hcached⟩
    rcases parseFile grammars fs (Path.ofLocation (directory ++ [source.name])) source <;>
      exact hsame

@[simp] theorem hasParser_extractFile (language : Language) :
    hasParser grammars (extractFile grammars fs directory parsers source).parsers language =
      hasParser grammars parsers language := by
  rw [Bool.eq_iff_iff]
  simp only [hasParser, Bool.or_eq_true, List.contains_iff_mem, mem_parsers_extractFile]
  tauto

@[simp] theorem contribution?_extractFile :
    contribution? grammars (extractFile grammars fs directory parsers source).parsers =
      contribution? grammars parsers := by
  funext other octets
  simp only [contribution?, hasParser_extractFile]

theorem extractFile_file :
    (extractFile grammars fs directory parsers source).file =
      (source.octets? fs directory).bind (contribution? grammars parsers source) := by
  unfold extractFile parseFile contribution? SourceFile.octets? hasParser
  rcases hparser : parsers.contains source.language || grammars.offers source.language with _ | _
  · simp
  · rcases fs.read (Path.ofLocation (directory ++ [source.name])) with e | octets
    · simp [Except.toOption]
    · rcases hbinary : Description.isBinaryContent octets with _ | _
      · rcases hparse : grammars.parse source.language octets with _ | tree <;>
          simp [Except.toOption, hbinary, hparse]
      · simp [Except.toOption, hbinary]

/-- The files of a directory add what each of them adds with the parsers at the start. -/
theorem extractFiles_eq (sources : List SourceFile) :
    ∃ after, (extractFiles grammars fs directory parsers sources).result = .ok
      (sources.filterMap fun source =>
        (source.octets? fs directory).bind (contribution? grammars parsers source), after) := by
  induction sources generalizing parsers with
  | nil => exact ⟨parsers, rfl⟩
  | cons source sources ih =>
    obtain ⟨after, hafter⟩ := @ih (extractFile grammars fs directory parsers source).parsers
    refine ⟨after, ?_⟩
    rw [extractFiles, hafter, extractFile_file, contribution?_extractFile, List.filterMap_cons]
    rcases (source.octets? fs directory).bind (contribution? grammars parsers source) <;> rfl

-- ---------------------------------------------------------------------------
-- The source files of a directory
-- ---------------------------------------------------------------------------

def sourceAt? (fs : FileSystem) (directory : Location) (name : String) : Option SourceFile :=
  match fs.isFile? (Path.ofLocation (directory ++ [name])) with
  | .ok true => SourceFile.ofName? name
  | _ => none

theorem sourcesAmong_eq (h : ∀ name ∈ names,
    ∃ isFile, fs.isFile? (Path.ofLocation (directory ++ [name])) = .ok isFile) :
    sourcesAmong fs directory names = .ok (names.filterMap (sourceAt? fs directory)) := by
  induction names with
  | nil => rfl
  | cons name names ih =>
    obtain ⟨⟨isFile, hfile⟩, hnames⟩ := List.forall_mem_cons.mp h
    rw [sourcesAmong, ih hnames, List.filterMap_cons]
    cases isFile with
    | false => simp [sourceAt?, hfile, bind, Except.bind, pure, Except.pure]
    | true =>
      rcases hname : SourceFile.ofName? name with _ | source <;>
        simp [sourceAt?, hfile, hname, bind, Except.bind, pure, Except.pure]

theorem ofName?_eq_some {name : String} : SourceFile.ofName? name = some source ↔
    source.name = name ∧ Path.isHiddenName name = false ∧
      Language.ofExtension? (Text.lower (Path.suffixOf name)) = some source.language := by
  obtain ⟨other, language⟩ := source
  unfold SourceFile.ofName?
  rcases Path.isHiddenName name with _ | _
  · simp [eq_comm, and_comm]
  · simp

theorem extract_eq (hresolve : fs.resolve p = .ok directory)
    (hdirectory : fs.isDirectory? (Path.ofLocation directory) = .ok true)
    (hnames : fs.namesAt (Path.ofLocation directory) = .ok names)
    (htold : ∀ name ∈ names,
      ∃ isFile, fs.isFile? (Path.ofLocation (directory ++ [name])) = .ok isFile) :
    let sources := names.filterMap (sourceAt? fs directory)
    let kept := keptCount sources.length limit
    ∃ after, (extract grammars limit fs parsers p).result = .ok
      (⟨(Path.ofLocation directory).toString,
        (sources.take kept).filterMap fun source =>
          (source.octets? fs directory).bind (contribution? grammars parsers source),
        (sources.drop kept).map (·.name)⟩, after) := by
  intro sources kept
  have hsources : sourcesIn fs directory = .ok sources := by
    rw [sourcesIn, hnames]
    exact sourcesAmong_eq htold
  obtain ⟨after, hfiles⟩ :=
    @extractFiles_eq fs directory grammars parsers (sources.take kept)
  refine ⟨after, ?_⟩
  unfold extract
  exact Report.result_bind_ok.mpr ⟨directory, hresolve, Report.result_bind_ok.mpr ⟨(),
    Listing.directoryAt_ok.mpr hdirectory, Report.result_bind_ok.mpr ⟨sources, hsources,
      Report.result_bind_ok.mpr ⟨_, hfiles, rfl⟩⟩⟩⟩

/-- A directory in which one file is alone, with the given octets or with none that can be read. -/
structure HoldsAlone (fs : FileSystem) (p : Path) (directory : Location) (name : String)
    (octets : Option (List UInt8)) : Prop where
  resolve : fs.resolve p = .ok directory
  isDirectory : fs.isDirectory? (Path.ofLocation directory) = .ok true
  names : fs.namesAt (Path.ofLocation directory) = .ok [name]
  isFile : fs.isFile? (Path.ofLocation (directory ++ [name])) = .ok true
  read : (fs.read (Path.ofLocation (directory ++ [name]))).toOption = octets

theorem HoldsAlone.extract {octets : Option (List UInt8)}
    (h : HoldsAlone fs p directory source.name octets) (hlimit : 1 ≤ limit)
    (hshown : Path.isHiddenName source.name = false)
    (hextension :
      Language.ofExtension? (Text.lower (Path.suffixOf source.name)) = some source.language) :
    ∃ after, (Source.extract grammars limit fs parsers p).result = .ok
      (⟨(Path.ofLocation directory).toString,
        (octets.bind (contribution? grammars parsers source)).toList, []⟩, after) := by
  have hsource : sourceAt? fs directory source.name = some source := by
    simp [sourceAt?, h.isFile, ofName?_eq_some, hshown, hextension]
  obtain ⟨after, hextract⟩ := @extract_eq fs directory grammars limit parsers [source.name] p
    h.resolve h.isDirectory h.names fun name hm => ⟨true, List.mem_singleton.mp hm ▸ h.isFile⟩
  -- A positive limit cuts no single file off.
  have hkept : [source].length ≤ keptCount 1 limit := by
    unfold keptCount
    split <;> simp <;> omega
  refine ⟨after, hextract.trans ?_⟩
  simp only [List.filterMap_cons, List.filterMap_nil, hsource, List.length_singleton,
    List.take_of_length_le hkept, List.drop_of_length_le hkept, SourceFile.octets?, h.read,
    List.map_nil]
  rcases octets.bind (contribution? grammars parsers source) <;> rfl

def linkedTree : FileSystem where
  entries := [(["d"], .directory), (["d", "a.py"], .file [120]), (["d", "b.PY"], .file [0]),
    (["d", "c.go"], .file [120]), (["d", "y.py"], .link "a.py"), (["d", "z.py"], .file [])]
  working := []
  home := "/home"
  unreadable := []

def plainGrammars : Grammars := ⟨["tree_sitter_go"], [], fun _ _ => some []⟩

end TreeManifest.Source
