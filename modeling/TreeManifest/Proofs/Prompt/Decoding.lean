import TreeManifest.Proofs.Json.Indented
import TreeManifest.Prompt.Request
import TreeManifest.Source.DefinitionSet

/-!
# Requests are read back

The message of a request holds its definitions and its descriptions as they are: reading one value
behind each of the two headers gives them back (`decode_text`), whatever texts they hold and whatever
stands around them.
-/

namespace TreeManifest

-- ---------------------------------------------------------------------------
-- Sets of definitions as values
-- ---------------------------------------------------------------------------

namespace Source

open Json (Legible)

/-- A set that a request can be made of: an integer of more digits is not turned into text. -/
def DefinitionSet.IsWritable (set : DefinitionSet) : Prop :=
  ∀ file ∈ set.files, ∀ d ∈ file.definitions, d.line.natAbs < Nat.pow 10 Decimal.maxDigits

variable {depth : Nat}

theorem legible_texts (items : List String) : Legible (depth + 1) (texts items) := by
  refine .arr fun item hm => ?_
  obtain ⟨text, -, rfl⟩ := List.mem_map.mp hm
  exact .str text

theorem legible_optionalText (text : Option String) : Legible depth (optionalText text) := by
  cases text with
  | none => exact .null
  | some text => exact .str text

theorem Definition.legible {d : Definition} (h : d.line.natAbs < Nat.pow 10 Decimal.maxDigits) :
    Legible (depth + 2) d.toJson := by
  refine .obj (by simp [Mapping.keys]) ?_
  simp only [List.forall_mem_cons]
  exact ⟨.str _, .str _, .int h, legible_optionalText _, legible_optionalText _, legible_texts _,
    List.forall_mem_nil _⟩

theorem FileDefinitions.legible {file : FileDefinitions}
    (h : ∀ d ∈ file.definitions, d.line.natAbs < Nat.pow 10 Decimal.maxDigits) :
    Legible (depth + 4) file.toJson := by
  refine .obj (by simp [Mapping.keys]) ?_
  simp only [List.forall_mem_cons]
  refine ⟨.str _, .str _, .arr fun value hm => ?_, List.forall_mem_nil _⟩
  obtain ⟨d, hd, rfl⟩ := List.mem_map.mp hm
  exact Definition.legible (h d hd)

theorem DefinitionSet.legible {set : DefinitionSet} (h : set.IsWritable) :
    Legible (depth + 6) set.toJson := by
  refine .obj (by simp [Mapping.keys]) ?_
  simp only [List.forall_mem_cons]
  refine ⟨.str _, .arr fun value hm => ?_, legible_texts _, List.forall_mem_nil _⟩
  obtain ⟨file, hfile, rfl⟩ := List.mem_map.mp hm
  exact FileDefinitions.legible (h file hfile)

theorem mapM_comp_eq_some {α β : Type} {read : β → Option α} {write : α → β}
    (h : ∀ x, read (write x) = some x) (xs : List α) : xs.mapM (read ∘ write) = some xs := by
  have hsome : read ∘ write = fun x => pure (id x) := funext h
  rw [hsome, List.mapM_pure, List.map_id]
  rfl

theorem text?_str (text : String) : text? (some (.str text)) = some text := rfl

theorem whole?_int (n : Int) : whole? (some (.int n)) = some n := rfl

theorem mapM_text? (items : List String) :
    items.mapM ((fun item => text? (some item)) ∘ Json.str) = some items :=
  mapM_comp_eq_some text?_str items

theorem optionalTextOf?_optionalText (text : Option String) :
    optionalTextOf? (some (optionalText text)) = some text := by
  cases text <;> rfl

theorem Definition.ofJson?_toJson (d : Definition) : Definition.ofJson? d.toJson = some d := by
  simp [Definition.ofJson?, Definition.toJson, Json.member?, Mapping.get?, text?_str, whole?_int,
    texts, optionalTextOf?_optionalText, optionalItems?, mapM_text?]

theorem FileDefinitions.ofJson?_toJson (file : FileDefinitions) :
    FileDefinitions.ofJson? file.toJson = some file := by
  simp [FileDefinitions.ofJson?, FileDefinitions.toJson, Json.member?, Mapping.get?, text?_str,
    optionalItems?, mapM_comp_eq_some Definition.ofJson?_toJson]

theorem DefinitionSet.ofJson?_toJson (set : DefinitionSet) :
    DefinitionSet.ofJson? set.toJson = some set := by
  simp [DefinitionSet.ofJson?, DefinitionSet.toJson, Json.member?, Mapping.get?, text?_str, texts,
    optionalItems?, mapM_comp_eq_some FileDefinitions.ofJson?_toJson, mapM_text?]

end Source

-- ---------------------------------------------------------------------------
-- Reading a message
-- ---------------------------------------------------------------------------

namespace Prompt

open Source (DefinitionSet)

def readBehind? (header : String) (cs : List Char) : Option (Json × List Char) :=
  if header.toList <+: cs then (Json.readFirst (cs.drop header.toList.length)).toOption else none

def definitionsHeader : String := "\n\nCode definitions:\n"

def analysisHeader (place : String) : String :=
  "\n\nFile analysis (paths relative to " ++ place ++ "):\n"

def templateHeader : String := "\n\nTemplate:\n"

def rulesHeader : String := "\n\nGeneration rules:\n"

def decode (introduction place message : String) : Option (Json × Json × List Char) := do
  let (definitions, rest) ← readBehind? (introduction ++ definitionsHeader) message.toList
  let (analysis, rest) ← readBehind? (analysisHeader place) rest
  return (definitions, analysis, rest)

def closing (template : String) (rules : List String) : List Char :=
  templateHeader.toList ++ (template.toList ++ (rulesHeader.toList ++
    (String.intercalate "\n" (numbered 1 rules)).toList ++ ['\n']))

theorem readBehind?_indented {value : Json} (h : Json.Legible Json.maxDepth value) (header : String)
    {rest : List Char} (hrest : Json.EndsNumber rest) :
    readBehind? header (header.toList ++ (value.indented.toList ++ rest)) = some (value, rest) := by
  rw [readBehind?, if_pos (List.prefix_append _ _), List.drop_left, Json.readFirst_indented h hrest]
  rfl

theorem legible_analysisJson {analysis : Mapping String String} (h : (Mapping.keys analysis).Nodup) :
    Json.Legible Json.maxDepth (analysisJson analysis) := by
  refine .obj ?_ fun member hm => ?_
  · rw [Mapping.keys, List.map_map]
    exact h
  · obtain ⟨binding, -, rfl⟩ := List.mem_map.mp hm
    exact .str _

theorem head?_append {s : String} {c : Char} (h : s.toList.head? = some c) (t : String) :
    (s ++ t).toList.head? = some c := by
  rw [String.toList_append, List.head?_append, h]
  rfl

theorem endsNumber_append {header : String} (h : header.toList.head? = some '\n')
    (rest : List Char) : Json.EndsNumber (header.toList ++ rest) := by
  obtain ⟨cs, hcs⟩ := List.head?_eq_some_iff.mp h
  rw [hcs]
  exact ⟨rfl, by decide, by decide, by decide⟩

theorem endsNumber_analysisHeader (place : String) (rest : List Char) :
    Json.EndsNumber ((analysisHeader place).toList ++ rest) :=
  endsNumber_append (head?_append (head?_append rfl place) "):\n") rest

theorem endsNumber_closing (template : String) (rules : List String) :
    Json.EndsNumber (closing template rules) :=
  endsNumber_append rfl _

theorem toList_text (content : Content) : content.text.toList =
    (content.introduction ++ definitionsHeader).toList ++ (content.definitions.indented.toList ++
      ((analysisHeader content.place).toList ++ ((analysisJson content.analysis).indented.toList ++
        closing content.template content.rules))) := by
  have hparts : content.text = String.join
      [content.introduction, definitionsHeader, content.definitions.indented,
        analysisHeader content.place, (analysisJson content.analysis).indented, templateHeader,
        content.template, rulesHeader, String.intercalate "\n" (numbered 1 content.rules),
        "\n"] := rfl
  rw [hparts]
  simp only [closing, String.toList_join, List.flatMap_cons, List.flatMap_nil, String.toList_append,
    List.append_assoc, List.append_nil]
  rfl

theorem decode_text {content : Content} (hdefinitions : Json.Legible Json.maxDepth content.definitions)
    (hkeys : (Mapping.keys content.analysis).Nodup) :
    decode content.introduction content.place content.text =
      some (content.definitions, analysisJson content.analysis,
        closing content.template content.rules) := by
  have hread := readBehind?_indented hdefinitions (content.introduction ++ definitionsHeader)
    (endsNumber_analysisHeader content.place
      ((analysisJson content.analysis).indented.toList ++ closing content.template content.rules))
  have hanalysis := readBehind?_indented (legible_analysisJson hkeys) (analysisHeader content.place)
    (endsNumber_closing content.template content.rules)
  rw [decode, toList_text, hread]
  show (readBehind? _ _ >>= _) = _
  rw [hanalysis]
  rfl

-- ---------------------------------------------------------------------------
-- The two requests
-- ---------------------------------------------------------------------------

theorem analysisJson_inj {analysis analysis' : Mapping String String}
    (h : analysisJson analysis = analysisJson analysis') : analysis = analysis' := by
  refine (List.map_inj_right ?_).mp (Json.obj.inj h)
  rintro ⟨path, description⟩ ⟨path', description'⟩ hbinding
  cases hbinding
  rfl

/-- What the requests made of a set of definitions give back. -/
structure Decodes (set : DefinitionSet) (analysis : Mapping String String) (template : String)
    (root directory : Path) (manifestName : String) : Prop where
  atRoot : ∃ message,
    (rootRequest set.toJson analysis template root manifestName).messages = [⟨.user, message⟩] ∧
    decode (rootIntroduction manifestName) "the project root" message =
      some (set.toJson, analysisJson (scope analysis root), closing template generationRules)
  atDirectory : ∃ message,
    (directoryRequest set.toJson analysis template root directory manifestName).messages =
      [⟨.user, message⟩] ∧
    decode (directoryIntroduction manifestName (directoryLabel root directory))
        ("\"" ++ directoryLabel root directory ++ "\"") message =
      some (set.toJson, analysisJson (scope analysis directory),
        closing template (generationRules ++ [parentRule (parentLabel root directory)]))
  faithful : DefinitionSet.ofJson? set.toJson = some set
  /-- No other set and no other descriptions make the same message. -/
  injective : ∀ (set' : DefinitionSet) (analysis' : Mapping String String) (directory' : Path)
    (introduction place : String) (rules rules' : List String), set'.IsWritable →
    Content.text ⟨introduction, set.toJson, scope analysis directory, place, template, rules⟩ =
      Content.text ⟨introduction, set'.toJson, scope analysis' directory', place, template, rules'⟩ →
    set' = set ∧ scope analysis' directory' = scope analysis directory

/-- The descriptions of a scope are under distinct paths. -/
theorem decode_scope {set : DefinitionSet} (hset : set.IsWritable) (analysis : Mapping String String)
    (directory : Path) (introduction place template : String) (rules : List String) :
    decode introduction place
        (Content.text ⟨introduction, set.toJson, scope analysis directory, place, template, rules⟩) =
      some (set.toJson, analysisJson (scope analysis directory), closing template rules) := by
  have hlegible : Json.Legible Json.maxDepth set.toJson := DefinitionSet.legible hset
  exact @decode_text ⟨introduction, set.toJson, scope analysis directory, place, template, rules⟩
    hlegible (Mapping.nodup_keys_ofList _)

/-- Both requests decode to the set of definitions, to the descriptions within their directory and to
the text that ends them. No other set and no other descriptions make the same message. -/
theorem requests_decode {set : DefinitionSet} (hset : set.IsWritable)
    (analysis : Mapping String String) (template : String) (root directory : Path)
    (manifestName : String) : Decodes set analysis template root directory manifestName where
  atRoot := ⟨_, rfl, decode_scope hset analysis root _ _ template _⟩
  atDirectory := ⟨_, rfl, decode_scope hset analysis directory _ _ template _⟩
  faithful := DefinitionSet.ofJson?_toJson set
  injective := by
    intro set' analysis' directory' introduction place rules rules' hset' htext
    have hread := decode_scope hset analysis directory introduction place template rules
    rw [htext, decode_scope hset' analysis' directory' introduction place template rules',
      Option.some.injEq, Prod.mk.injEq, Prod.mk.injEq] at hread
    obtain ⟨hdefinitions, hanalysis, -⟩ := hread
    refine ⟨?_, analysisJson_inj hanalysis⟩
    have hsame := DefinitionSet.ofJson?_toJson set'
    rw [hdefinitions, DefinitionSet.ofJson?_toJson] at hsame
    exact (Option.some.inj hsame).symm

def troubledSet : DefinitionSet where
  directory := "/w/a"
  files := [⟨"a\"b.py", "python",
    [⟨"f", "function", 3, some "def f(x=\x7b\x7d):\n", none, ["\\", "\n\nTemplate:\n"]⟩]⟩]
  skipped := ["]\x00"]

theorem requests_decode_troubledSet :
    troubledSet.IsWritable ∧
      Decodes troubledSet [("/w/a/x.py", "\"\x7d\n\nTemplate:\n"), ("/w/a", "Lines")]
        "name: \x7b\x7bname\x7d\x7d" (Path.ofString "/w") (Path.ofString "/w/a") "stc.yaml" := by
  have hset : troubledSet.IsWritable := by
    unfold DefinitionSet.IsWritable
    decide +kernel
  exact ⟨hset, requests_decode hset _ _ _ _ _⟩

end Prompt

end TreeManifest
