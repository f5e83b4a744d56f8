import Mathlib.Data.List.Infix
import TreeManifest.Proofs.Description.Content

/-!
# Documentation comments are read back

A script that carries a documentation comment, one star in front of each line, is described by those
lines joined by single spaces (`describe_docBlock`). Stars, slashes and comment openers inside a
line are text like any other; only the first opening mark of the file and the first closing mark
after it count. A mark cannot reach over a character that is not in it (`infix_before_or_after`), so
the closing mark of the comment is not found before its end.
-/

namespace TreeManifest.Description

open Text (IsTrimmed)

def starred (lines : List (List Char)) : List Char :=
  lines.flatMap fun line => " * ".toList ++ line ++ ['\n']

def docBlock (lines : List (List Char)) : List Char :=
  "/**\n".toList ++ starred lines ++ " */".toList

/-- A line that a documentation comment can hold: not blank, with bare ends, and with nothing in it
that ends a line or the comment. -/
structure IsDocLine (line : List Char) : Prop where
  ne_nil : line ≠ []
  trimmed : IsTrimmed line
  unbroken : ∀ c ∈ line, Text.isLineEnd c = false
  unclosed : ¬ "*/".toList <:+: line

instance (line : List Char) : Decidable (IsDocLine line) :=
  decidable_of_iff (line ≠ [] ∧ IsTrimmed line ∧ line.all (!Text.isLineEnd ·) = true ∧
    ¬ "*/".toList <:+: line)
    ⟨fun h => ⟨h.1, h.2.1, by simpa using h.2.2.1, h.2.2.2⟩,
      fun h => ⟨h.1, h.2, by simpa using h.3, h.4⟩⟩

variable {mark before rest line : List Char} {lines : List (List Char)} {c : Char}

-- ---------------------------------------------------------------------------
-- First occurrences
-- ---------------------------------------------------------------------------

/-- A mark that is not found up to its own last character does not begin earlier. -/
theorem not_isPrefixOf (h : ¬ mark <:+: c :: before ++ mark.dropLast) :
    mark.isPrefixOf (c :: before ++ (mark ++ rest)) = false := by
  refine eq_false_of_ne_true fun hprefix => h ?_
  have hfits : c :: before ++ mark.dropLast <+: c :: before ++ (mark ++ rest) :=
    (List.prefix_append_right_inj _).mpr ((List.dropLast_prefix mark).trans (List.prefix_append _ _))
  refine (List.prefix_of_prefix_length_le (List.isPrefixOf_iff_prefix.mp hprefix) hfits ?_).isInfix
  simp only [List.length_append, List.length_cons, List.length_dropLast]
  omega

theorem after?_append (hmark : mark ≠ []) (h : ¬ mark <:+: before ++ mark.dropLast)
    (rest : List Char) : after? mark (before ++ (mark ++ rest)) = some rest := by
  induction before with
  | nil =>
    obtain ⟨first, others, rfl⟩ := List.exists_cons_of_ne_nil hmark
    simp [after?]
  | cons c before ih =>
    have hlater : ¬ mark <:+: before ++ mark.dropLast := fun hm => h (List.infix_cons hm)
    rw [List.cons_append, after?, ← List.cons_append, not_isPrefixOf h, ih hlater,
      if_neg Bool.false_ne_true]

theorem before?_append (hmark : mark ≠ []) (h : ¬ mark <:+: before ++ mark.dropLast)
    (rest : List Char) : before? mark (before ++ (mark ++ rest)) = some before := by
  induction before with
  | nil =>
    obtain ⟨first, others, rfl⟩ := List.exists_cons_of_ne_nil hmark
    simp [before?]
  | cons c before ih =>
    have hlater : ¬ mark <:+: before ++ mark.dropLast := fun hm => h (List.infix_cons hm)
    rw [List.cons_append, before?, ← List.cons_append, not_isPrefixOf h, ih hlater,
      if_neg Bool.false_ne_true, Option.map_some]

theorem prefix_of_prefix_append (before : List Char) (hc : c ∉ mark)
    (h : mark <+: before ++ c :: rest) : mark <+: before := by
  induction before generalizing mark with
  | nil =>
    rcases List.prefix_cons_iff.mp h with rfl | ⟨others, rfl, -⟩
    · exact List.nil_prefix
    · exact absurd List.mem_cons_self hc
  | cons first before ih =>
    rcases List.prefix_cons_iff.mp h with rfl | ⟨others, rfl, hothers⟩
    · exact List.nil_prefix
    · exact List.cons_prefix_cons.mpr ⟨rfl, ih (fun hm => hc (List.mem_cons_of_mem _ hm)) hothers⟩

/-- A character that is not in a mark parts the places where the mark can be. -/
theorem infix_before_or_after (hc : c ∉ mark) (h : mark <:+: before ++ c :: rest) :
    mark <:+: before ∨ mark <:+: rest := by
  induction before with
  | nil =>
    rcases List.infix_cons_iff.mp h with h | h
    · exact .inl (prefix_of_prefix_append [] hc h).isInfix
    · exact .inr h
  | cons first before ih =>
    rcases List.infix_cons_iff.mp h with h | h
    · exact .inl (prefix_of_prefix_append (first :: before) hc h).isInfix
    · exact (ih h).imp_left List.infix_cons

-- ---------------------------------------------------------------------------
-- Marks of comments
-- ---------------------------------------------------------------------------

theorem not_opened (h : ¬ "/**".toList <:+: before) :
    ¬ "/**".toList <:+: before ++ "/**".toList.dropLast := by
  have hparts : before ++ "/**".toList.dropLast = before ++ ['/'] ++ ['*'] := by simp
  rw [hparts, List.infix_concat_iff, List.infix_concat_iff]
  rintro (⟨others, heq⟩ | ⟨others, heq⟩ | hbefore)
  · exact absurd (congrArg List.reverse heq) (by simp)
  · exact absurd (congrArg List.reverse heq) (by simp)
  · exact h hbefore

def docBody (lines : List (List Char)) : List Char := '\n' :: starred lines ++ [' ']

theorem starred_cons (line : List Char) (lines : List (List Char)) :
    starred (line :: lines) = " * ".toList ++ line ++ '\n' :: starred lines := by
  simp [starred]

theorem not_closed (h : ∀ line ∈ lines, ¬ "*/".toList <:+: line) :
    ¬ "*/".toList <:+: docBody lines ++ "*/".toList.dropLast := by
  have hstarred : ¬ "*/".toList <:+: starred lines ++ " *".toList := by
    induction lines with
    | nil => decide
    | cons line lines ih =>
      obtain ⟨hline, hlines⟩ := List.forall_mem_cons.mp h
      -- The blank after the star and the end of the line part the text.
      have hparts : starred (line :: lines) ++ " *".toList =
          " *".toList ++ ' ' :: (line ++ '\n' :: (starred lines ++ " *".toList)) := by
        simp [starred_cons]
      rw [hparts]
      intro hm
      rcases infix_before_or_after (by decide) hm with hm | hm
      · exact absurd hm (by decide)
      · exact (infix_before_or_after (by decide) hm).elim hline (ih hlines)
  have hparts : docBody lines ++ "*/".toList.dropLast =
      [] ++ '\n' :: (starred lines ++ " *".toList) := by
    simp [docBody]
  rw [hparts]
  intro hm
  rcases infix_before_or_after (by decide) hm with hm | hm
  · exact absurd hm (by decide)
  · exact hstarred hm

theorem docBlock_eq (lines : List (List Char)) :
    docBlock lines = "/**".toList ++ (docBody lines ++ "*/".toList) := by
  show "/**".toList ++ '\n' :: (starred lines ++ ([' '] ++ "*/".toList)) = _
  rw [docBody, List.append_assoc]
  rfl

theorem docComment?_docBlock (hlines : ∀ line ∈ lines, IsDocLine line)
    (hbefore : ¬ "/**".toList <:+: before) (rest : List Char) :
    docComment? (before ++ docBlock lines ++ rest) = some (docBody lines) := by
  have hblock : before ++ docBlock lines ++ rest =
      before ++ ("/**".toList ++ (docBody lines ++ ("*/".toList ++ rest))) := by
    simp only [docBlock_eq, List.append_assoc]
  rw [docComment?, hblock, after?_append (by decide) (not_opened hbefore), Option.bind_some,
    before?_append (by decide) (not_closed fun line hm => (hlines line hm).unclosed)]

-- ---------------------------------------------------------------------------
-- Lines of comments
-- ---------------------------------------------------------------------------

/-- One star is taken off; what follows its blank is the line, stars and all. -/
theorem undecorate_star (h : IsTrimmed line) : undecorate (" * ".toList ++ line) = line := by
  have hbody : (" * ".toList ++ line).dropWhile Text.isBlank = "* ".toList ++ line := rfl
  have hstar : ("* ".toList ++ line).dropWhile (· = '*') = ' ' :: line := rfl
  rw [undecorate, hbody, hstar, Text.trim_cons (by decide), h.trim_eq]

theorem splitLines_docBody (hlines : ∀ line ∈ lines, IsDocLine line) :
    Text.splitLines (docBody lines) =
      [] :: lines.map (fun line => " * ".toList ++ line) ++ [[' ']] := by
  have hstarred : Text.splitLines (starred lines ++ [' ']) =
      lines.map (fun line => " * ".toList ++ line) ++ [[' ']] := by
    induction lines with
    | nil => rfl
    | cons line lines ih =>
      obtain ⟨hline, hlines⟩ := List.forall_mem_cons.mp hlines
      have hunbroken : ∀ c ∈ " * ".toList ++ line, Text.isLineEnd c = false := by
        intro c hc
        rcases List.mem_append.mp hc with hc | hc
        · have hstar : " * ".toList.all (!Text.isLineEnd ·) = true := by decide
          simpa using List.all_eq_true.mp hstar c hc
        · exact hline.unbroken c hc
      rw [starred_cons, List.append_assoc, List.cons_append, Text.splitLines_append hunbroken,
        ih hlines, List.map_cons, List.cons_append]
  rw [docBody, List.cons_append, List.cons_append, ← hstarred]
  exact Text.splitLines_append (List.forall_mem_nil (Text.isLineEnd · = false)) _

theorem joinLines_docBody (hlines : ∀ line ∈ lines, IsDocLine line) :
    joinLines ((Text.splitLines (docBody lines)).map undecorate) = List.intercalate [' '] lines := by
  have hundecorated : (lines.map fun line => " * ".toList ++ line).map undecorate = lines := by
    rw [List.map_map]
    exact (List.map_congr_left fun line hm => undecorate_star (hlines line hm).trimmed).trans
      (List.map_id _)
  have hkept : lines.filter (· ≠ []) = lines :=
    List.filter_eq_self.mpr fun line hm => by simpa using (hlines line hm).ne_nil
  have hmargins : undecorate [] = [] ∧ undecorate [' '] = [] := by decide
  rw [splitLines_docBody hlines, List.map_append, List.map_cons, hundecorated, List.map_singleton,
    hmargins.1, hmargins.2, joinLines, List.filter_append, List.filter_cons_of_neg (by simp), hkept,
    List.filter_cons_of_neg (by simp), List.filter_nil, List.append_nil]

-- ---------------------------------------------------------------------------
-- Files
-- ---------------------------------------------------------------------------

theorem not_mem_cr_docBlock (hlines : ∀ line ∈ lines, IsDocLine line) : '\r' ∉ docBlock lines := by
  intro hreturn
  rcases List.mem_append.mp hreturn with hreturn | hreturn
  · rcases List.mem_append.mp hreturn with hreturn | hreturn
    · exact absurd hreturn (by decide)
    · obtain ⟨line, hline, hreturn⟩ := List.mem_flatMap.mp hreturn
      have hbare : '\r' ∉ line := fun hm => absurd ((hlines line hline).unbroken _ hm) (by decide)
      simp [hbare] at hreturn
  · exact absurd hreturn (by decide)

/-- A comment begins and ends within a line, so the texts around it keep their line ends apart. -/
theorem unifyLineEnds_docBlock (hlines : ∀ line ∈ lines, IsDocLine line) (before rest : List Char) :
    Text.unifyLineEnds (before ++ docBlock lines ++ rest) =
      Text.unifyLineEnds before ++ docBlock lines ++ Text.unifyLineEnds rest := by
  have hhead : (docBlock lines).head? = some '/' := rfl
  have hsome : docBlock lines ≠ [] := List.ne_nil_of_mem (List.mem_of_head? hhead)
  have hfeed : (docBlock lines).head? ≠ some '\n' := hhead ▸ by decide
  exact Text.unifyLineEnds_around hsome hfeed (not_mem_cr_docBlock hlines) before rest

theorem ofScript_docBlock (hlines : ∀ line ∈ lines, IsDocLine line) (hsome : lines ≠ [])
    (hbefore : ¬ "/**".toList <:+: before) (rest : List Char) :
    ofScript (before ++ docBlock lines ++ rest) = String.ofList (List.intercalate [' '] lines) := by
  have hjoined : List.intercalate [' '] lines ≠ [] :=
    Text.intercalate_ne_nil hsome fun line hm => (hlines line hm).ne_nil
  rw [ofScript, docComment?_docBlock hlines hbefore]
  dsimp only
  rw [joinLines_docBody hlines]
  split
  · next hnil => exact absurd hnil hjoined
  · rfl

theorem ofName_script {name : String} (h : Text.lower (Path.suffixOf name) ∈ scriptExtensions) :
    Method.ofName name = .docComment := by
  have hname : name ≠ packageFile := by
    rintro rfl
    exact absurd h (by decide)
  rw [Method.ofName]
  generalize Text.lower (Path.suffixOf name) = extension at h ⊢
  have hothers : extension ≠ ".md" ∧ extension ≠ ".json" ∧ extension ∉ yamlExtensions := by
    revert extension
    decide
  simp [hname, hothers, h]

structure IsScript (fs : FileSystem) (path : String) (text : List Char) : Prop where
  extension : Text.lower (Path.suffixOf (Path.ofString path).name) ∈ scriptExtensions
  nullFree : FileSystem.hasNull (Path.ofString path) = false
  read : ∃ octets, fs.read (Path.ofString path) = .ok octets ∧
    textOf octets = Text.unifyLineEnds text
  null_not_mem : '\x00' ∉ text

theorem IsScript.describe_eq {fs : FileSystem} {path : String} {text : List Char}
    (h : IsScript fs path text) :
    describe fs path = Report.pure (ofScript (Text.unifyLineEnds text)) := by
  obtain ⟨octets, hread, htext⟩ := h.read
  have hbinary : isBinaryContent octets = false := by
    refine isBinaryContent_eq_false (zero_not_mem ?_ _)
    rw [htext, Text.mem_unifyLineEnds (by decide) (by decide)]
    exact h.null_not_mem
  have hcontent : ofContent? .docComment octets =
      some (ofScript (Text.unifyLineEnds text)) := by
    simp only [ofContent?, hbinary, Bool.false_eq_true, if_false, Option.map_some, htext]
  exact describe_of_content (ofName_script h.extension) rfl h.nullFree hread hcontent

/-- A script is described by the lines of its documentation comment, whatever stands before and
after the comment and however the line ends of the file are written. -/
theorem describe_docBlock {fs : FileSystem} {path : String} {octets : List UInt8}
    {before after : List Char} {lines : List (List Char)}
    (hscript : Text.lower (Path.suffixOf (Path.ofString path).name) ∈ scriptExtensions)
    (hpath : FileSystem.hasNull (Path.ofString path) = false)
    (hread : fs.read (Path.ofString path) = .ok octets)
    (htext : textOf octets = Text.unifyLineEnds (before ++ docBlock lines ++ after))
    (hnull : '\x00' ∉ before ++ docBlock lines ++ after) (hbefore : ¬ "/**".toList <:+: before)
    (hsome : lines ≠ []) (hlines : ∀ line ∈ lines, IsDocLine line) :
    describe fs path = Report.pure (String.ofList (List.intercalate [' '] lines)) := by
  have hscript : IsScript fs path (before ++ docBlock lines ++ after) :=
    ⟨hscript, hpath, ⟨octets, hread, htext⟩, hnull⟩
  have hunopened : ¬ "/**".toList <:+: Text.unifyLineEnds before :=
    fun h => hbefore (Text.infix_of_infix_unifyLineEnds (by decide) h)
  rw [hscript.describe_eq, unifyLineEnds_docBlock hlines,
    ofScript_docBlock hlines hsome hunopened]

def starredLines : List (List Char) :=
  ["* again /** and // so on".toList, "/* half closed * /".toList, "é**".toList]

def starredText : List Char :=
  "/* first */ //*\r".toList ++ docBlock starredLines ++ "\r\n/** other */".toList

def starredFiles : FileSystem where
  entries := [(["app.TSX"], .file (Text.Utf8.encode (String.ofList starredText)))]
  working := []
  home := "/"
  unreadable := []

theorem describe_docBlock_starred :
    describe starredFiles "app.TSX" =
      Report.pure "* again /** and // so on /* half closed * / é**" := by
  have hread : starredFiles.read (Path.ofString "app.TSX") =
      .ok (Text.Utf8.encode (String.ofList starredText)) := by
    rfl
  have htext : textOf (Text.Utf8.encode (String.ofList starredText)) =
      Text.unifyLineEnds starredText := by
    rw [textOf_encode, String.toList_ofList]
  have hlines : ∀ line ∈ starredLines, IsDocLine line := by decide +kernel
  have hbefore : ¬ "/**".toList <:+: "/* first */ //*\r".toList := by decide +kernel
  have hjoined : String.ofList (List.intercalate [' '] starredLines) =
      "* again /** and // so on /* half closed * / é**" := rfl
  rw [← hjoined]
  exact describe_docBlock (by decide) (by decide) hread htext (by decide) hbefore (by decide) hlines

end TreeManifest.Description
