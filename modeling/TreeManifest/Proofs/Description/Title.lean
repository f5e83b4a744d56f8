import TreeManifest.Proofs.Description.Content

/-!
# Titles are read off first lines

A Markdown file is described by the title on the first of its lines that has one (`describe_title`).
A line is told by where it stands in the text: from the start of the text or behind a line feed, up to
a line feed or the end of the text (`IsLineOf`). No other character ends it. The stretches that the
text is cut into are these lines, in their order (`isLineOf_intercalate`, `IsLineOf.exists_front`).
-/

namespace TreeManifest.Description

variable {text before line after title : List Char} {lines : List (List Char)}

-- ---------------------------------------------------------------------------
-- Lines in their places
-- ---------------------------------------------------------------------------

structure IsLineOf (text before line after : List Char) : Prop where
  text_eq : text = before ++ (line ++ after)
  unbroken : '\n' ∉ line
  opens : ∀ c ∈ before.getLast?, c = '\n'
  closes : ∀ c ∈ after.head?, c = '\n'

def ended (lines : List (List Char)) : List Char := lines.flatMap fun line => line ++ ['\n']

theorem ended_append (lines others : List (List Char)) :
    ended (lines ++ others) = ended lines ++ ended others :=
  List.flatMap_append

theorem getLast?_ended (lines : List (List Char)) : ∀ c ∈ (ended lines).getLast?, c = '\n' := by
  rcases List.eq_nil_or_concat lines with rfl | ⟨front, line, rfl⟩
  · simp [ended]
  · rw [List.concat_eq_append, ended_append]
    simp [ended]

theorem intercalate_eq_flatMap (line : List Char) (rest : List (List Char)) :
    List.intercalate ['\n'] (line :: rest) = line ++ rest.flatMap fun other => '\n' :: other := by
  induction rest generalizing line with
  | nil => simp
  | cons next rest ih =>
    rw [List.intercalate_cons_cons, ih next]
    simp

theorem intercalate_front (front rest : List (List Char)) (line : List Char) :
    List.intercalate ['\n'] (front ++ line :: rest) =
      ended front ++ (line ++ rest.flatMap fun other => '\n' :: other) := by
  induction front with
  | nil => exact intercalate_eq_flatMap line rest
  | cons first front ih =>
    rw [List.cons_append, List.intercalate_cons_of_ne_nil (by simp), ih]
    simp [ended]

theorem isLineOf_intercalate (front rest : List (List Char)) (h : '\n' ∉ line) :
    IsLineOf (List.intercalate ['\n'] (front ++ line :: rest)) (ended front) line
      (rest.flatMap fun other => '\n' :: other) where
  text_eq := intercalate_front front rest line
  unbroken := h
  opens := getLast?_ended front
  closes := by cases rest <;> simp

/-- What stands before a line is nothing, or the first line with its end and more. -/
theorem IsLineOf.before_cases {first rest : List Char} (h : IsLineOf text before line after)
    (hfirst : '\n' ∉ first) (htext : text = first ++ '\n' :: rest) :
    before = [] ∨ ∃ front, before = first ++ '\n' :: front ∧ IsLineOf rest front line after := by
  rcases List.eq_nil_or_concat before with rfl | ⟨start, c, rfl⟩
  · exact .inl rfl
  have hc : c = '\n' := h.opens c (by simp)
  subst hc
  right
  have heq := htext.symm.trans h.text_eq
  rcases List.append_eq_append_iff.mp heq with ⟨more, hmore, hrest⟩ | ⟨more, hmore, -⟩
  · -- The first line feed of the text is at or before the one that opens the line.
    cases more with
    | nil => exact absurd (show '\n' ∈ first by rw [← List.append_nil first, ← hmore]; simp) hfirst
    | cons c more =>
      obtain ⟨rfl, hline⟩ := List.cons.inj hrest
      refine ⟨more, hmore, ⟨hline, h.unbroken, fun c hc => ?_, h.closes⟩⟩
      refine h.opens c ?_
      rw [hmore, List.getLast?_append, List.getLast?_cons]
      simp [Option.mem_def.mp hc]
  · exact absurd (by rw [hmore]; simp) hfirst

theorem IsLineOf.eq_first {first rest : List Char} (h : IsLineOf text [] line after)
    (hfirst : '\n' ∉ first) (htext : text = first ++ '\n' :: rest) : line = first := by
  have heq := h.text_eq.symm.trans htext
  rw [List.nil_append] at heq
  rcases List.append_eq_append_iff.mp heq with ⟨more, hmore, hafter⟩ | ⟨more, hmore, hrest⟩
  · cases more with
    | nil => rw [hmore, List.append_nil]
    | cons c more =>
      have hc : c = '\n' := h.closes c (by rw [hafter]; rfl)
      exact absurd (by rw [hmore, hc]; simp) hfirst
  · cases more with
    | nil => rw [hmore, List.append_nil]
    | cons c more =>
      obtain ⟨rfl, -⟩ := List.cons_eq_cons.mp hrest
      exact absurd (by rw [hmore]; simp) h.unbroken

theorem IsLineOf.eq_only (h : IsLineOf text before line after) (htext : '\n' ∉ text) :
    before = [] ∧ line = text := by
  have hbefore : before = [] := by
    rcases List.eq_nil_or_concat before with rfl | ⟨start, c, rfl⟩
    · rfl
    · have hc : c = '\n' := h.opens c (by simp)
      exact absurd (by rw [h.text_eq, hc]; simp) htext
  have hafter : after = [] := by
    cases after with
    | nil => rfl
    | cons c after =>
      have hc : c = '\n' := h.closes c rfl
      exact absurd (by rw [h.text_eq, hc]; simp) htext
  refine ⟨hbefore, ?_⟩
  rw [h.text_eq, hbefore, hafter, List.nil_append, List.append_nil]

/-- A line in a text of joined lines is one of these, behind the lines before it. -/
theorem IsLineOf.exists_front (h : IsLineOf (List.intercalate ['\n'] lines) before line after)
    (hlines : ∀ other ∈ lines, '\n' ∉ other) (hsome : lines ≠ []) :
    ∃ front rest, lines = front ++ line :: rest ∧ before = ended front := by
  induction lines generalizing before with
  | nil => exact absurd rfl hsome
  | cons first others ih =>
    obtain ⟨hfirst, hothers⟩ := List.forall_mem_cons.mp hlines
    cases others with
    | nil =>
      rw [List.intercalate_singleton] at h
      obtain ⟨rfl, rfl⟩ := h.eq_only hfirst
      exact ⟨[], [], rfl, rfl⟩
    | cons next others =>
      rw [List.intercalate_cons_cons, List.append_assoc, List.singleton_append] at h
      rcases h.before_cases hfirst rfl with rfl | ⟨before', rfl, hline⟩
      · exact ⟨[], next :: others, by rw [h.eq_first hfirst rfl]; rfl, rfl⟩
      · obtain ⟨front, rest, hsplit, rfl⟩ := ih hline hothers (by simp)
        refine ⟨first :: front, rest, by rw [hsplit]; rfl, ?_⟩
        simp [ended]

-- ---------------------------------------------------------------------------
-- Lines with a title
-- ---------------------------------------------------------------------------

def IsTitleLine (line : List Char) : Prop := ∃ title, title ≠ [] ∧ line = "# ".toList ++ title

def IsFirstTitle (text title : List Char) : Prop :=
  title ≠ [] ∧ ∃ before after, IsLineOf text before ("# ".toList ++ title) after ∧
    ∀ before' line' after', IsLineOf text before' line' after' → IsTitleLine line' →
      before.length ≤ before'.length

def titleOn? : List Char → Option (List Char)
  | '#' :: ' ' :: c :: rest => some (c :: rest)
  | _ => none

theorem heading?_eq (text : List Char) : heading? text = (text.splitOn '\n').findSome? titleOn? := rfl

theorem titleOn?_eq_some : titleOn? line = some title ↔ title ≠ [] ∧ line = "# ".toList ++ title := by
  constructor
  · intro h
    unfold titleOn? at h
    split at h <;> cases h
    exact ⟨by simp, rfl⟩
  · rintro ⟨hsome, rfl⟩
    obtain ⟨c, rest, rfl⟩ := List.exists_cons_of_ne_nil hsome
    rfl

theorem titleOn?_eq_none : titleOn? line = none ↔ ¬ IsTitleLine line := by
  rw [Option.eq_none_iff_forall_ne_some, IsTitleLine, not_exists]
  exact forall_congr' fun title => not_congr titleOn?_eq_some

theorem isLineOf_iff : (∃ after, IsLineOf text before line after) ↔
    ∃ front rest, text.splitOn '\n' = front ++ line :: rest ∧ before = ended front := by
  have hunbroken : ∀ other ∈ text.splitOn '\n', '\n' ∉ other := fun other hm hfeed =>
    (Text.mem_splitOn text other hm '\n' hfeed).1 rfl
  have hjoined : List.intercalate ['\n'] (text.splitOn '\n') = text := List.intercalate_splitOn '\n'
  constructor
  · rintro ⟨after, h⟩
    rw [← hjoined] at h
    exact h.exists_front hunbroken (List.splitOn_ne_nil _ _)
  · rintro ⟨front, rest, hlines, rfl⟩
    have hline := isLineOf_intercalate front rest (hunbroken line (by rw [hlines]; simp))
    rw [← hlines, hjoined] at hline
    exact ⟨_, hline⟩

theorem isFirstTitle_of_heading? (h : heading? text = some title) : IsFirstTitle text title := by
  rw [heading?_eq, List.findSome?_eq_some_iff] at h
  obtain ⟨front, line, rest, hlines, htitle, hfront⟩ := h
  obtain ⟨hsome, rfl⟩ := titleOn?_eq_some.mp htitle
  obtain ⟨after, hline⟩ := isLineOf_iff.mpr ⟨front, rest, hlines, rfl⟩
  refine ⟨hsome, ended front, after, hline, fun before' line' after' hline' htitle' => ?_⟩
  obtain ⟨front', rest', hlines', rfl⟩ := isLineOf_iff.mp ⟨after', hline'⟩
  -- No line with a title is among those before the first one.
  rcases List.append_eq_append_iff.mp (hlines.symm.trans hlines') with
    ⟨more, hmore, -⟩ | ⟨more, hmore, hrest⟩
  · rw [hmore, ended_append, List.length_append]
    exact Nat.le_add_right _ _
  · cases more with
    | nil => rw [hmore, List.append_nil]
    | cons first more =>
      obtain ⟨rfl, -⟩ := List.cons_eq_cons.mp hrest
      exact absurd htitle' (titleOn?_eq_none.mp (hfront line' (by rw [hmore]; simp)))

theorem not_isTitleLine_of_heading? (h : heading? text = none)
    (hline : IsLineOf text before line after) :
    ¬ IsTitleLine line := by
  rw [heading?_eq, List.findSome?_eq_none_iff] at h
  obtain ⟨front, rest, hlines, -⟩ := isLineOf_iff.mp ⟨after, hline⟩
  exact titleOn?_eq_none.mp (h line (by rw [hlines]; simp))

-- ---------------------------------------------------------------------------
-- Descriptions
-- ---------------------------------------------------------------------------

theorem trimmedOr_eq (fallback : String) (cs : List Char) :
    trimmedOr fallback cs =
      if Text.trim cs = [] then fallback else String.ofList (Text.trim cs) := by
  unfold trimmedOr
  rcases Text.trim cs with _ | ⟨c, rest⟩
  · rfl
  · simp

theorem ofName_markdown {name : String} (h : Text.lower (Path.suffixOf name) = ".md") :
    Method.ofName name = .title := by
  rw [Method.ofName]
  simp [h]

/-- A Markdown file is described by its first title without the blanks around it, and as
documentation if nothing remains of the title or no line has one. -/
theorem describe_title {fs : FileSystem} {path : String} {octets : List UInt8}
    (hmarkdown : Text.lower (Path.suffixOf (Path.ofString path).name) = ".md")
    (hpath : FileSystem.hasNull (Path.ofString path) = false)
    (hread : fs.read (Path.ofString path) = .ok octets) (hsample : 0 ∉ octets.take sampleSize) :
    let text := Text.unifyLineEnds (Text.Utf8.decodeLossy octets)
    ((∃ before line after, IsLineOf text before line after ∧ IsTitleLine line) →
      ∃ title, IsFirstTitle text title ∧ describe fs path = Report.pure
        (if Text.trim title = [] then documentationText else String.ofList (Text.trim title))) ∧
    ((¬ ∃ before line after, IsLineOf text before line after ∧ IsTitleLine line) →
      describe fs path = Report.pure documentationText) := by
  intro text
  have hcontent : ofContent? .title octets = some (ofMarkdown text) := by
    simp only [ofContent?, isBinaryContent_eq_false hsample, Bool.false_eq_true, if_false,
      Option.map_some]
    rfl
  rw [describe_of_content (ofName_markdown hmarkdown) rfl hpath hread hcontent]
  rcases hheading : heading? text with _ | title
  · rw [ofMarkdown, hheading]
    exact ⟨fun ⟨_, _, _, hline, htitle⟩ =>
      absurd htitle (not_isTitleLine_of_heading? hheading hline), fun _ => rfl⟩
  · have hfirst := isFirstTitle_of_heading? hheading
    rw [ofMarkdown, hheading]
    refine ⟨fun _ => ⟨title, hfirst, congrArg Report.pure (trimmedOr_eq _ _)⟩, fun hnone => ?_⟩
    obtain ⟨hsome, before, after, hline, -⟩ := hfirst
    exact absurd ⟨before, _, after, hline, title, hsome, rfl⟩ hnone

def mixedOctets : List UInt8 :=
  0xC3 :: Text.Utf8.encode "\r#\r\n# A\u2028# B \r# C"

def mixedFiles : FileSystem where
  entries := [(["notes.MD"], .file mixedOctets)]
  working := []
  home := "/"
  unreadable := []

theorem describe_title_mixedEnds :
    Text.lower (Path.suffixOf (Path.ofString "notes.MD").name) = ".md" ∧
      FileSystem.hasNull (Path.ofString "notes.MD") = false ∧
      mixedFiles.read (Path.ofString "notes.MD") = .ok mixedOctets ∧
      0 ∉ mixedOctets.take sampleSize ∧
      describe mixedFiles "notes.MD" = Report.pure "A\u2028# B" ∧
      ∃ title, IsFirstTitle "\uFFFD\n#\n# A\u2028# B \n# C".toList title ∧
        describe mixedFiles "notes.MD" = Report.pure
          (if Text.trim title = [] then documentationText else String.ofList (Text.trim title)) := by
  have hmarkdown : Text.lower (Path.suffixOf (Path.ofString "notes.MD").name) = ".md" := by
    decide +kernel
  have hpath : FileSystem.hasNull (Path.ofString "notes.MD") = false := by decide +kernel
  have hread : mixedFiles.read (Path.ofString "notes.MD") = .ok mixedOctets := by rfl
  have hsample : 0 ∉ mixedOctets.take sampleSize := by decide +kernel
  have htext : Text.unifyLineEnds (Text.Utf8.decodeLossy mixedOctets) =
      "\uFFFD\n#\n# A\u2028# B \n# C".toList := by decide +kernel
  have hdescribed := (describe_title hmarkdown hpath hread hsample).1
  rw [htext] at hdescribed
  refine ⟨hmarkdown, hpath, hread, hsample, rfl, hdescribed ⟨"\uFFFD\n#\n".toList,
    "# A\u2028# B ".toList, "\n# C".toList, ⟨rfl, by decide, by simp, by simp⟩,
    "A\u2028# B ".toList, by decide, rfl⟩⟩

end TreeManifest.Description
