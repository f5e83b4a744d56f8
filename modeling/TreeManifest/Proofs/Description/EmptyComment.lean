import TreeManifest.Proofs.Description.DocComment

/-!
# Empty comments

An empty comment is no documentation, but its first three characters are those that open one. So the
text after it is told up to the end of the next comment, code and all (`describe_emptyComment`). In
front of a text in which no comment ends it does no harm.
-/

namespace TreeManifest.Description

variable {mark before rest after code comment cs : List Char} {c : Char}

-- ---------------------------------------------------------------------------
-- Marks
-- ---------------------------------------------------------------------------

theorem after?_pass (hc : c ∉ mark) (hmark : mark ≠ []) (h : ¬ mark <:+: before) :
    after? mark (before ++ c :: rest) = after? mark rest := by
  have hskip : ∀ front : List Char, ¬ mark <+: front →
      mark.isPrefixOf (front ++ c :: rest) = false := fun front hfront =>
    eq_false_of_ne_true fun hp =>
      hfront (prefix_of_prefix_append front hc (List.isPrefixOf_iff_prefix.mp hp))
  induction before with
  | nil =>
    have hnil : ¬ mark <+: [] := fun hp => hmark (List.prefix_nil.mp hp)
    have hfirst := hskip [] hnil
    rw [List.nil_append] at hfirst ⊢
    rw [after?, hfirst, if_neg Bool.false_ne_true]
  | cons first before ih =>
    have hfirst := hskip (first :: before) fun hp => h hp.isInfix
    rw [List.cons_append] at hfirst ⊢
    rw [after?, hfirst, if_neg Bool.false_ne_true, ih fun hm => h (List.infix_cons hm)]

theorem after?_suffix (h : after? mark cs = some rest) : rest <:+ cs := by
  fun_induction after? mark cs with
  | case1 => cases h; exact List.suffix_rfl
  | case2 => cases h
  | case3 c cs hstarts => cases h; exact List.drop_suffix _ _
  | case4 c cs hstarts ih => exact (ih h).trans (List.suffix_cons c cs)

theorem before?_eq_none (h : ¬ mark <:+: cs) : before? mark cs = none := by
  fun_induction before? mark cs with
  | case1 hmark => exact absurd (hmark ▸ List.nil_infix) h
  | case2 => rfl
  | case3 c cs hstarts => exact absurd (List.isPrefixOf_iff_prefix.mp hstarts).isInfix h
  | case4 c cs hstarts ih => rw [ih fun hm => h (List.infix_cons hm), Option.map_none]

theorem docComment?_eq_none (h : ¬ "*/".toList <:+: cs) : docComment? cs = none := by
  refine Option.bind_eq_none_iff.mpr fun rest hrest => before?_eq_none fun hm => ?_
  exact h (hm.trans (after?_suffix hrest).isInfix)

theorem not_closed_before (h : ¬ "*/".toList <:+: before) :
    ¬ "*/".toList <:+: before ++ "*/".toList.dropLast := by
  have hparts : before ++ "*/".toList.dropLast = before ++ ['*'] := rfl
  rw [hparts, List.infix_concat_iff]
  rintro (⟨others, heq⟩ | hbefore)
  · exact absurd (congrArg List.reverse heq) (by simp)
  · exact h hbefore

-- ---------------------------------------------------------------------------
-- What is told of a comment
-- ---------------------------------------------------------------------------

def told (comment : List Char) : String :=
  match joinLines ((Text.splitLines comment).map undecorate) with
  | [] => sourceText
  | text => String.ofList text

theorem ofScript_of_docComment (h : docComment? cs = some comment) : ofScript cs = told comment := by
  rw [ofScript, h]
  rfl

theorem ofScript_of_uncommented (h : docComment? cs = none) : ofScript cs = sourceText := by
  rw [ofScript, h]

theorem undecorate_cons (hblank : Text.isBlank c = false) (hstar : c ≠ '*') (line : List Char) :
    ∃ kept, undecorate (c :: line) = c :: kept := by
  rw [undecorate, List.dropWhile_cons_of_neg (by simp [hblank]),
    List.dropWhile_cons_of_neg (by simpa using hstar)]
  obtain ⟨front, back, hparts, hfront, hback, -⟩ := Text.exists_margins Text.isBlank (c :: line)
  rw [← Text.trim] at hparts
  have hnofront : front = [] := by
    cases front with
    | nil => rfl
    | cons first front =>
      obtain ⟨rfl, -⟩ := List.cons.inj hparts
      exact absurd (hfront c List.mem_cons_self) (by simp [hblank])
  rw [hnofront, List.nil_append] at hparts
  cases hkept : Text.trim (c :: line) with
  | nil =>
    rw [hkept, List.nil_append] at hparts
    exact absurd (hback c (hparts ▸ List.mem_cons_self)) (by simp [hblank])
  | cons first kept =>
    rw [hkept] at hparts
    obtain ⟨rfl, -⟩ := List.cons.inj hparts
    exact ⟨kept, rfl⟩

theorem splitLines_cons (hend : Text.isLineEnd c = false) (cs : List Char) :
    ∃ line lines, Text.splitLines (c :: cs) = (c :: line) :: lines := by
  have hreturn : c ≠ '\r' := by
    rintro rfl
    cases hend
  rw [Text.splitLines]
  · rw [hend, if_neg Bool.false_ne_true]
    rcases Text.splitLines cs with _ | ⟨line, lines⟩
    · exact ⟨[], [], rfl⟩
    · exact ⟨line, lines, rfl⟩
  · exact fun _ heq => absurd heq hreturn

/-- A comment whose text starts with a character of a word is told from that on. -/
theorem told_cons (hend : Text.isLineEnd c = false) (hblank : Text.isBlank c = false)
    (hstar : c ≠ '*') (cs : List Char) : ∃ text, told (c :: cs) = String.ofList (c :: text) := by
  obtain ⟨line, lines, hlines⟩ := splitLines_cons hend cs
  obtain ⟨kept, hkept⟩ := undecorate_cons hblank hstar line
  have hjoined : ∃ text, joinLines ((Text.splitLines (c :: cs)).map undecorate) = c :: text := by
    rw [hlines, List.map_cons, hkept, joinLines, List.filter_cons_of_pos (by simp)]
    rcases (lines.map undecorate).filter (· ≠ []) with _ | ⟨next, more⟩
    · exact ⟨kept, List.intercalate_singleton⟩
    · rw [List.intercalate_cons_cons]
      exact ⟨_, rfl⟩
  obtain ⟨text, htext⟩ := hjoined
  exact ⟨text, by rw [told, htext]⟩

-- ---------------------------------------------------------------------------
-- Scripts
-- ---------------------------------------------------------------------------

/-- A text without an opening mark, with a blank after it, changes nothing. -/
theorem docComment?_blank (h : ¬ "/**".toList <:+: before) :
    docComment? (before ++ ' ' :: after) = docComment? after := by
  rw [docComment?, docComment?, after?_pass (by decide) (by decide) h]

/-- An empty comment opens one that ends with the next closing mark. -/
theorem docComment?_emptyComment (h : ¬ "/**".toList <:+: before) :
    docComment? (before ++ "/**/".toList ++ after) = before? "*/".toList ('/' :: after) := by
  have hparts : before ++ "/**/".toList ++ after =
      before ++ ("/**".toList ++ ('/' :: after)) := by simp
  rw [docComment?, hparts, after?_append (by decide) (not_opened h), Option.bind_some]

theorem not_closed_cons (h : ¬ "*/".toList <:+: code) : ¬ "*/".toList <:+: '/' :: code := by
  rw [List.infix_cons_iff]
  rintro (hstarts | hwithin)
  · exact absurd hstarts (by simp)
  · exact h hwithin

theorem docComment?_code (h : ¬ "/**".toList <:+: before) (hcode : ¬ "*/".toList <:+: code) :
    docComment? (before ++ "/**/".toList ++ (code ++ "*/".toList ++ rest)) =
      some ('/' :: code) := by
  have hparts : '/' :: (code ++ "*/".toList ++ rest) =
      '/' :: code ++ ("*/".toList ++ rest) := by simp
  rw [docComment?_emptyComment h, hparts,
    before?_append (by decide) (not_closed_before (not_closed_cons hcode))]

theorem unifyLineEnds_emptyComment (before after : List Char) :
    Text.unifyLineEnds (before ++ "/**/".toList ++ after) =
      Text.unifyLineEnds before ++ "/**/".toList ++ Text.unifyLineEnds after :=
  Text.unifyLineEnds_around (by decide) (by decide) (by decide) before after

theorem unifyLineEnds_blank (before after : List Char) :
    Text.unifyLineEnds (before ++ ' ' :: after) =
      Text.unifyLineEnds before ++ ' ' :: Text.unifyLineEnds after := by
  have haround := @Text.unifyLineEnds_around [' '] (by decide) (by decide) (by decide) before after
  rwa [List.append_assoc, List.append_assoc] at haround

theorem unifyLineEnds_code (code rest : List Char) :
    Text.unifyLineEnds (code ++ "*/".toList ++ rest) =
      Text.unifyLineEnds code ++ "*/".toList ++ Text.unifyLineEnds rest :=
  Text.unifyLineEnds_around (by decide) (by decide) (by decide) code rest

/-- A script with an empty comment in it is described as with a blank instead if no comment ends
after it. Otherwise it is described by what follows the empty comment, up to the next closing mark
and with a slash in front; with the blank it is so only if its own comment happens to read the
same. -/
theorem describe_emptyComment {fs fs' : FileSystem} {path path' : String}
    (h : IsScript fs path (before ++ "/**/".toList ++ after))
    (h' : IsScript fs' path' (before ++ ' ' :: after)) (hbefore : ¬ "/**".toList <:+: before) :
    (¬ "*/".toList <:+: after → describe fs path = describe fs' path') ∧
    ∀ code rest, after = code ++ "*/".toList ++ rest → ¬ "*/".toList <:+: code →
      describe fs path = Report.pure (told ('/' :: Text.unifyLineEnds code)) ∧
      (∃ text, told ('/' :: Text.unifyLineEnds code) = String.ofList ('/' :: text)) ∧
      (describe fs path = describe fs' path' ↔
        ∃ comment, docComment? (Text.unifyLineEnds after) = some comment ∧
          told comment = told ('/' :: Text.unifyLineEnds code)) := by
  have hunopened : ¬ "/**".toList <:+: Text.unifyLineEnds before :=
    fun hm => hbefore (Text.infix_of_infix_unifyLineEnds (by decide) hm)
  have hblank : docComment? (Text.unifyLineEnds (before ++ ' ' :: after)) =
      docComment? (Text.unifyLineEnds after) := by
    rw [unifyLineEnds_blank, docComment?_blank hunopened]
  constructor
  · intro hunclosed
    have hafter : ¬ "*/".toList <:+: Text.unifyLineEnds after :=
      fun hm => hunclosed (Text.infix_of_infix_unifyLineEnds (by decide) hm)
    have hnone : docComment? (Text.unifyLineEnds (before ++ "/**/".toList ++ after)) = none := by
      rw [unifyLineEnds_emptyComment, docComment?_emptyComment hunopened]
      exact before?_eq_none (not_closed_cons hafter)
    rw [h.describe_eq, h'.describe_eq, ofScript_of_uncommented hnone,
      ofScript_of_uncommented (hblank.trans (docComment?_eq_none hafter))]
  · rintro code rest rfl hcode
    have hunclosed : ¬ "*/".toList <:+: Text.unifyLineEnds code :=
      fun hm => hcode (Text.infix_of_infix_unifyLineEnds (by decide) hm)
    have htold : describe fs path = Report.pure (told ('/' :: Text.unifyLineEnds code)) := by
      rw [h.describe_eq, unifyLineEnds_emptyComment, unifyLineEnds_code,
        ofScript_of_docComment (docComment?_code hunopened hunclosed)]
    -- Only blanks and asterisks are cleaned off the start of a line, so the slash is told.
    obtain ⟨text, htext⟩ := told_cons rfl rfl (by decide : '/' ≠ '*') (Text.unifyLineEnds code)
    refine ⟨htold, ⟨text, htext⟩, ?_⟩
    rw [htold, h'.describe_eq, Report.pure, Report.pure, Report.mk.injEq, Except.ok.injEq,
      and_iff_right rfl]
    rcases hcomment : docComment? (Text.unifyLineEnds (code ++ "*/".toList ++ rest)) with
      _ | comment
    · -- Nothing is told then, and that does not start with a slash.
      rw [ofScript_of_uncommented (hblank.trans hcomment), htext]
      have hslash : String.ofList ('/' :: text) ≠ sourceText := fun heq =>
        absurd (congrArg (fun s => s.toList.head?) heq) (by simp [sourceText])
      exact iff_of_false hslash (by simp)
    · rw [ofScript_of_docComment (hblank.trans hcomment)]
      simp [eq_comm]

def scriptTree (text : List Char) : FileSystem where
  entries := [(["a.ts"], .file (Text.Utf8.encode (String.ofList text)))]
  working := []
  home := "/"
  unreadable := []

theorem isScript_scriptTree {text : List Char} (h : '\x00' ∉ text) :
    IsScript (scriptTree text) "a.ts" text where
  extension := by decide
  nullFree := by decide
  read := ⟨_, rfl, by rw [textOf_encode, String.toList_ofList]⟩
  null_not_mem := h

/-- Code between an empty comment and another one is told; before code alone, an empty comment
tells as little as a blank. -/
theorem describe_emptyComment_code :
    describe (scriptTree "/**/ let a /* one */".toList) "a.ts" = Report.pure "/ let a /* one" ∧
      describe (scriptTree "/**/ let a /* one */".toList) "a.ts" ≠
        describe (scriptTree "  let a /* one */".toList) "a.ts" ∧
      describe (scriptTree "/**/ let a".toList) "a.ts" =
        describe (scriptTree "  let a".toList) "a.ts" := by
  have hbefore : ¬ "/**".toList <:+: [] := by simp
  obtain ⟨htold, -, hsame⟩ := (@describe_emptyComment [] " let a /* one */".toList _ _ _ _
    (isScript_scriptTree (by decide)) (isScript_scriptTree (by decide)) hbefore).2
    " let a /* one ".toList [] rfl (by simp [List.infix_cons_iff])
  have hcode := (@describe_emptyComment [] " let a".toList _ _ _ _
    (isScript_scriptTree (by decide)) (isScript_scriptTree (by decide)) hbefore).1
    (by simp [List.infix_cons_iff])
  have hread : told ('/' :: Text.unifyLineEnds " let a /* one ".toList) = "/ let a /* one" := by
    decide +kernel
  have hnone : docComment? (Text.unifyLineEnds " let a /* one */".toList) = none := by
    decide +kernel
  refine ⟨hread ▸ htold, fun heq => ?_, hcode⟩
  obtain ⟨comment, hcomment, -⟩ := hsame.mp heq
  exact absurd (hnone.symm.trans hcomment) (by simp)

end TreeManifest.Description
