import TreeManifest.Collection

/-!
# Written paths are read back

A location is told by its text: `ofString_toString` and `ofString_directoryText` read the text of a
location again, with and without the slash that marks a directory. Relative paths are told by their
texts as well (`intercalate_inj`), and a text without a slash is a path of one part.
-/

namespace TreeManifest.Path

/-- What one part of a written path can be: not empty, no single dot, without a slash. -/
structure IsPart (part : String) : Prop where
  ne_empty : part ≠ ""
  ne_dot : part ≠ "."
  slash_not_mem : '/' ∉ part.toList

theorem splitSlashes_eq_splitOn (cs : List Char) : splitSlashes cs = cs.splitOn '/' := by
  induction cs with
  | nil => rfl
  | cons c rest ih =>
    rw [splitSlashes, List.splitOn_cons_eq_if_modifyHead, ih]
    by_cases hc : c = '/'
    · simp [hc]
    · cases hs : rest.splitOn '/' with
      | nil => exact absurd hs (List.splitOn_ne_nil _ _)
      | cons part parts => simp [hc]

theorem partsOf_intercalate {texts : List (List Char)} (h : ∀ t ∈ texts, '/' ∉ t)
    (hne : texts ≠ []) :
    partsOf (['/'].intercalate texts) =
      (texts.map String.ofList).filter fun part => part ≠ "" && part ≠ "." := by
  rw [partsOf, splitSlashes_eq_splitOn, List.splitOn_intercalate _ h hne]

theorem filter_parts {parts : List String} (h : ∀ part ∈ parts, IsPart part) :
    (parts.filter fun part => part ≠ "" && part ≠ ".") = parts :=
  List.filter_eq_self.mpr fun part hp => by simp [(h part hp).ne_empty, (h part hp).ne_dot]

theorem slash_not_mem_of_mem_splitSlashes {cs piece : List Char} (h : piece ∈ splitSlashes cs) :
    '/' ∉ piece := by
  induction cs generalizing piece with
  | nil => simp_all [splitSlashes]
  | cons c rest ih =>
    rw [splitSlashes] at h
    by_cases hc : c = '/'
    · rw [if_pos hc] at h
      rcases List.mem_cons.mp h with rfl | h
      · exact List.not_mem_nil
      · exact ih h
    · rw [if_neg hc] at h
      cases hs : splitSlashes rest with
      | nil =>
        simp only [hs, List.mem_singleton] at h
        simp [h, Ne.symm hc]
      | cons first parts =>
        simp only [hs] at h ih
        rcases List.mem_cons.mp h with rfl | h
        · simp [Ne.symm hc, ih List.mem_cons_self]
        · exact ih (List.mem_cons_of_mem _ h)

theorem isPart_of_mem_partsOf {cs : List Char} {part : String} (h : part ∈ partsOf cs) :
    IsPart part := by
  simp only [partsOf, List.mem_filter, List.mem_map] at h
  obtain ⟨⟨piece, hp, rfl⟩, hne⟩ := h
  simp only [ne_eq, Bool.and_eq_true, decide_eq_true_eq] at hne
  refine ⟨hne.1, hne.2, ?_⟩
  rw [String.toList_ofList]
  exact slash_not_mem_of_mem_splitSlashes hp

theorem toList_ne_nil {part : String} (h : IsPart part) : part.toList ≠ [] :=
  fun hn => h.ne_empty (String.toList_eq_nil_iff.mp hn)

/-- The texts of parts between slashes, with an empty one before them, are read as an absolute
path; empty texts after them change nothing. -/
theorem ofString_intercalate {text : String} {parts : List String} {tail : List (List Char)}
    (h : ∀ part ∈ parts, IsPart part) (hne : parts ≠ []) (htail : ∀ t ∈ tail, t = [])
    (ht : text.toList = ['/'].intercalate ([] :: parts.map String.toList ++ tail)) :
    ofString text = ofLocation parts := by
  have hslash : ∀ t ∈ [] :: parts.map String.toList ++ tail, '/' ∉ t := by
    intro t hm
    simp only [List.cons_append, List.mem_cons, List.mem_append, List.mem_map] at hm
    rcases hm with rfl | ⟨part, hp, rfl⟩ | hm
    · exact List.not_mem_nil
    · exact (h part hp).slash_not_mem
    · exact htail t hm ▸ List.not_mem_nil
  have hparts : partsOf text.toList = parts := by
    have hempty : ((tail.map String.ofList).filter fun part => part ≠ "" && part ≠ ".") = [] := by
      rw [List.filter_eq_nil_iff]
      intro part hp
      obtain ⟨t, hm, rfl⟩ := List.mem_map.mp hp
      simp [htail t hm]
    rw [ht, partsOf_intercalate hslash (by simp)]
    simp only [List.cons_append, List.map_cons, List.map_append, List.map_map]
    have hid : parts.map (String.ofList ∘ String.toList) = parts := by simp
    rw [hid, List.filter_cons_of_neg (by simp), List.filter_append, filter_parts h, hempty,
      List.append_nil]
  have hanchor : anchorOf text.toList = .top := by
    obtain ⟨part, rest, rfl⟩ := List.exists_cons_of_ne_nil hne
    have hp := h part List.mem_cons_self
    obtain ⟨c, cs, hcs⟩ := List.exists_cons_of_ne_nil (toList_ne_nil hp)
    have hc : c ≠ '/' := fun hc => hp.slash_not_mem (by simp [hcs, hc])
    cases hrest : rest.map String.toList ++ tail with
    | nil => simp [ht, anchorOf, hcs, hrest, hc]
    | cons t ts => simp [ht, anchorOf, hcs, hrest, hc, List.intercalate_cons_cons]
  rw [ofString, hparts, hanchor, ofLocation]

-- ---------------------------------------------------------------------------
-- Locations
-- ---------------------------------------------------------------------------

theorem toList_toString_ofLocation {location : Location} (hne : location ≠ []) :
    (ofLocation location).toString.toList =
      ['/'].intercalate ([] :: location.map String.toList) := by
  rw [List.intercalate_cons_of_ne_nil (by simpa using hne)]
  simp [toString, ofLocation, Anchor.text, String.toList_intercalate]

theorem ofString_toString {location : Location} (h : ∀ part ∈ location, IsPart part) :
    ofString (ofLocation location).toString = ofLocation location := by
  by_cases hne : location = []
  · subst hne; decide
  · refine ofString_intercalate h hne (List.forall_mem_nil _) ?_
    rw [toList_toString_ofLocation hne, List.append_nil]

theorem toString_inj {location other : Location} (h : ∀ part ∈ location, IsPart part)
    (h' : ∀ part ∈ other, IsPart part)
    (heq : (ofLocation location).toString = (ofLocation other).toString) : location = other := by
  have hpath := ofString_toString h
  rw [heq, ofString_toString h'] at hpath
  exact (congrArg parts hpath).symm

theorem intercalate_concat {α : Type} {separator last : List α} {pieces : List (List α)}
    (hne : pieces ≠ []) :
    separator.intercalate (pieces ++ [last]) =
      separator.intercalate pieces ++ separator ++ last := by
  induction pieces with
  | nil => exact absurd rfl hne
  | cons piece rest ih =>
    by_cases hr : rest = []
    · simp [hr, List.intercalate_cons_cons]
    · rw [List.cons_append, List.intercalate_cons_of_ne_nil (by simp), ih hr,
        List.intercalate_cons_of_ne_nil hr]
      simp

theorem ofString_directoryText {location : Location} (h : ∀ part ∈ location, IsPart part) :
    ofString (directoryText location) = ofLocation location := by
  by_cases hne : location = []
  · subst hne; decide
  · have hlast : ∀ t ∈ [([] : List Char)], t = [] := by simp
    refine ofString_intercalate h hne hlast ?_
    rw [directoryText, if_neg hne, String.toList_append, toList_toString_ofLocation hne]
    rw [intercalate_concat (by simp)]
    simp

theorem isDirectoryEntry_directoryText (location : Location) :
    Collection.isDirectoryEntry (directoryText location) = true := by
  unfold Collection.isDirectoryEntry directoryText
  split <;> simp

theorem getLast?_toString {location : Location} {part : String} (h : location.getLast? = some part)
    (hp : IsPart part) :
    (ofLocation location).toString.toList.getLast? = part.toList.getLast? := by
  obtain ⟨front, rfl⟩ := List.getLast?_eq_some_iff.mp h
  have hmap : [] :: (front ++ [part]).map String.toList =
      ([] :: front.map String.toList) ++ [part.toList] := by simp
  rw [toList_toString_ofLocation (by simp), hmap, intercalate_concat (by simp),
    List.getLast?_append, List.getLast?_eq_some_getLast (toList_ne_nil hp), Option.some_or]

theorem isDirectoryEntry_toString {location : Location} (hne : location ≠ [])
    (h : ∀ part ∈ location, IsPart part) :
    Collection.isDirectoryEntry (ofLocation location).toString = false := by
  have hpart := List.getLast?_eq_some_getLast hne
  have hp := h _ (List.getLast_mem hne)
  rw [Collection.isDirectoryEntry, getLast?_toString hpart hp]
  have hslash : (location.getLast hne).toList.getLast? ≠ some '/' := fun hl =>
    hp.slash_not_mem (List.mem_of_getLast? hl)
  simpa using hslash

-- ---------------------------------------------------------------------------
-- Relative paths
-- ---------------------------------------------------------------------------

theorem toString_relative {parts : List String} (h : ∀ part ∈ parts, IsPart part)
    (hne : parts ≠ []) :
    (⟨.here, parts⟩ : Path).toString = String.intercalate "/" parts := by
  obtain ⟨part, rest, rfl⟩ := List.exists_cons_of_ne_nil hne
  have hp := (h part List.mem_cons_self).ne_empty
  have htext : String.intercalate "/" (part :: rest) ≠ "" := by
    cases rest with
    | nil => simpa using hp
    | cons next rest => simp [String.intercalate_cons_cons]
  simp [toString, Anchor.text, htext]

theorem splitOn_intercalate_parts {parts : List String} (h : ∀ part ∈ parts, IsPart part)
    (hne : parts ≠ []) :
    (String.intercalate "/" parts).toList.splitOn '/' = parts.map String.toList := by
  rw [String.toList_intercalate]
  refine List.splitOn_intercalate '/' ?_ (by simpa using hne)
  intro t ht
  obtain ⟨part, hp, rfl⟩ := List.mem_map.mp ht
  exact (h part hp).slash_not_mem

theorem intercalate_inj {parts others : List String} (h : ∀ part ∈ parts, IsPart part)
    (h' : ∀ part ∈ others, IsPart part) (hne : parts ≠ []) (hne' : others ≠ [])
    (heq : String.intercalate "/" parts = String.intercalate "/" others) : parts = others := by
  have hmap : parts.map String.toList = others.map String.toList := by
    rw [← splitOn_intercalate_parts h hne, heq, splitOn_intercalate_parts h' hne']
  exact (List.map_inj_right fun _ _ hs => String.toList_inj.mp hs).mp hmap

theorem slash_mem_intercalate {parts : List String} (h : ∀ part ∈ parts, IsPart part)
    (hne : parts ≠ []) :
    '/' ∈ (String.intercalate "/" parts).toList ↔ 1 < parts.length := by
  match parts, hne with
  | [part], _ => simpa using (h part List.mem_cons_self).slash_not_mem
  | part :: next :: rest, _ => simp [String.intercalate_cons_cons]

end TreeManifest.Path
