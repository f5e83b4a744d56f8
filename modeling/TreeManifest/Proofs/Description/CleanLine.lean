import TreeManifest.Description
import TreeManifest.Proofs.Json.Compact
import TreeManifest.Proofs.Text.Line

/-!
# Descriptions are one clean line

Whatever a path leads to, and whatever octets are there, the description is a text without a line
break, with something in it and with no blank at either end (`describe_clean`): each way of
describing a file ends in such a text, or fails and leaves a fixed one.
-/

namespace TreeManifest.Description

open Text (IsTrimmed)

structure IsCleanLine (cs : List Char) : Prop where
  ne_nil : cs ≠ []
  unbroken : ∀ c ∈ cs, c ≠ '\n' ∧ c ≠ '\r'
  trimmed : IsTrimmed cs

instance (cs : List Char) : Decidable (IsCleanLine cs) :=
  decidable_of_iff (cs ≠ [] ∧ cs.all (fun c => c != '\n' && c != '\r') = true ∧ IsTrimmed cs)
    ⟨fun h => ⟨h.1, by simpa using h.2.1, h.2.2⟩, fun h => ⟨h.1, by simpa using h.2, h.3⟩⟩

variable {cs : List Char} {text : String}

-- ---------------------------------------------------------------------------
-- Titles
-- ---------------------------------------------------------------------------

theorem isCleanLine_trimmedOr {fallback : String} (hfallback : IsCleanLine fallback.toList)
    (h : ∀ c ∈ cs, c ≠ '\n' ∧ c ≠ '\r') : IsCleanLine (trimmedOr fallback cs).toList := by
  unfold trimmedOr
  split
  · exact hfallback
  · next htrim =>
    rw [String.toList_ofList]
    exact ⟨htrim, fun c hc => h c ((Text.trim_infix cs).subset hc), Text.isTrimmed_trim cs⟩

theorem mem_heading {title : List Char} (h : heading? cs = some title) :
    ∀ c ∈ title, c ≠ '\n' ∧ c ∈ cs := by
  obtain ⟨line, hline, hfound⟩ := List.exists_of_findSome?_eq_some h
  split at hfound
  · next first rest =>
    cases hfound
    exact fun c hc => Text.mem_splitOn cs _ hline c (by simp_all)
  · cases hfound

theorem isCleanLine_ofMarkdown (h : '\r' ∉ cs) : IsCleanLine (ofMarkdown cs).toList := by
  unfold ofMarkdown
  split
  · next title htitle =>
    refine isCleanLine_trimmedOr (by decide) fun c hc => ?_
    obtain ⟨hline, hmem⟩ := mem_heading htitle c hc
    exact ⟨hline, fun heq => h (heq ▸ hmem)⟩
  · decide

-- ---------------------------------------------------------------------------
-- Comments
-- ---------------------------------------------------------------------------

theorem isTrimmed_undecorate (line : List Char) : IsTrimmed (undecorate line) :=
  Text.isTrimmed_trim _

theorem mem_undecorate {c : Char} {line : List Char} (h : c ∈ undecorate line) : c ∈ line :=
  (List.dropWhile_suffix _).subset
    ((List.dropWhile_suffix _).subset ((Text.trim_infix _).subset h))

theorem unbroken_of_not_lineEnd {c : Char} (h : Text.isLineEnd c = false) : c ≠ '\n' ∧ c ≠ '\r' := by
  constructor <;>
  · rintro rfl
    cases h

theorem isCleanLine_ofScript (cs : List Char) : IsCleanLine (ofScript cs).toList := by
  unfold ofScript
  split
  · decide
  · next comment hcomment =>
    split
    · decide
    · next hjoined =>
      rw [String.toList_ofList]
      refine ⟨hjoined, fun c hc => ?_, IsTrimmed.intercalate _ fun line hm => ?_⟩
      · rcases Text.mem_intercalate hc with hsep | ⟨line, hline, hc⟩
        · rw [List.mem_singleton.mp hsep]
          decide
        · obtain ⟨written, hwritten, rfl⟩ := List.mem_map.mp (List.mem_filter.mp hline).1
          exact unbroken_of_not_lineEnd
            (Text.mem_splitLines comment written hwritten c (mem_undecorate hc))
      · obtain ⟨hm, hline⟩ := List.mem_filter.mp hm
        obtain ⟨written, -, rfl⟩ := List.mem_map.mp hm
        exact ⟨isTrimmed_undecorate written, by simpa using hline⟩

-- ---------------------------------------------------------------------------
-- Packages
-- ---------------------------------------------------------------------------

theorem compactChars_obj (members : List (String × Json)) :
    ∃ inner, Json.compactChars (.obj members) = '{' :: inner ++ ['}'] := by
  rcases members with _ | ⟨⟨key, value⟩, members⟩
  · exact ⟨[], rfl⟩
  · exact ⟨_, rfl⟩

theorem isCleanLine_compact (members : List (String × Json)) :
    IsCleanLine (Json.obj members).compact.toList := by
  have hprinted := (Json.isCompact_compactChars (.obj members)).le_toNat
  obtain ⟨inner, hinner⟩ := compactChars_obj members
  rw [Json.compact, String.toList_ofList]
  refine ⟨by simp [hinner], fun c hc => ?_, ?_⟩
  · have hcontrol := hprinted c hc
    constructor <;>
    · rintro rfl
      exact absurd hcontrol (by decide)
  · have hlast : ('{' :: inner ++ ['}']).getLast? = some '}' := List.getLast?_concat
    rw [hinner]
    constructor
    · rintro c ⟨⟩
      rfl
    · rw [hlast]
      rintro c ⟨⟩
      rfl

theorem isCleanLine_ofPackage (h : ofPackage? cs = some text) : IsCleanLine text.toList := by
  unfold ofPackage? at h
  split at h
  · cases h
    exact isCleanLine_compact _
  · cases h

-- ---------------------------------------------------------------------------
-- Files
-- ---------------------------------------------------------------------------

theorem isCleanLine_ofContent {method : Method} {octets : List UInt8}
    (h : ofContent? method octets = some text) : IsCleanLine text.toList := by
  have hreturn : '\r' ∉ textOf octets := Text.not_mem_cr_unifyLineEnds _
  cases method with
  | title =>
    obtain ⟨cs, hcs, rfl⟩ := Option.map_eq_some_iff.mp h
    split at hcs <;> cases hcs
    exact isCleanLine_ofMarkdown hreturn
  | package =>
    obtain ⟨cs, -, htext⟩ := Option.bind_eq_some_iff.mp h
    exact isCleanLine_ofPackage htext
  | docComment =>
    obtain ⟨cs, -, rfl⟩ := Option.map_eq_some_iff.mp h
    exact isCleanLine_ofScript cs
  | configuration | yaml | plain =>
    cases h
    decide

/-- Every path has a description, which is one clean line. -/
theorem describe_clean (fs : FileSystem) (path : String) :
    ∃ text, (describe fs path).result = .ok text ∧ IsCleanLine text.toList := by
  unfold describe
  simp only
  split
  · next text h =>
    refine ⟨text, rfl, ?_⟩
    split at h
    · obtain ⟨octets, -, htext⟩ := Option.bind_eq_some_iff.mp h
      exact isCleanLine_ofContent htext
    · exact isCleanLine_ofContent h
  · exact ⟨plainText, rfl, by decide⟩

end TreeManifest.Description
