import TreeManifest.Proofs.Description.Content
import TreeManifest.Proofs.FileSystem.Tree
import TreeManifest.Proofs.Json.Doubles

/-!
# Descriptions of packages

The description of a package is one compact object, and it is read again as the members that tell
what the package is: those keys that the file has, in their fixed order and with the values that the
file gives them (`describe_package`). What the file has is meant as it is written there
(`writtenMembers?`): of a key that stands there twice the last value counts.
-/

namespace TreeManifest

namespace Mapping

variable {κ : Type u} {α : Type v} [DecidableEq κ] {key : κ}

def restrict (keys : List κ) (m : Mapping κ α) : Mapping κ α :=
  keys.filterMap fun key => (get? key m).map (key, ·)

theorem restrict_cons (key : κ) (others : List κ) (m : Mapping κ α) :
    restrict (key :: others) m = ((get? key m).map (key, ·)).toList ++ restrict others m := by
  cases h : get? key m <;> simp [restrict, h]

theorem keys_restrict (names : List κ) (m : Mapping κ α) :
    keys (restrict names m) = names.filter fun key => (get? key m).isSome := by
  induction names with
  | nil => rfl
  | cons key names ih =>
    rw [restrict_cons, keys, List.map_append, ← keys, ← keys, ih]
    cases h : get? key m <;> simp [h, keys]

theorem get?_restrict (names : List κ) (m : Mapping κ α) :
    get? key (restrict names m) = if key ∈ names then get? key m else none := by
  induction names with
  | nil => rfl
  | cons first names ih =>
    rw [restrict_cons]
    by_cases hfirst : first = key
    · subst hfirst
      cases h : get? first m <;> simp [h, ih, get?]
    · have hothers : key ∈ first :: names ↔ key ∈ names := by simp [Ne.symm hfirst]
      cases h : get? first m <;> simp [ih, get?, hfirst, hothers]

theorem isSome_lookup_reverse (key : κ) (bindings : List (κ × α)) :
    (bindings.reverse.lookup key).isSome = decide (key ∈ keys bindings) := by
  rw [Bool.eq_iff_iff, List.lookup_isSome_iff, decide_eq_true_iff, keys, List.mem_map]
  simp only [List.mem_reverse, beq_iff_eq, @eq_comm _ key]

theorem mem_restrict {names : List κ} {m : Mapping κ α} {binding : κ × α}
    (h : binding ∈ restrict names m) : binding ∈ m := by
  obtain ⟨key, -, hkey⟩ := List.mem_filterMap.mp h
  obtain ⟨value, hvalue, rfl⟩ := Option.map_eq_some_iff.mp hkey
  exact mem_of_get? hvalue

end Mapping

namespace Json

/-- The members of the object that a text begins with, as they are written: keys may come again. -/
def writtenMembers? (cs : List Char) : Option (List (String × Json)) :=
  match skipSpace cs with
  | '{' :: inner =>
    if (skipSpace inner).head? = some '}' then some []
    else (readMembers (2 * (skipSpace cs).length + 1) (maxDepth - 1) (skipSpace inner)).toOption.map
      (·.1)
  | _ => none

theorem parse_obj {text : String} {members : List (String × Json)}
    (h : parse text = .ok (.obj members)) :
    ∃ written, writtenMembers? text.toList = some written ∧ members = Mapping.ofList written := by
  obtain ⟨rest, hread, -⟩ := parse_ok h
  replace hread := readValue_ok hread
  unfold writtenMembers?
  generalize skipSpace text.toList = cs at hread ⊢
  cases hread with
  | noMembers hclose => exact ⟨[], by simp only [hclose, List.head?_cons, if_pos], rfl⟩
  | @members _ inner _ written hopen hwritten =>
    refine ⟨written, ?_, rfl⟩
    have hread : (readMembers (2 * ('{' :: inner).length + 1) (maxDepth - 1)
        (skipSpace inner)).toOption = some (written, rest) := congrArg Except.toOption hwritten
    simp only [if_neg hopen, hread, Option.map_some]
  | name name hname => simp [names] at hname
  | number negative hnumber => rcases readNumber_ok hnumber with ⟨_, h, _⟩ | ⟨_, h⟩ <;> cases h

end Json

namespace Description

theorem ofPackage?_parsed {cs : List Char} {members : List (String × Json)}
    (h : Json.parse (String.ofList cs) = .ok (.obj members)) :
    ofPackage? cs = some (Json.obj (Mapping.restrict packageKeys members)).compact := by
  rw [ofPackage?, h]
  rfl

theorem legible_restrict {depth : Nat} {members : List (String × Json)}
    (h : Json.Legible depth (.obj members)) :
    Json.Legible depth (.obj (Mapping.restrict packageKeys members)) := by
  cases h with
  | obj _ hmembers =>
    refine .obj ?_ fun member hm => hmembers member (Mapping.mem_restrict hm)
    rw [Mapping.keys_restrict]
    exact List.Nodup.filter _ (by decide)

/-- The description of a package is a compact text on one line that is read as an object. Its keys
are those of `packageKeys` that the file has, in that order, each with its last value there. -/
theorem describe_package {fs : FileSystem} {path : String} {octets : List UInt8}
    {members : List (String × Json)} (hname : (Path.ofString path).name = packageFile)
    (hpath : FileSystem.hasNull (Path.ofString path) = false)
    (hread : fs.read (Path.ofString path) = .ok octets) (hsample : 0 ∉ octets.take sampleSize)
    (hparse : Json.parse (String.ofList (textOf octets)) = .ok (.obj members))
    (hdoubles : ∀ x, Json.Mentions x (.obj members) →
      Json.parse (Json.float x).compact = .ok (.float x)) :
    ∃ text kept written, describe fs path = Report.pure text ∧
      Json.IsCompact text.toList ∧ '\n' ∉ text.toList ∧ Json.parse text = .ok (.obj kept) ∧
      Json.writtenMembers? (textOf octets) = some written ∧
      Mapping.keys kept = packageKeys.filter (· ∈ Mapping.keys written) ∧
      ∀ key ∈ packageKeys, Mapping.get? key kept = written.reverse.lookup key := by
  obtain ⟨written, hwritten, hmembers⟩ := Json.parse_obj hparse
  rw [String.toList_ofList] at hwritten
  have hmethod : Method.ofName (Path.ofString path).name = .package := by
    rw [hname]
    decide
  have hcontent : ofContent? .package octets =
      some (Json.obj (Mapping.restrict packageKeys members)).compact := by
    simp only [ofContent?, isBinaryContent_eq_false hsample, Bool.false_eq_true, if_false,
      Option.bind_some, ofPackage?_parsed hparse]
  have hlegible := legible_restrict
    (Json.legible_of_parse hparse fun x hx => Json.readsAs_float (hdoubles x hx))
  have hcompact := Json.isCompact_compactChars (.obj (Mapping.restrict packageKeys members))
  have hprinted : (Json.obj (Mapping.restrict packageKeys members)).compact.toList =
      Json.compactChars (.obj (Mapping.restrict packageKeys members)) := String.toList_ofList
  refine ⟨_, _, written, describe_of_content hmethod rfl hpath hread hcontent, ?_, ?_,
    Json.parse_compact hlegible, hwritten, ?_, ?_⟩
  · rw [hprinted]
    exact hcompact
  · rw [hprinted]
    exact fun hfeed => absurd (hcompact.le_toNat _ hfeed) (by decide)
  · rw [Mapping.keys_restrict]
    refine List.filter_congr fun key _ => ?_
    rw [hmembers, Mapping.get?_ofList, Mapping.isSome_lookup_reverse]
  · intro key hkey
    rw [Mapping.get?_restrict, if_pos hkey, hmembers, Mapping.get?_ofList]

def repeatedMembers : List (String × Json) :=
  [("version", .str "0.9"), ("name", .str "café\n"),
    ("dependencies", .obj [("a", .arr [.null, .float (0.0 / 0.0)])]),
    ("version", .arr [.float 1.5])]

def repeatedText : String := (Json.obj repeatedMembers).compact

def repeatedFiles : FileSystem where
  entries := [(["package.json"], .file (Text.Utf8.encode repeatedText))]
  working := []
  home := "/"
  unreadable := []

theorem parse_rendered {x : Float} (text : String) (hrendered : Json.numberStyle.render x = text)
    (hparse : Json.parse text = .ok (.float x)) :
    Json.parse (Json.float x).compact = .ok (.float x) := by
  have hprinted : (Json.float x).compact = Json.numberStyle.render x := String.ofList_toList
  rw [hprinted, hrendered, hparse]

theorem doubles_repeatedMembers {x : Float} {member : String × Json} (hm : member ∈ repeatedMembers)
    (h : Json.Mentions x member.2) : Json.parse (Json.float x).compact = .ok (.float x) := by
  simp only [repeatedMembers, List.mem_cons, List.not_mem_nil, or_false] at hm
  rcases hm with rfl | rfl | rfl | rfl
  · cases h
  · cases h
  · cases h with
    | member hm h =>
      cases List.mem_singleton.mp hm
      cases h with
      | item hm h =>
        simp only [List.mem_cons, List.not_mem_nil, or_false] at hm
        rcases hm with rfl | rfl
        · cases h
        · cases h
          exact parse_rendered "NaN" (by decide +kernel) (by rfl)
  · cases h with
    | item hm h =>
      cases List.mem_singleton.mp hm
      cases h
      exact parse_rendered "1.5" (by decide +kernel) (by rfl)

theorem legible_repeatedMembers {member : String × Json} (hm : member ∈ repeatedMembers) :
    Json.Legible (Json.maxDepth - 1) member.2 := by
  have hdoubles : Json.DoublesReadBack member.2 :=
    fun x hx => Json.readsAs_float (doubles_repeatedMembers hm hx)
  simp only [repeatedMembers, List.mem_cons, List.not_mem_nil, or_false] at hm
  rcases hm with rfl | rfl | rfl | rfl
  · exact .str _
  · exact .str _
  · have hnan := hdoubles (0.0 / 0.0) (.member (List.mem_singleton_self _)
      (.item (List.mem_cons_of_mem _ (List.mem_singleton_self _)) .here))
    have hitems : Json.Legible (Json.maxDepth - 3 + 1) (.arr [.null, .float (0.0 / 0.0)]) :=
      .arr (List.forall_mem_cons.mpr ⟨.null, List.forall_mem_singleton.mpr (.float hnan)⟩)
    have hmembers : Json.Legible (Json.maxDepth - 2 + 1)
        (.obj [("a", .arr [.null, .float (0.0 / 0.0)])]) :=
      .obj (List.nodup_singleton _) (List.forall_mem_singleton.mpr hitems)
    exact hmembers
  · have hhalf := hdoubles 1.5 (.item (List.mem_singleton_self _) .here)
    have hitems : Json.Legible (Json.maxDepth - 2 + 1) (.arr [.float 1.5]) :=
      .arr (List.forall_mem_singleton.mpr (.float hhalf))
    exact hitems

theorem describe_package_repeated :
    ∃ text kept written, describe repeatedFiles "package.json" = Report.pure text ∧
      Json.IsCompact text.toList ∧ '\n' ∉ text.toList ∧ Json.parse text = .ok (.obj kept) ∧
      Json.writtenMembers? (textOf (Text.Utf8.encode repeatedText)) = some written ∧
      Mapping.keys kept = packageKeys.filter (· ∈ Mapping.keys written) ∧
      ∀ key ∈ packageKeys, Mapping.get? key kept = written.reverse.lookup key := by
  have hread : repeatedFiles.read (Path.ofString "package.json") =
      .ok (Text.Utf8.encode repeatedText) := by
    rfl
  have hcontrols : ∀ c ∈ repeatedText.toList, 0x20 ≤ c.toNat := by
    rw [repeatedText, Json.compact, String.toList_ofList]
    exact (Json.isCompact_compactChars _).le_toNat
  have htext : textOf (Text.Utf8.encode repeatedText) = repeatedText.toList := by
    rw [textOf_encode]
    exact Text.unifyLineEnds_eq_self fun h => absurd (hcontrols _ h) (by decide)
  have hsample : 0 ∉ (Text.Utf8.encode repeatedText).take sampleSize := by
    refine zero_not_mem ?_ _
    rw [htext]
    exact fun h => absurd (hcontrols _ h) (by decide)
  have hparse : Json.parse (String.ofList (textOf (Text.Utf8.encode repeatedText))) =
      .ok (.obj (Mapping.ofList repeatedMembers)) := by
    rw [htext, String.ofList_toList]
    exact Json.parse_spelled (Json.spells_members fun member hm =>
      Json.spells_compact (legible_repeatedMembers hm))
  refine describe_package (by decide) (by decide) hread hsample hparse fun x hx => ?_
  cases hx with
  | member hm h => exact doubles_repeatedMembers (Mapping.mem_ofList hm) h

end Description

end TreeManifest
