import TreeManifest.Proofs.Json.Spelling

/-!
# Indented values are read back

The values that a reader can take (`Legible`), and that their indented text is one of the grammar, so
that it is read back in front of every text that does not go on a number (`readFirst_indented`).
-/

namespace TreeManifest.Json

/-- A value that is nested at most `depth` deep, has no key twice in an object and holds numbers that
are read back. -/
inductive Legible : Nat → Json → Prop
  | null {depth : Nat} : Legible depth .null
  | bool {depth : Nat} (b : Bool) : Legible depth (.bool b)
  | int {depth : Nat} {n : Int} (h : n.natAbs < Nat.pow 10 Decimal.maxDigits) : Legible depth (.int n)
  | float {depth : Nat} {x : Float} (h : ReadsAs (.float x) (printScalar (.float x))) :
      Legible depth (.float x)
  | str {depth : Nat} (s : String) : Legible depth (.str s)
  | arr {depth : Nat} {items : List Json} (h : ∀ item ∈ items, Legible depth item) :
      Legible (depth + 1) (.arr items)
  | obj {depth : Nat} {members : List (String × Json)} (hkeys : (Mapping.keys members).Nodup)
      (h : ∀ member ∈ members, Legible depth member.2) : Legible (depth + 1) (.obj members)

-- ---------------------------------------------------------------------------
-- Scalars
-- ---------------------------------------------------------------------------

theorem readsAs_null : ReadsAs .null "null".toList :=
  ⟨⟨'n', _, rfl, rfl, by decide⟩, fun _ _ _ _ => rfl⟩

theorem readsAs_bool (b : Bool) : ReadsAs (.bool b) (printScalar (.bool b)) := by
  cases b with
  | true => exact ⟨⟨'t', _, rfl, rfl, by decide⟩, fun _ _ _ _ => rfl⟩
  | false => exact ⟨⟨'f', _, rfl, rfl, by decide⟩, fun _ _ _ _ => rfl⟩

theorem readsAs_str (s : String) : ReadsAs (.str s) (printString s) := by
  refine ⟨⟨'"', _, rfl, rfl, by decide⟩, fun fuel depth rest _ => ?_⟩
  obtain ⟨cs, htext, hread⟩ := readText_printString s rest
  rw [htext, readValue, hread]

theorem readValue_digit {c : Char} (hc : Decimal.isDigit c = true) (fuel depth : Nat)
    (cs : List Char) : readValue (fuel + 1) depth (c :: cs) = readNumber false (c :: cs) := by
  unfold readValue
  split
  all_goals first | rfl | (rename_i heq; cases heq; exact absurd hc (by decide))

theorem readValue_minus {c : Char} (hc : Decimal.isDigit c = true) (fuel depth : Nat)
    (cs : List Char) : readValue (fuel + 1) depth ('-' :: c :: cs) = readNumber true (c :: cs) := by
  rw [readValue]
  rintro rest heq
  cases heq
  exact absurd hc (by decide)

theorem exists_toDigits (n : Nat) :
    ∃ c cs, Nat.toDigits 10 n = c :: cs ∧ Decimal.isDigit c = true := by
  rcases hdigits : Nat.toDigits 10 n with _ | ⟨c, cs⟩
  · exact absurd hdigits Nat.toDigits_ne_nil
  · exact ⟨c, cs, rfl, isDigit_of_mem_toDigits (hdigits ▸ List.mem_cons_self)⟩

theorem opens_digit {c : Char} (hc : Decimal.isDigit c = true) (cs : List Char) :
    Opens (c :: cs) := by
  refine ⟨c, cs, rfl, ?_, ?_⟩
  · by_contra hspace
    simp only [isSpace, Bool.not_eq_false, Bool.or_eq_true, decide_eq_true_eq] at hspace
    rcases hspace with ((rfl | rfl) | rfl) | rfl <;> exact absurd hc (by decide)
  · rintro rfl
    exact absurd hc (by decide)

theorem readsAs_int {n : Int} (h : n.natAbs < Nat.pow 10 Decimal.maxDigits) :
    ReadsAs (.int n) (printInt n) := by
  obtain ⟨c, cs, hdigits, hc⟩ := exists_toDigits n.natAbs
  have hread := fun negative (rest : List Char) (hrest : EndsNumber rest) =>
    readNumber_toDigits negative h hrest
  rw [printInt, hdigits]
  simp only [hdigits, List.cons_append] at hread
  by_cases hn : n < 0
  · rw [if_pos hn]
    refine ⟨⟨'-', _, rfl, rfl, by decide⟩, fun fuel depth rest hrest => ?_⟩
    rw [List.cons_append, List.cons_append, readValue_minus hc, hread true rest hrest, if_pos rfl]
    congr
    omega
  · rw [if_neg hn]
    refine ⟨opens_digit hc cs, fun fuel depth rest hrest => ?_⟩
    rw [List.cons_append, readValue_digit hc, hread false rest hrest, if_neg Bool.false_ne_true]
    congr
    omega

-- ---------------------------------------------------------------------------
-- Containers
-- ---------------------------------------------------------------------------

theorem isGap_newLine (level : Nat) : IsGap (newLine level) := by
  intro c hc
  rcases List.mem_cons.mp hc with rfl | hc
  · rfl
  · rw [List.eq_of_mem_replicate hc]
    rfl

theorem spellsItems_indented {depth level : Nat} {item : Json} {items : List Json}
    (hitem : Spells depth item (indentedChars (level + 1) item))
    (hitems : ∀ item ∈ items, Spells depth item (indentedChars (level + 1) item)) :
    SpellsItems depth (item :: items)
      (indentedChars (level + 1) item ++ indentedItems level items) := by
  induction items generalizing item with
  | nil => exact .last hitem (isGap_newLine level)
  | cons next items ih =>
    obtain ⟨hnext, hitems⟩ := List.forall_mem_cons.mp hitems
    have hspells := SpellsItems.more hitem (isGap_newLine (level + 1)) (ih hnext hitems)
    rw [indentedItems]
    simpa only [List.append_assoc, List.cons_append] using hspells

theorem spellsMembers_indented {depth level : Nat} (key : String) {value : Json}
    {members : List (String × Json)}
    (hvalue : Spells depth value (indentedChars (level + 1) value))
    (hmembers : ∀ member ∈ members,
      Spells depth member.2 (indentedChars (level + 1) member.2)) :
    SpellsMembers depth ((key, value) :: members)
      (printString key ++ ':' :: ' ' ::
        (indentedChars (level + 1) value ++ indentedMembers level members)) := by
  have hcolon : IsGap [' '] := fun c hc => (List.mem_singleton.mp hc) ▸ rfl
  induction members generalizing key value with
  | nil => exact .last key hcolon hvalue (isGap_newLine level)
  | cons member members ih =>
    obtain ⟨key', value'⟩ := member
    obtain ⟨hvalue', hmembers⟩ := List.forall_mem_cons.mp hmembers
    have hspells := SpellsMembers.more key hcolon hvalue (isGap_newLine (level + 1))
      (ih key' hvalue' hmembers)
    rw [indentedMembers]
    simpa only [List.append_assoc, List.cons_append, List.nil_append] using hspells

theorem spells_indented {depth : Nat} {value : Json} (h : Legible depth value) (level : Nat) :
    Spells depth value (indentedChars level value) := by
  induction h generalizing level with
  | null => exact .scalar readsAs_null
  | bool b => exact .scalar (readsAs_bool b)
  | int h => exact .scalar (readsAs_int h)
  | float h => exact .scalar h
  | str s => exact .scalar (readsAs_str s)
  | @arr depth items _ ih =>
    cases items with
    | nil => exact .noItems
    | cons item items =>
      obtain ⟨hitem, hitems⟩ := List.forall_mem_cons.mp ih
      have hspells := spellsItems_indented (hitem (level + 1)) fun item hm => hitems item hm _
      rw [indentedChars]
      simpa only [List.append_assoc, List.cons_append] using .items (isGap_newLine _) hspells
  | @obj depth members hkeys _ ih =>
    cases members with
    | nil => exact .noMembers
    | cons member members =>
      obtain ⟨key, value⟩ := member
      obtain ⟨hvalue, hmembers⟩ := List.forall_mem_cons.mp ih
      have hspells := spellsMembers_indented key (hvalue (level + 1))
        fun member hm => hmembers member hm _
      have hobj := Spells.members (isGap_newLine (level + 1)) hspells
      rw [Mapping.ofList_eq_self hkeys] at hobj
      rw [indentedChars]
      simpa only [List.append_assoc, List.cons_append] using hobj

theorem readFirst_indented {value : Json} (h : Legible maxDepth value) {rest : List Char}
    (hrest : EndsNumber rest) : readFirst (value.indented.toList ++ rest) = .ok (value, rest) := by
  rw [indented, String.toList_ofList]
  exact readFirst_spelled (spells_indented h 0) hrest

end TreeManifest.Json
