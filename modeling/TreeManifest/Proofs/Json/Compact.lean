import TreeManifest.Proofs.Json.Indented

/-!
# Compact values are read back

A compact text is made of strings and of visible characters (`isCompact_compactChars`), so no blank
stands outside its strings and no control anywhere. It is a text of the grammar, and what is
legible is read back from it (`parse_compact`).
-/

namespace TreeManifest.Json

def IsVisible (c : Char) : Prop := 0x20 < c.toNat ∧ c.toNat < 0x7F ∧ c ≠ '"'

instance (c : Char) : Decidable (IsVisible c) := inferInstanceAs (Decidable (_ ∧ _ ∧ _))

inductive IsCompact : List Char → Prop
  | nil : IsCompact []
  | visible {c : Char} {cs : List Char} (hc : IsVisible c) (h : IsCompact cs) : IsCompact (c :: cs)
  | string (text : String) {cs : List Char} (h : IsCompact cs) : IsCompact (printString text ++ cs)

theorem visible_of_all {cs : List Char} (h : cs.all (fun c => decide (IsVisible c)) = true) :
    ∀ c ∈ cs, IsVisible c :=
  fun c hc => of_decide_eq_true (List.all_eq_true.mp h c hc)

-- ---------------------------------------------------------------------------
-- Numbers
-- ---------------------------------------------------------------------------

theorem isVisible_of_isDigit {c : Char} (h : Decimal.isDigit c = true) : IsVisible c := by
  have hbounds := toNat_of_isDigit h
  refine ⟨by omega, by omega, ?_⟩
  rintro rfl
  exact absurd h (by decide)

theorem visible_toDigits (n : Nat) : ∀ c ∈ Nat.toDigits 10 n, IsVisible c :=
  fun _ hc => isVisible_of_isDigit (isDigit_of_mem_toDigits hc)

theorem visible_replicate (n : Nat) : ∀ c ∈ List.replicate n '0', IsVisible c := by
  intro c hc
  rw [List.eq_of_mem_replicate hc]
  decide

theorem visible_printInt (n : Int) : ∀ c ∈ printInt n, IsVisible c := by
  unfold printInt
  split
  · exact List.forall_mem_cons.mpr ⟨by decide, visible_toDigits _⟩
  · exact visible_toDigits _

theorem visible_positional (d : Decimal.Digits) : ∀ c ∈ d.positional.toList, IsVisible c := by
  have hpoint : ∀ c ∈ ".".toList, IsVisible c := visible_of_all (by decide)
  have hzero : ∀ c ∈ ".0".toList, IsVisible c := visible_of_all (by decide)
  unfold Decimal.Digits.positional
  split
  · simp only [String.toList_append, String.toList_ofList, List.forall_mem_append]
    exact ⟨⟨visible_toDigits _, visible_replicate _⟩, hzero⟩
  · have hpadded (n : Nat) : ∀ c ∈ List.replicate n '0' ++ Nat.toDigits 10 d.digits, IsVisible c :=
      List.forall_mem_append.mpr ⟨visible_replicate n, visible_toDigits _⟩
    simp only [String.toList_append, String.toList_ofList, List.forall_mem_append]
    exact ⟨⟨fun c hc => hpadded _ c (List.mem_of_mem_take hc), hpoint⟩,
      fun c hc => hpadded _ c (List.mem_of_mem_drop hc)⟩

theorem visible_scientific (d : Decimal.Digits) : ∀ c ∈ d.scientific.toList, IsVisible c := by
  have hdigits := visible_toDigits d.digits
  unfold Decimal.Digits.scientific
  simp only [String.toList_ofList, List.forall_mem_append, List.forall_mem_cons]
  refine ⟨⟨?mantissa, by decide, ?sign, visible_replicate _⟩, visible_toDigits _⟩
  case sign => split <;> decide
  case mantissa =>
    rcases hd : Nat.toDigits 10 d.digits with _ | ⟨c, _ | ⟨next, rest⟩⟩ <;> rw [hd] at hdigits
    · exact hdigits
    · exact hdigits
    · obtain ⟨hc, hrest⟩ := List.forall_mem_cons.mp hdigits
      exact List.forall_mem_cons.mpr ⟨hc, List.forall_mem_cons.mpr ⟨by decide, hrest⟩⟩

theorem visible_render (x : Float) : ∀ c ∈ (numberStyle.render x).toList, IsVisible c := by
  have hsign (negative : Bool) : ∀ c ∈ (if negative then "-" else "").toList, IsVisible c := by
    cases negative <;> exact visible_of_all (by decide)
  unfold Decimal.Style.render
  split
  · exact visible_of_all (by decide)
  · rw [String.toList_append, List.forall_mem_append]
    exact ⟨hsign _, visible_of_all (by decide)⟩
  · rw [String.toList_append, List.forall_mem_append]
    refine ⟨hsign _, ?_⟩
    unfold Decimal.Digits.render
    simp only
    split
    · exact visible_positional _
    · exact visible_scientific _

-- ---------------------------------------------------------------------------
-- Values
-- ---------------------------------------------------------------------------

theorem IsCompact.append {cs ds : List Char} (hc : IsCompact cs) (hd : IsCompact ds) :
    IsCompact (cs ++ ds) := by
  induction hc with
  | nil => exact hd
  | visible hc _ ih => exact .visible hc ih
  | string text _ ih =>
    rw [List.append_assoc]
    exact .string text ih

theorem isCompact_of_visible {cs : List Char} (h : ∀ c ∈ cs, IsVisible c) : IsCompact cs := by
  induction cs with
  | nil => exact .nil
  | cons c cs ih =>
    obtain ⟨hc, hcs⟩ := List.forall_mem_cons.mp h
    exact .visible hc (ih hcs)

theorem isCompact_printString (text : String) : IsCompact (printString text) := by
  simpa using IsCompact.string text .nil

theorem isCompact_printScalar (value : Json) : IsCompact (printScalar value) := by
  cases value with
  | null => exact isCompact_of_visible (visible_of_all (by decide))
  | bool b => cases b <;> exact isCompact_of_visible (visible_of_all (by decide))
  | int n => exact isCompact_of_visible (visible_printInt n)
  | float x => exact isCompact_of_visible (visible_render x)
  | str s => exact isCompact_printString s
  | arr | obj => exact isCompact_of_visible (visible_of_all rfl)

theorem IsCompact.member (key : String) {value rest : List Char} (hvalue : IsCompact value)
    (hrest : IsCompact rest) : IsCompact (printString key ++ ':' :: value ++ rest) :=
  ((isCompact_printString key).append (.visible (by decide) hvalue)).append hrest

mutual

theorem isCompact_compactChars : (value : Json) → IsCompact (compactChars value)
  | .arr [] | .obj [] => isCompact_of_visible (visible_of_all (by decide))
  | .arr (item :: items) => by
    rw [compactChars]
    exact .visible (by decide) (((isCompact_compactChars item).append
      (isCompact_compactItems items)).append (isCompact_of_visible (visible_of_all (by decide))))
  | .obj ((key, value) :: members) => by
    rw [compactChars]
    exact .visible (by decide) (((isCompact_compactChars value).member key
      (isCompact_compactMembers members)).append (isCompact_of_visible (visible_of_all (by decide))))
  | .null => isCompact_printScalar .null
  | .bool b => isCompact_printScalar (.bool b)
  | .int n => isCompact_printScalar (.int n)
  | .float x => isCompact_printScalar (.float x)
  | .str s => isCompact_printScalar (.str s)

theorem isCompact_compactItems : (items : List Json) → IsCompact (compactItems items)
  | [] => .nil
  | item :: items => by
    rw [compactItems]
    exact .visible (by decide) ((isCompact_compactChars item).append (isCompact_compactItems items))

theorem isCompact_compactMembers : (members : List (String × Json)) →
    IsCompact (compactMembers members)
  | [] => .nil
  | (key, value) :: members => by
    rw [compactMembers]
    exact .visible (by decide)
      ((isCompact_compactChars value).member key (isCompact_compactMembers members))

end

-- ---------------------------------------------------------------------------
-- Controls
-- ---------------------------------------------------------------------------

theorem le_toNat_escapeChar (c : Char) : ∀ d ∈ escapeChar c, 0x20 ≤ d.toNat := by
  have hcontrol : ∀ n < 0x20, (Text.hexDigits 4 n).all (0x20 ≤ ·.toNat) = true := by decide
  rcases escapeChar_cases c with ⟨e, hprinted, hescape⟩ | ⟨hc, hprinted⟩ | ⟨-, -, hc, hprinted⟩
  · have he : 0x20 ≤ e.toNat := by
      unfold shortEscape? at hescape
      split at hescape
      case h_9 => cases hescape
      all_goals decide
    rw [hprinted]
    exact List.forall_mem_cons.mpr ⟨by decide, List.forall_mem_singleton.mpr he⟩
  · have hdigits : ∀ d ∈ Text.hexDigits 4 c.toNat, 0x20 ≤ d.toNat := by simpa using hcontrol _ hc
    rw [hprinted]
    exact List.forall_mem_cons.mpr ⟨by decide, List.forall_mem_cons.mpr ⟨by decide, hdigits⟩⟩
  · simpa [hprinted] using hc

theorem le_toNat_printString (text : String) : ∀ c ∈ printString text, 0x20 ≤ c.toNat := by
  unfold printString
  rw [List.forall_mem_append, List.forall_mem_cons]
  refine ⟨⟨by decide, fun d hd => ?_⟩, List.forall_mem_singleton.mpr (by decide)⟩
  obtain ⟨c, -, hc⟩ := List.mem_flatMap.mp hd
  exact le_toNat_escapeChar c d hc

theorem IsCompact.le_toNat {cs : List Char} (h : IsCompact cs) : ∀ c ∈ cs, 0x20 ≤ c.toNat := by
  induction h with
  | nil => exact List.forall_mem_nil _
  | visible hc _ ih => exact List.forall_mem_cons.mpr ⟨Nat.le_of_lt hc.1, ih⟩
  | string text _ ih => exact List.forall_mem_append.mpr ⟨le_toNat_printString text, ih⟩

-- ---------------------------------------------------------------------------
-- Reading
-- ---------------------------------------------------------------------------

theorem isGap_nil : IsGap [] := List.forall_mem_nil _

theorem spellsItems_compact {depth : Nat} {item : Json} {items : List Json}
    (hitem : Spells depth item (compactChars item))
    (hitems : ∀ item ∈ items, Spells depth item (compactChars item)) :
    SpellsItems depth (item :: items) (compactChars item ++ (compactItems items ++ [']'])) := by
  induction items generalizing item with
  | nil => exact .last hitem isGap_nil
  | cons next items ih =>
    obtain ⟨hnext, hitems⟩ := List.forall_mem_cons.mp hitems
    have hspells := SpellsItems.more hitem isGap_nil (ih hnext hitems)
    rw [compactItems]
    simpa only [List.append_assoc, List.cons_append, List.nil_append] using hspells

theorem spellsMembers_compact {depth : Nat} (key : String) {value : Json}
    {members : List (String × Json)} (hvalue : Spells depth value (compactChars value))
    (hmembers : ∀ member ∈ members, Spells depth member.2 (compactChars member.2)) :
    SpellsMembers depth ((key, value) :: members)
      (printString key ++ ':' :: (compactChars value ++ (compactMembers members ++ ['}']))) := by
  induction members generalizing key value with
  | nil => exact .last key isGap_nil hvalue isGap_nil
  | cons member members ih =>
    obtain ⟨key', value'⟩ := member
    obtain ⟨hvalue', hmembers⟩ := List.forall_mem_cons.mp hmembers
    have hspells := SpellsMembers.more key isGap_nil hvalue isGap_nil (ih key' hvalue' hmembers)
    rw [compactMembers]
    simpa only [List.append_assoc, List.cons_append, List.nil_append] using hspells

/-- The members of a printed object may repeat a key; they are read as the mapping they build. -/
theorem spells_members {depth : Nat} {members : List (String × Json)}
    (h : ∀ member ∈ members, Spells depth member.2 (compactChars member.2)) :
    Spells (depth + 1) (.obj (Mapping.ofList members)) (compactChars (.obj members)) := by
  cases members with
  | nil => exact .noMembers
  | cons member members =>
    obtain ⟨key, value⟩ := member
    obtain ⟨hvalue, hmembers⟩ := List.forall_mem_cons.mp h
    have hspells := Spells.members isGap_nil (spellsMembers_compact key hvalue hmembers)
    rw [compactChars]
    simpa only [List.append_assoc, List.cons_append, List.nil_append] using hspells

theorem spells_compact {depth : Nat} {value : Json} (h : Legible depth value) :
    Spells depth value (compactChars value) := by
  induction h with
  | null => exact .scalar readsAs_null
  | bool b => exact .scalar (readsAs_bool b)
  | int h => exact .scalar (readsAs_int h)
  | float h => exact .scalar h
  | str s => exact .scalar (readsAs_str s)
  | @arr depth items _ ih =>
    cases items with
    | nil => exact .noItems
    | cons item items =>
      obtain ⟨hitem, hitems⟩ := List.forall_mem_cons.mp ih
      have hspells := Spells.items isGap_nil (spellsItems_compact hitem hitems)
      rw [compactChars]
      simpa only [List.append_assoc, List.cons_append, List.nil_append] using hspells
  | obj hkeys _ ih =>
    have hspells := spells_members ih
    rwa [Mapping.ofList_eq_self hkeys] at hspells

theorem parse_spelled {value : Json} {text : List Char} (h : Spells maxDepth value text) :
    parse (String.ofList text) = .ok value := by
  have hread : readFirst (text ++ []) = .ok (value, []) := readFirst_spelled h trivial
  have hskip := skipSpace_opens isGap_nil h.opens []
  rw [List.append_nil] at hread
  rw [List.nil_append, List.append_nil] at hskip
  rw [parse, String.toList_ofList, hskip, hread]
  rfl

theorem parse_compact {value : Json} (h : Legible maxDepth value) :
    parse value.compact = .ok value :=
  parse_spelled (spells_compact h)

end TreeManifest.Json
