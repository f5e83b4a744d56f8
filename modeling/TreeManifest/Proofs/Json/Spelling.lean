import TreeManifest.Proofs.Json.Scalars

/-!
# Texts of JSON values

A grammar of JSON texts, with space wherever a layout puts some (`Spells`). The reader takes every
text of the grammar, whatever follows it, and gives the value that it stands for
(`readFirst_spelled`).
-/

namespace TreeManifest.Json

def IsGap (gap : List Char) : Prop := ∀ c ∈ gap, isSpace c = true

/-- A text that is neither space in front of a value nor the end of a list. -/
def Opens (text : List Char) : Prop := ∃ c cs, text = c :: cs ∧ isSpace c = false ∧ c ≠ ']'

def ReadsAs (value : Json) (text : List Char) : Prop :=
  Opens text ∧ ∀ fuel depth rest, EndsNumber rest →
    readValue (fuel + 1) depth (text ++ rest) = .ok (value, rest)

mutual

inductive Spells : Nat → Json → List Char → Prop
  | scalar {depth : Nat} {value : Json} {text : List Char} (h : ReadsAs value text) :
      Spells depth value text
  | noItems {depth : Nat} : Spells (depth + 1) (.arr []) ['[', ']']
  | items {depth : Nat} {items : List Json} {gap text : List Char} (hgap : IsGap gap)
      (h : SpellsItems depth items text) : Spells (depth + 1) (.arr items) ('[' :: (gap ++ text))
  | noMembers {depth : Nat} : Spells (depth + 1) (.obj []) ['{', '}']
  | members {depth : Nat} {members : List (String × Json)} {gap text : List Char}
      (hgap : IsGap gap) (h : SpellsMembers depth members text) :
      Spells (depth + 1) (.obj (Mapping.ofList members)) ('{' :: (gap ++ text))

inductive SpellsItems : Nat → List Json → List Char → Prop
  | last {depth : Nat} {item : Json} {text gap : List Char} (h : Spells depth item text)
      (hgap : IsGap gap) : SpellsItems depth [item] (text ++ (gap ++ [']']))
  | more {depth : Nat} {item : Json} {items : List Json} {text gap texts : List Char}
      (h : Spells depth item text) (hgap : IsGap gap) (hrest : SpellsItems depth items texts) :
      SpellsItems depth (item :: items) (text ++ ',' :: (gap ++ texts))

inductive SpellsMembers : Nat → List (String × Json) → List Char → Prop
  | last {depth : Nat} (key : String) {value : Json} {colon text gap : List Char}
      (hcolon : IsGap colon) (h : Spells depth value text) (hgap : IsGap gap) :
      SpellsMembers depth [(key, value)]
        (printString key ++ ':' :: (colon ++ (text ++ (gap ++ ['}']))))
  | more {depth : Nat} (key : String) {value : Json} {members : List (String × Json)}
      {colon text gap texts : List Char} (hcolon : IsGap colon) (h : Spells depth value text)
      (hgap : IsGap gap) (hrest : SpellsMembers depth members texts) :
      SpellsMembers depth ((key, value) :: members)
        (printString key ++ ':' :: (colon ++ (text ++ ',' :: (gap ++ texts))))

end

-- ---------------------------------------------------------------------------
-- The first characters
-- ---------------------------------------------------------------------------

theorem skipSpace_gap {gap : List Char} (hgap : IsGap gap) {c : Char} (hc : isSpace c = false)
    (cs : List Char) : skipSpace (gap ++ c :: cs) = c :: cs := by
  rw [skipSpace, List.dropWhile_append_of_pos hgap, List.dropWhile_cons_of_neg]
  simp [hc]

theorem skipSpace_opens {gap text : List Char} (hgap : IsGap gap) (h : Opens text)
    (rest : List Char) : skipSpace (gap ++ (text ++ rest)) = text ++ rest := by
  obtain ⟨c, cs, rfl, hc, -⟩ := h
  exact skipSpace_gap hgap hc _

theorem EndsNumber.gap {gap rest : List Char} (hgap : IsGap gap) (h : EndsNumber rest) :
    EndsNumber (gap ++ rest) := by
  cases gap with
  | nil => exact h
  | cons c gap =>
    have hc : isSpace c = true := hgap c List.mem_cons_self
    simp only [isSpace, Bool.or_eq_true, decide_eq_true_eq] at hc
    rcases hc with ((rfl | rfl) | rfl) | rfl <;> exact ⟨rfl, by decide, by decide, by decide⟩

theorem Spells.opens {depth : Nat} {value : Json} {text : List Char} (h : Spells depth value text) :
    Opens text := by
  cases h with
  | scalar h => exact h.1
  | noItems | items => exact ⟨'[', _, rfl, rfl, by decide⟩
  | noMembers | members => exact ⟨'{', _, rfl, rfl, by decide⟩

theorem Opens.length_pos {text : List Char} (h : Opens text) : 0 < text.length := by
  obtain ⟨c, cs, rfl, -⟩ := h
  exact Nat.succ_pos _

theorem Opens.append {text : List Char} (h : Opens text) (rest : List Char) :
    Opens (text ++ rest) := by
  obtain ⟨c, cs, rfl, hc⟩ := h
  exact ⟨c, cs ++ rest, rfl, hc⟩

theorem SpellsItems.opens {depth : Nat} {items : List Json} {text : List Char}
    (h : SpellsItems depth items text) : Opens text := by
  cases h with
  | last h | more h => exact h.opens.append _

theorem SpellsMembers.quoted {depth : Nat} {members : List (String × Json)} {text : List Char}
    (h : SpellsMembers depth members text) : ∃ cs, text = '"' :: cs := by
  cases h with
  | last | more => exact ⟨_, rfl⟩

-- ---------------------------------------------------------------------------
-- Steps of the reader
-- ---------------------------------------------------------------------------

variable {fuel depth : Nat} {rest : List Char}

theorem readValue_items {gap text : List Char} {items : List Json} (hgap : IsGap gap)
    (hopens : Opens text) (h : readItems fuel depth (text ++ rest) = .ok (items, rest)) :
    readValue (fuel + 1) (depth + 1) ('[' :: (gap ++ text) ++ rest) = .ok (.arr items, rest) := by
  have hskip := skipSpace_opens hgap hopens rest
  obtain ⟨c, cs, rfl, -, hc⟩ := hopens
  rw [List.cons_append, List.append_assoc, readValue]
  simp only [hskip]
  split
  case h_1 heq => exact absurd (List.cons.inj heq).1 hc
  case h_2 =>
    rw [h]
    rfl

theorem readValue_members {gap cs : List Char} {members : List (String × Json)} (hgap : IsGap gap)
    (h : readMembers fuel depth ('"' :: cs ++ rest) = .ok (members, rest)) :
    readValue (fuel + 1) (depth + 1) ('{' :: (gap ++ '"' :: cs) ++ rest) =
      .ok (.obj (Mapping.ofList members), rest) := by
  have hskip : skipSpace (gap ++ '"' :: (cs ++ rest)) = '"' :: (cs ++ rest) :=
    skipSpace_gap hgap rfl _
  rw [List.cons_append] at h
  rw [List.cons_append, List.append_assoc, List.cons_append, readValue]
  simp only [hskip]
  split
  case h_1 heq => exact absurd (List.cons.inj heq).1 (by decide)
  case h_2 =>
    rw [h]
    rfl

theorem readItems_last {text gap : List Char} {item : Json} (hgap : IsGap gap)
    (h : readValue fuel depth (text ++ (gap ++ ']' :: rest)) = .ok (item, gap ++ ']' :: rest)) :
    readItems (fuel + 1) depth (text ++ (gap ++ [']']) ++ rest) = .ok ([item], rest) := by
  have hskip : skipSpace (gap ++ ']' :: rest) = ']' :: rest := skipSpace_gap hgap rfl _
  rw [List.append_assoc, List.append_assoc, List.singleton_append, readItems, h]
  simp only [bind, Except.bind, hskip]
  rfl

theorem readItems_more {text gap texts : List Char} {item : Json} {items : List Json}
    (hgap : IsGap gap) (hopens : Opens texts)
    (h : readValue fuel depth (text ++ ',' :: (gap ++ (texts ++ rest))) =
      .ok (item, ',' :: (gap ++ (texts ++ rest))))
    (hrest : readItems fuel depth (texts ++ rest) = .ok (items, rest)) :
    readItems (fuel + 1) depth (text ++ ',' :: (gap ++ texts) ++ rest) = .ok (item :: items, rest) := by
  have hcomma : skipSpace (',' :: (gap ++ (texts ++ rest))) = ',' :: (gap ++ (texts ++ rest)) := rfl
  have hskip := skipSpace_opens hgap hopens rest
  rw [List.append_assoc, List.cons_append, List.append_assoc, readItems, h]
  simp only [bind, Except.bind, hcomma, hskip, hrest]
  rfl

theorem readMembers_key {colon text : List Char} (key : String) {value : Json} (hcolon : IsGap colon)
    (hopens : Opens text) (h : readValue fuel depth (text ++ rest) = .ok (value, rest)) :
    readMembers (fuel + 1) depth (printString key ++ ':' :: (colon ++ (text ++ rest))) =
      match skipSpace rest with
      | '}' :: rest => .ok ([(key, value)], rest)
      | ',' :: rest => do
        let (members, rest) ← readMembers fuel depth (skipSpace rest)
        return ((key, value) :: members, rest)
      | _ => .error .malformed := by
  obtain ⟨cs, hkey, hread⟩ := readText_printString key (':' :: (colon ++ (text ++ rest)))
  have hmark : skipSpace (':' :: (colon ++ (text ++ rest))) = ':' :: (colon ++ (text ++ rest)) := rfl
  have hskip := skipSpace_opens hcolon hopens rest
  rw [hkey, readMembers]
  simp only [hread, hmark, hskip, h]
  rfl

theorem readMembers_last {colon text gap : List Char} (key : String) {value : Json}
    (hcolon : IsGap colon) (hopens : Opens text) (hgap : IsGap gap)
    (h : readValue fuel depth (text ++ (gap ++ '}' :: rest)) = .ok (value, gap ++ '}' :: rest)) :
    readMembers (fuel + 1) depth
        (printString key ++ ':' :: (colon ++ (text ++ (gap ++ ['}']))) ++ rest) =
      .ok ([(key, value)], rest) := by
  have hskip : skipSpace (gap ++ '}' :: rest) = '}' :: rest := skipSpace_gap hgap rfl _
  have hkey := readMembers_key key hcolon hopens h
  simp only [hskip] at hkey
  simpa only [List.append_assoc, List.cons_append, List.nil_append] using hkey

theorem readMembers_more {colon text gap cs : List Char} (key : String) {value : Json}
    {members : List (String × Json)} (hcolon : IsGap colon) (hopens : Opens text) (hgap : IsGap gap)
    (h : readValue fuel depth (text ++ ',' :: (gap ++ ('"' :: cs ++ rest))) =
      .ok (value, ',' :: (gap ++ ('"' :: cs ++ rest))))
    (hrest : readMembers fuel depth ('"' :: cs ++ rest) = .ok (members, rest)) :
    readMembers (fuel + 1) depth
        (printString key ++ ':' :: (colon ++ (text ++ ',' :: (gap ++ '"' :: cs))) ++ rest) =
      .ok ((key, value) :: members, rest) := by
  have hcomma : skipSpace (',' :: (gap ++ ('"' :: cs ++ rest))) =
      ',' :: (gap ++ ('"' :: cs ++ rest)) := rfl
  have hskip : skipSpace (gap ++ ('"' :: cs ++ rest)) = '"' :: cs ++ rest := skipSpace_gap hgap rfl _
  have hkey := readMembers_key key hcolon hopens h
  simp only [hcomma, hskip, hrest] at hkey
  simp only [List.append_assoc, List.cons_append] at hkey ⊢
  exact hkey

-- ---------------------------------------------------------------------------
-- The reader takes every text of the grammar
-- ---------------------------------------------------------------------------

/-- By induction on the fuel, of which two for a character are enough: a text is longer than each of
its parts. -/
theorem read_spelled (fuel : Nat) :
    (∀ {depth : Nat} {value : Json} {text rest : List Char}, Spells depth value text →
      EndsNumber rest → 2 * text.length ≤ fuel →
      readValue fuel depth (text ++ rest) = .ok (value, rest)) ∧
    (∀ {depth : Nat} {items : List Json} {text rest : List Char}, SpellsItems depth items text →
      2 * text.length ≤ fuel → readItems fuel depth (text ++ rest) = .ok (items, rest)) ∧
    (∀ {depth : Nat} {members : List (String × Json)} {text rest : List Char},
      SpellsMembers depth members text → 2 * text.length ≤ fuel →
      readMembers fuel depth (text ++ rest) = .ok (members, rest)) := by
  have hcomma : ∀ cs, EndsNumber (',' :: cs) := fun _ => ⟨rfl, by decide, by decide, by decide⟩
  have hbracket : ∀ cs, EndsNumber (']' :: cs) := fun _ => ⟨rfl, by decide, by decide, by decide⟩
  have hbrace : ∀ cs, EndsNumber ('}' :: cs) := fun _ => ⟨rfl, by decide, by decide, by decide⟩
  induction fuel with
  | zero =>
    refine ⟨fun h _ hfuel => ?_, fun h hfuel => ?_, fun h hfuel => ?_⟩
    · exact absurd h.opens.length_pos (by omega)
    · exact absurd h.opens.length_pos (by omega)
    · -- Members begin with a quote, so their text is not empty either.
      obtain ⟨cs, rfl⟩ := h.quoted
      exact absurd hfuel (by simp)
  | succ fuel ih =>
    obtain ⟨ihValue, ihItems, ihMembers⟩ := ih
    refine ⟨fun {_ _ _ rest} h hends hfuel => ?_, fun h hfuel => ?_,
      fun {_ _ _ rest} h hfuel => ?_⟩
    · cases h with
      | scalar h => exact h.2 fuel _ _ hends
      | noItems => rfl
      | noMembers => rfl
      | items hgap h =>
        simp only [List.length_cons, List.length_append] at hfuel
        exact readValue_items hgap h.opens (ihItems h (by omega))
      | members hgap h =>
        simp only [List.length_cons, List.length_append] at hfuel
        have hread := @ihMembers _ _ _ rest h (by omega)
        obtain ⟨cs, rfl⟩ := h.quoted
        exact readValue_members hgap hread
    · cases h with
      | last h hgap =>
        simp only [List.length_cons, List.length_append] at hfuel
        exact readItems_last hgap (ihValue h ((hbracket _).gap hgap) (by omega))
      | more h hgap hrest =>
        simp only [List.length_cons, List.length_append] at hfuel
        exact readItems_more hgap hrest.opens (ihValue h (hcomma _) (by omega))
          (ihItems hrest (by omega))
    · cases h with
      | last key hcolon h hgap =>
        simp only [List.length_cons, List.length_append] at hfuel
        exact readMembers_last key hcolon h.opens hgap (ihValue h ((hbrace _).gap hgap) (by omega))
      | more key hcolon h hgap hrest =>
        simp only [List.length_cons, List.length_append] at hfuel
        have hread := @ihMembers _ _ _ rest hrest (by omega)
        obtain ⟨cs, rfl⟩ := hrest.quoted
        exact readMembers_more key hcolon h.opens hgap (ihValue h (hcomma _) (by omega)) hread

theorem readFirst_spelled {value : Json} {text rest : List Char} (h : Spells maxDepth value text)
    (hrest : EndsNumber rest) : readFirst (text ++ rest) = .ok (value, rest) := by
  refine (read_spelled _).1 h hrest ?_
  rw [List.length_append]
  omega

end TreeManifest.Json
