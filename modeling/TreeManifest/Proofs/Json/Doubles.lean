import TreeManifest.Proofs.Json.Compact
import TreeManifest.Proofs.Json.Legible

/-!
# Printed doubles in front of other texts

A number is read the same whether its text ends there or goes on with something that is no part of
a number (`readNumber_append`). So a double that is read back from its printed form alone is read
back wherever it is printed (`readsAs_float`).
-/

namespace TreeManifest.Json

variable {cs rest after : List Char} {value : Json} {negative : Bool}

-- ---------------------------------------------------------------------------
-- What is left of a text
-- ---------------------------------------------------------------------------

theorem readWhole?_suffix {whole : List Char} (h : readWhole? cs = some (whole, after)) :
    after <:+ cs := by
  unfold readWhole? at h
  split at h
  · cases h
    exact List.suffix_cons _ _
  · split at h
    · rw [List.span_eq_takeWhile_dropWhile] at h
      cases h
      exact List.dropWhile_suffix _
    · cases h
  · cases h

theorem readFraction_suffix (cs : List Char) : (readFraction cs).2 <:+ cs := by
  unfold readFraction
  split
  · next digits =>
    rw [List.span_eq_takeWhile_dropWhile]
    split
    · exact List.suffix_rfl
    · exact (List.dropWhile_suffix _).trans (List.suffix_cons _ _)
  · exact List.suffix_rfl

theorem splitSign_suffix (cs : List Char) : (Decimal.splitSign cs).2 <:+ cs := by
  unfold Decimal.splitSign
  split
  · exact List.suffix_cons _ _
  · exact List.suffix_cons _ _
  · exact List.suffix_rfl

theorem readExponent_suffix (cs : List Char) : (readExponent cs).2 <:+ cs := by
  unfold readExponent
  split
  · next c body =>
    split
    · dsimp only
      split
      · exact List.suffix_rfl
      · next heq =>
        rw [List.span_eq_takeWhile_dropWhile] at heq
        cases heq
        exact ((List.dropWhile_suffix _).trans (splitSign_suffix _)).trans (List.suffix_cons _ _)
    · exact List.suffix_rfl
  · exact List.suffix_rfl

theorem readNumber_suffix (h : readNumber negative cs = .ok (value, after)) : after <:+ cs := by
  unfold readNumber at h
  split at h
  · cases h
  · next whole rest hwhole =>
    have hrest := readWhole?_suffix hwhole
    have hlast := ((readExponent_suffix _).trans (readFraction_suffix rest)).trans hrest
    dsimp only at h
    split at h
    · split at h
      · cases h
      · cases h
        exact hlast
    · cases h
      exact hlast

-- ---------------------------------------------------------------------------
-- What follows a number
-- ---------------------------------------------------------------------------

theorem span_append (h : EndsNumber rest) (cs : List Char) :
    (cs ++ rest).span Decimal.isDigit =
      ((cs.span Decimal.isDigit).1, (cs.span Decimal.isDigit).2 ++ rest) := by
  have hstop : rest.span Decimal.isDigit = ([], rest) :=
    span_digits (List.forall_mem_nil (Decimal.isDigit · = true)) h
  rw [List.span_eq_takeWhile_dropWhile] at hstop ⊢
  rw [List.span_eq_takeWhile_dropWhile]
  obtain ⟨htaken, hleft⟩ := Prod.mk.inj hstop
  induction cs with
  | nil => simp only [List.nil_append, htaken, hleft, List.takeWhile_nil, List.dropWhile_nil]
  | cons c cs ih =>
    obtain ⟨ihTaken, ihLeft⟩ := Prod.mk.inj ih
    cases hc : Decimal.isDigit c with
    | true => simp only [List.cons_append, List.takeWhile_cons_of_pos hc,
        List.dropWhile_cons_of_pos hc, ihTaken, ihLeft]
    | false => simp [hc]

theorem readWhole?_append (h : EndsNumber rest) {whole : List Char}
    (hread : readWhole? cs = some (whole, after)) :
    readWhole? (cs ++ rest) = some (whole, after ++ rest) := by
  unfold readWhole? at hread
  split at hread
  · cases hread
    rfl
  · next c cs hzero =>
    split at hread
    · next hc =>
      have hspan := span_append h (c :: cs)
      rw [Option.some.inj hread] at hspan
      rw [List.cons_append, readWhole?, if_pos hc, ← List.cons_append, hspan]
      exact hzero
    · cases hread
  · cases hread

theorem readFraction_append (h : EndsNumber rest) (cs : List Char) :
    readFraction (cs ++ rest) = ((readFraction cs).1, (readFraction cs).2 ++ rest) := by
  cases cs with
  | nil => exact readFraction_of_ends h
  | cons c cs =>
    by_cases hc : c = '.'
    · subst hc
      rw [List.cons_append, readFraction, span_append h cs, readFraction]
      rcases cs.span Decimal.isDigit with ⟨_ | ⟨digit, digits⟩, left⟩ <;> rfl
    · rw [List.cons_append, readFraction, readFraction]
      · rfl
      · simpa using hc
      · simpa using hc

theorem splitSign_append (hcs : cs ≠ []) (rest : List Char) :
    Decimal.splitSign (cs ++ rest) =
      ((Decimal.splitSign cs).1, (Decimal.splitSign cs).2 ++ rest) := by
  obtain ⟨c, cs, rfl⟩ := List.exists_cons_of_ne_nil hcs
  rw [List.cons_append]
  by_cases hminus : c = '-'
  · subst hminus
    rfl
  · by_cases hplus : c = '+'
    · subst hplus
      rfl
    · simp [Decimal.splitSign, hminus, hplus]

/-- The sign of an exponent could stand in front of another text, its digits could not. -/
theorem readExponent_append (h : EndsNumber rest) (hread : (readExponent cs).2 = []) :
    readExponent (cs ++ rest) = ((readExponent cs).1, rest) := by
  cases cs with
  | nil => exact readExponent_of_ends h
  | cons c cs =>
    rw [readExponent] at hread
    rw [List.cons_append, readExponent, readExponent]
    split at hread
    · next hc =>
      rw [if_pos hc, if_pos hc]
      dsimp only at hread ⊢
      rcases hspan : (Decimal.splitSign cs).2.span Decimal.isDigit with ⟨_ | ⟨digit, digits⟩, left⟩
      · rw [hspan] at hread
        cases hread
      · have hcs : cs ≠ [] := by
          rintro rfl
          cases hspan
        rw [hspan] at hread
        rw [splitSign_append hcs]
        dsimp only at hread ⊢
        rw [span_append h, hspan, hread]
        rfl
    · cases hread

theorem readNumber_append (h : EndsNumber rest) (hread : readNumber negative cs = .ok (value, [])) :
    readNumber negative (cs ++ rest) = .ok (value, rest) := by
  unfold readNumber at hread ⊢
  split at hread
  · cases hread
  · next whole after hwhole =>
    dsimp only at hread
    rw [readWhole?_append h hwhole]
    dsimp only
    rw [readFraction_append h]
    dsimp only
    split at hread
    · next hint =>
      split at hread
      · cases hread
      · next hlength =>
        obtain ⟨hvalue, hend⟩ := Prod.mk.inj (Except.ok.inj hread)
        rw [readExponent_append h hend, if_pos hint, if_neg hlength, hvalue]
    · next hdouble =>
      obtain ⟨hvalue, hend⟩ := Prod.mk.inj (Except.ok.inj hread)
      rw [readExponent_append h hend, if_neg hdouble, hvalue]

-- ---------------------------------------------------------------------------
-- Doubles
-- ---------------------------------------------------------------------------

theorem readNumber_digit (h : readNumber negative cs = .ok (value, after)) :
    ∃ c digits, cs = c :: digits ∧ Decimal.isDigit c = true := by
  unfold readNumber at h
  split at h
  · cases h
  · next whole rest hwhole =>
    unfold readWhole? at hwhole
    split at hwhole
    · exact ⟨'0', _, rfl, rfl⟩
    · next c digits _ =>
      split at hwhole
      · next hc => exact ⟨c, digits, rfl, hc⟩
      · cases hwhole
    · cases hwhole

theorem opens_name {name : List Char} (h : (name, value) ∈ names) : Opens name := by
  simp only [names, List.mem_cons, List.not_mem_nil, or_false, Prod.mk.injEq] at h
  rcases h with ⟨rfl, -⟩ | ⟨rfl, -⟩ | ⟨rfl, -⟩ | ⟨rfl, -⟩ | ⟨rfl, -⟩ | ⟨rfl, -⟩ <;>
    exact ⟨_, _, rfl, rfl, by decide⟩

theorem readValue_name {name : List Char} (h : (name, value) ∈ names) (fuel depth : Nat)
    (rest : List Char) : readValue (fuel + 1) depth (name ++ rest) = .ok (value, rest) := by
  simp only [names, List.mem_cons, List.not_mem_nil, or_false, Prod.mk.injEq] at h
  rcases h with ⟨rfl, rfl⟩ | ⟨rfl, rfl⟩ | ⟨rfl, rfl⟩ | ⟨rfl, rfl⟩ | ⟨rfl, rfl⟩ | ⟨rfl, rfl⟩ <;> rfl

theorem readValue_number {c : Char} (hc : Decimal.isDigit c = true) (negative : Bool)
    (fuel depth : Nat) (digits : List Char) :
    readValue (fuel + 1) depth (signOf negative ++ c :: digits) =
      readNumber negative (c :: digits) := by
  cases negative with
  | false => exact readValue_digit hc fuel depth digits
  | true => exact readValue_minus hc fuel depth digits

theorem opens_number {c : Char} (hc : Decimal.isDigit c = true) (negative : Bool)
    (digits : List Char) : Opens (signOf negative ++ c :: digits) := by
  cases negative with
  | false => exact opens_digit hc digits
  | true => exact ⟨'-', c :: digits, rfl, rfl, by decide⟩

theorem isSpace_of_isVisible {c : Char} (h : IsVisible c) : isSpace c = false := by
  refine eq_false_of_ne_true fun hspace => absurd h ?_
  simp only [isSpace, Bool.or_eq_true, decide_eq_true_eq] at hspace
  rcases hspace with ((rfl | rfl) | rfl) | rfl <;> decide

theorem skipSpace_visible (h : ∀ c ∈ cs, IsVisible c) : skipSpace cs = cs := by
  cases cs with
  | nil => rfl
  | cons c cs =>
    rw [skipSpace, List.dropWhile_cons_of_neg]
    simp [isSpace_of_isVisible (h c List.mem_cons_self)]

theorem readsAs_float {x : Float} (h : parse (float x).compact = .ok (.float x)) :
    ReadsAs (.float x) (printScalar (.float x)) := by
  have hvisible : ∀ c ∈ printScalar (.float x), IsVisible c := visible_render x
  have hprinted : (float x).compact.toList = printScalar (.float x) := String.toList_ofList
  obtain ⟨after, hread, hafter⟩ := parse_ok h
  rw [hprinted, skipSpace_visible hvisible, readFirst] at hread
  have hend : after <:+ printScalar (.float x) → after = [] := fun hsuffix => by
    rwa [skipSpace_visible fun c hc => hvisible c (hsuffix.subset hc)] at hafter
  replace hread := readValue_ok hread
  generalize printScalar (.float x) = text at hread hend ⊢
  cases hread with
  | name name hname =>
    have hnil : after = [] := hend (List.suffix_append _ _)
    subst hnil
    rw [List.append_nil]
    exact ⟨opens_name hname, fun fuel depth rest _ => readValue_name hname fuel depth rest⟩
  | number negative hnumber =>
    have hnil : after = [] := hend ((readNumber_suffix hnumber).trans (List.suffix_append _ _))
    subst hnil
    obtain ⟨c, digits, rfl, hc⟩ := readNumber_digit hnumber
    refine ⟨opens_number hc negative digits, fun fuel depth rest hrest => ?_⟩
    rw [List.append_assoc, List.cons_append, readValue_number hc]
    exact readNumber_append hrest hnumber

end TreeManifest.Json
