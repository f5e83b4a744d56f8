import Mathlib.Data.List.TakeDrop
import TreeManifest.Json.Printer
import TreeManifest.Json.Reader

/-!
# Printed scalars are read back

A scalar that is printed in front of another text is read back, and what follows it stays: strings
whatever follows them (`readText_printString`), integers if no number goes on there
(`readNumber_toDigits`). An integer is read up to `Decimal.maxDigits` digits.
-/

namespace TreeManifest.Json

-- ---------------------------------------------------------------------------
-- Strings
-- ---------------------------------------------------------------------------

/-- A character is printed as a short escape, as its number or as it is. -/
theorem escapeChar_cases (c : Char) :
    (∃ e, escapeChar c = ['\\', e] ∧ shortEscape? e = some c.toNat) ∨
      (c.toNat < 0x20 ∧ escapeChar c = '\\' :: 'u' :: Text.hexDigits 4 c.toNat) ∨
      (c ≠ '"' ∧ c ≠ '\\' ∧ ¬ c.toNat < 0x20 ∧ escapeChar c = [c]) := by
  by_cases hshort : c ∈ ['"', '\\', '\n', '\r', '\t', '\x08', '\x0c']
  · simp only [List.mem_cons, List.not_mem_nil, or_false] at hshort
    rcases hshort with rfl | rfl | rfl | rfl | rfl | rfl | rfl <;> exact .inl ⟨_, rfl, rfl⟩
  · simp only [List.mem_cons, List.not_mem_nil, or_false, not_or] at hshort
    obtain ⟨hquote, hback, hline, hreturn, htab, hbackspace, hpage⟩ := hshort
    simp only [escapeChar, hquote, hback, hline, hreturn, htab, hbackspace, hpage, if_false]
    by_cases hcontrol : c.toNat < 0x20
    · exact .inr (.inl ⟨hcontrol, if_pos hcontrol⟩)
    · exact .inr (.inr ⟨hquote, hback, hcontrol, if_neg hcontrol⟩)

theorem hexDigits_control : ∀ n < 0x20,
    Text.hexDigits 4 n = ['0', '0', Nat.digitChar (n / 16), Nat.digitChar (n % 16)] := by
  decide

theorem hexQuad?_control : ∀ n < 0x20,
    hexQuad? '0' '0' (Nat.digitChar (n / 16)) (Nat.digitChar (n % 16)) = some n := by
  decide

theorem readUnits_escapeChar (c : Char) (cs : List Char) :
    readUnits (escapeChar c ++ cs) =
      (readUnits cs).map fun (units, rest) => (c.toNat :: units, rest) := by
  rcases escapeChar_cases c with
    ⟨e, hprinted, hescape⟩ | ⟨hcontrol, hprinted⟩ | ⟨hquote, hback, hcontrol, hprinted⟩
  · have hu : e ≠ 'u' := by
      rintro rfl
      cases hescape
    rw [hprinted]
    show readUnits ('\\' :: e :: cs) = _
    rw [readUnits, hescape]
    · cases readUnits cs <;> rfl
    · simp [hu]
  · rw [hprinted, hexDigits_control _ hcontrol]
    show readUnits ('\\' :: 'u' :: '0' :: '0' :: _ :: _ :: cs) = _
    rw [readUnits, hexQuad?_control _ hcontrol]
    cases readUnits cs <;> rfl
  · rw [hprinted]
    show readUnits (c :: cs) = _
    rw [readUnits, if_neg hcontrol]
    · cases readUnits cs <;> rfl
    · simpa using hquote
    · simp [hback]
    · simp [hback]

theorem readUnits_escaped (cs rest : List Char) :
    readUnits (cs.flatMap escapeChar ++ '"' :: rest) = some (cs.map Char.toNat, rest) := by
  induction cs with
  | nil => rfl
  | cons c cs ih =>
    rw [List.flatMap_cons, List.append_assoc, readUnits_escapeChar, ih]
    rfl

theorem joinSurrogates_cons {unit : Nat} (h : unit < 0xD800 ∨ 0xE000 ≤ unit) (units : List Nat) :
    joinSurrogates (unit :: units) = Char.ofNat unit :: joinSurrogates units := by
  have hunit : (decide (0xD800 ≤ unit) && decide (unit < 0xE000)) = false := by
    simp only [Bool.and_eq_false_iff, decide_eq_false_iff_not]
    omega
  cases units with
  | nil => simp only [joinSurrogates, hunit, Bool.false_eq_true, if_false]
  | cons low units =>
    have hhigh : (decide (0xD800 ≤ unit) && decide (unit < 0xDC00)) = false := by
      simp only [Bool.and_eq_false_iff, decide_eq_false_iff_not]
      omega
    simp only [joinSurrogates, hhigh, hunit, Bool.false_and, Bool.false_eq_true, if_false]

theorem joinSurrogates_toNat (cs : List Char) : joinSurrogates (cs.map Char.toNat) = cs := by
  induction cs with
  | nil => rfl
  | cons c cs ih =>
    have hvalid : c.toNat < 0xD800 ∨ 0xE000 ≤ c.toNat := c.valid.imp_right And.left
    rw [List.map_cons, joinSurrogates_cons hvalid, ih, Char.ofNat_toNat]

theorem readText_printString (text : String) (rest : List Char) :
    ∃ cs, printString text ++ rest = '"' :: cs ∧ readText cs = some (text, rest) := by
  refine ⟨text.toList.flatMap escapeChar ++ '"' :: rest, ?_, ?_⟩
  · simp [printString]
  · rw [readText, readUnits_escaped]
    simp only [Option.map_some, joinSurrogates_toNat, String.ofList_toList]

-- ---------------------------------------------------------------------------
-- Integers
-- ---------------------------------------------------------------------------

def EndsNumber : List Char → Prop
  | [] => True
  | c :: _ => Decimal.isDigit c = false ∧ c ≠ '.' ∧ c ≠ 'e' ∧ c ≠ 'E'

theorem readFraction_of_ends {rest : List Char} (h : EndsNumber rest) :
    readFraction rest = ([], rest) := by
  cases rest with
  | nil => rfl
  | cons c rest =>
    rw [readFraction]
    simpa using h.2.1

theorem readExponent_of_ends {rest : List Char} (h : EndsNumber rest) :
    readExponent rest = (none, rest) := by
  cases rest with
  | nil => rfl
  | cons c rest => simp [readExponent, h.2.2.1, h.2.2.2]

theorem toNat_of_isDigit {c : Char} (h : Decimal.isDigit c = true) :
    0x30 ≤ c.toNat ∧ c.toNat ≤ 0x39 := by
  simp only [Decimal.isDigit, Bool.and_eq_true, decide_eq_true_eq, Char.le_def,
    UInt32.le_iff_toNat_le] at h
  exact h

theorem isDigit_of_mem_toDigits {n : Nat} {c : Char} (h : c ∈ Nat.toDigits 10 n) :
    Decimal.isDigit c = true :=
  Nat.isDigit_of_mem_toDigits (by decide) (by decide) h

theorem length_toDigits_le {n k : Nat} (hk : 0 < k) (h : n < Nat.pow 10 k) :
    (Nat.toDigits 10 n).length ≤ k :=
  (Nat.length_toDigits_le_iff (by decide) hk).mpr h

theorem head?_toDigits_ne {n : Nat} (h : 0 < n) : (Nat.toDigits 10 n).head? ≠ some '0' := by
  induction n using Nat.strongRecOn with
  | ind n ih =>
    by_cases hn : n < 10
    · have hdigit : ∀ n < 10, 0 < n → (Nat.toDigits 10 n).head? ≠ some '0' := by decide
      exact hdigit n hn h
    · have hfront := ih (n / 10) (by omega) (by omega)
      rw [Nat.toDigits_of_base_le (by decide) (Nat.not_lt.mp hn), List.head?_append]
      rcases hdigits : Nat.toDigits 10 (n / 10) with _ | ⟨c, digits⟩
      · exact absurd hdigits Nat.toDigits_ne_nil
      · simpa [hdigits] using hfront

theorem span_digits {digits rest : List Char} (hdigits : ∀ c ∈ digits, Decimal.isDigit c = true)
    (hrest : EndsNumber rest) : (digits ++ rest).span Decimal.isDigit = (digits, rest) := by
  have hstop : rest.takeWhile Decimal.isDigit = [] ∧ rest.dropWhile Decimal.isDigit = rest := by
    cases rest with
    | nil => exact ⟨rfl, rfl⟩
    | cons c rest => simp [hrest.1]
  rw [List.span_eq_takeWhile_dropWhile, List.takeWhile_append_of_pos hdigits,
    List.dropWhile_append_of_pos hdigits, hstop.1, hstop.2, List.append_nil]

theorem readWhole?_toDigits (n : Nat) {rest : List Char} (h : EndsNumber rest) :
    readWhole? (Nat.toDigits 10 n ++ rest) = some (Nat.toDigits 10 n, rest) := by
  rcases Nat.eq_zero_or_pos n with rfl | hn
  · rfl
  have hspan := span_digits (fun _ => isDigit_of_mem_toDigits (n := n)) h
  have hzero := head?_toDigits_ne hn
  rcases hdigits : Nat.toDigits 10 n with _ | ⟨c, digits⟩
  · exact absurd hdigits Nat.toDigits_ne_nil
  · have hc : Decimal.isDigit c = true := isDigit_of_mem_toDigits (hdigits ▸ List.mem_cons_self)
    rw [hdigits] at hspan hzero
    rw [List.cons_append, readWhole?, if_pos hc]
    · exact congrArg some hspan
    · simpa using hzero

theorem readNumber_toDigits (negative : Bool) {n : Nat} (hn : n < Nat.pow 10 Decimal.maxDigits)
    {rest : List Char} (h : EndsNumber rest) :
    readNumber negative (Nat.toDigits 10 n ++ rest) =
      .ok (.int (if negative then -n else n), rest) := by
  have hlength : ¬ Decimal.maxDigits < (Nat.toDigits 10 n).length :=
    Nat.not_lt.mpr (length_toDigits_le (by decide) hn)
  have hvalue : Decimal.digitsValue (Nat.toDigits 10 n) = n := Nat.ofDigitChars_ten_toDigits
  rw [readNumber, readWhole?_toDigits n h]
  simp only [readFraction_of_ends h, readExponent_of_ends h, hvalue, if_neg hlength]
  rfl

end TreeManifest.Json
