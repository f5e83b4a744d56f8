import Mathlib.Data.List.TakeWhile
import TreeManifest.Proofs.Json.Indented
import TreeManifest.Proofs.Report

/-!
# What is read is legible

A value is read in one of a few forms (`Reads`), and what is left of its text is told by the form.
What the reader gives is nested no deeper than the reader follows, has no key twice in an object,
and its integers have no more digits than the reader converts. So it can be printed and read again
(`legible_of_parse`), if that holds of each double in it (`Mentions`).
-/

namespace TreeManifest.Json

inductive Mentions (x : Float) : Json → Prop
  | here : Mentions x (.float x)
  | item {items : List Json} {item : Json} (hm : item ∈ items) (h : Mentions x item) :
      Mentions x (.arr items)
  | member {members : List (String × Json)} {member : String × Json} (hm : member ∈ members)
      (h : Mentions x member.2) : Mentions x (.obj members)

def DoublesReadBack (value : Json) : Prop :=
  ∀ x, Mentions x value → ReadsAs (.float x) (printScalar (.float x))

variable {fuel depth : Nat} {cs rest : List Char} {value : Json}

-- ---------------------------------------------------------------------------
-- Numbers
-- ---------------------------------------------------------------------------

theorem digitsValue_lt {digits : List Char} (h : ∀ c ∈ digits, Decimal.isDigit c = true) :
    Decimal.digitsValue digits < Nat.pow 10 digits.length := by
  suffices hfold : ∀ n : Nat, digits.foldl (fun n c => 10 * n + (c.toNat - 0x30)) n <
      (n + 1) * Nat.pow 10 digits.length from
    Nat.lt_of_lt_of_eq (hfold 0) (Nat.one_mul _)
  induction digits with
  | nil => simp
  | cons c digits ih =>
    intro n
    obtain ⟨hc, hdigits⟩ := List.forall_mem_cons.mp h
    have hdigit := toNat_of_isDigit hc
    calc digits.foldl (fun n c => 10 * n + (c.toNat - 0x30)) (10 * n + (c.toNat - 0x30))
      _ < (10 * n + (c.toNat - 0x30) + 1) * Nat.pow 10 digits.length := ih hdigits _
      _ ≤ (n + 1) * 10 * Nat.pow 10 digits.length := Nat.mul_le_mul_right _ (by omega)
      _ = (n + 1) * (Nat.pow 10 digits.length * 10) := by rw [Nat.mul_assoc, Nat.mul_comm 10]

theorem digitsValue_lt_pow {digits : List Char} {k : Nat}
    (h : ∀ c ∈ digits, Decimal.isDigit c = true) (hlength : digits.length ≤ k) :
    Decimal.digitsValue digits < Nat.pow 10 k :=
  Nat.lt_of_lt_of_le (digitsValue_lt h) (Nat.pow_le_pow_right (by decide) hlength)

theorem isDigit_readWhole {whole : List Char} (h : readWhole? cs = some (whole, rest)) :
    ∀ c ∈ whole, Decimal.isDigit c = true := by
  unfold readWhole? at h
  split at h
  · cases h
    exact List.forall_mem_singleton.mpr rfl
  · split at h
    · rw [List.span_eq_takeWhile_dropWhile] at h
      cases h
      exact fun c hc => List.mem_takeWhile_imp hc
    · cases h
  · cases h

theorem readNumber_ok {negative : Bool} (h : readNumber negative cs = .ok (value, rest)) :
    (∃ n : Int, value = .int n ∧ n.natAbs < Nat.pow 10 Decimal.maxDigits) ∨
      ∃ x, value = .float x := by
  unfold readNumber at h
  split at h
  · cases h
  · next whole after hwhole =>
    dsimp only at h
    split at h
    · split at h
      · cases h
      · next hlength =>
        cases h
        refine .inl ⟨_, rfl, ?_⟩
        have hvalue := digitsValue_lt_pow (isDigit_readWhole hwhole) (Nat.not_lt.mp hlength)
        split
        · rwa [Int.natAbs_neg, Int.natAbs_natCast]
        · rwa [Int.natAbs_natCast]
    · cases h
      exact .inr ⟨_, rfl⟩

theorem legible_readNumber {negative : Bool} (h : readNumber negative cs = .ok (value, rest))
    (hdoubles : DoublesReadBack value) : Legible depth value := by
  rcases readNumber_ok h with ⟨n, rfl, hn⟩ | ⟨x, rfl⟩
  · exact .int hn
  · exact .float (hdoubles x .here)

-- ---------------------------------------------------------------------------
-- Values
-- ---------------------------------------------------------------------------

theorem readItems_ok {items : List Json} (h : readItems (fuel + 1) depth cs = .ok (items, rest)) :
    ∃ item after, readValue fuel depth cs = .ok (item, after) ∧
      (items = [item] ∨ ∃ others next, items = item :: others ∧
        readItems fuel depth next = .ok (others, rest)) := by
  obtain ⟨⟨item, after⟩, hitem, h⟩ := bind_ok.mp h
  refine ⟨item, after, hitem, ?_⟩
  dsimp only at h
  split at h
  · cases h
    exact .inl rfl
  · next next _ =>
    obtain ⟨⟨others, rest'⟩, hothers, h⟩ := bind_ok.mp h
    cases h
    exact .inr ⟨others, _, rfl, hothers⟩
  · cases h

theorem readMembers_ok {members : List (String × Json)}
    (h : readMembers (fuel + 1) depth cs = .ok (members, rest)) :
    ∃ key text value after, readValue fuel depth text = .ok (value, after) ∧
      (members = [(key, value)] ∨ ∃ others next, members = (key, value) :: others ∧
        readMembers fuel depth next = .ok (others, rest)) := by
  unfold readMembers at h
  split at h
  · split at h
    · cases h
    · next key after hkey =>
      split at h
      · next text htext =>
        obtain ⟨⟨value, after⟩, hvalue, h⟩ := bind_ok.mp h
        refine ⟨key, _, value, after, hvalue, ?_⟩
        dsimp only at h
        split at h
        · cases h
          exact .inl rfl
        · obtain ⟨⟨others, rest'⟩, hothers, h⟩ := bind_ok.mp h
          cases h
          exact .inr ⟨others, _, rfl, hothers⟩
        · cases h
      · cases h
  · cases h

def names : List (List Char × Json) :=
  [("null".toList, .null), ("true".toList, .bool true), ("false".toList, .bool false),
    ("NaN".toList, .float (0.0 / 0.0)), ("Infinity".toList, .float (1.0 / 0.0)),
    ("-Infinity".toList, .float (-1.0 / 0.0))]

def signOf (negative : Bool) : List Char := if negative then ['-'] else []

/-- The forms of a value at the head of a text. The readers of its parts have `fuel` left. -/
inductive Reads (fuel : Nat) : Nat → List Char → Json → List Char → Prop
  | str {depth : Nat} {cs rest : List Char} {s : String} (h : readText cs = some (s, rest)) :
      Reads fuel depth ('"' :: cs) (.str s) rest
  | noItems {depth : Nat} {cs rest : List Char} (h : skipSpace cs = ']' :: rest) :
      Reads fuel (depth + 1) ('[' :: cs) (.arr []) rest
  | items {depth : Nat} {cs rest : List Char} {items : List Json}
      (h : readItems fuel depth (skipSpace cs) = .ok (items, rest)) :
      Reads fuel (depth + 1) ('[' :: cs) (.arr items) rest
  | noMembers {depth : Nat} {cs rest : List Char} (h : skipSpace cs = '}' :: rest) :
      Reads fuel (depth + 1) ('{' :: cs) (.obj []) rest
  | members {depth : Nat} {cs rest : List Char} {written : List (String × Json)}
      (hopen : (skipSpace cs).head? ≠ some '}')
      (h : readMembers fuel depth (skipSpace cs) = .ok (written, rest)) :
      Reads fuel (depth + 1) ('{' :: cs) (.obj (Mapping.ofList written)) rest
  | name {depth : Nat} (name : List Char) {rest : List Char} {value : Json}
      (h : (name, value) ∈ names) :
      Reads fuel depth (name ++ rest) value rest
  | number {depth : Nat} (negative : Bool) {cs rest : List Char} {value : Json}
      (h : readNumber negative cs = .ok (value, rest)) :
      Reads fuel depth (signOf negative ++ cs) value rest

theorem readValue_ok (h : readValue (fuel + 1) depth cs = .ok (value, rest)) :
    Reads fuel depth cs value rest := by
  unfold readValue at h
  split at h
  case h_1 =>
    split at h
    · next htext =>
      cases h
      exact .str htext
    · cases h
  case h_2 =>
    split at h
    · cases h
    · split at h
      · next hclose =>
        cases h
        exact .noItems hclose
      · obtain ⟨⟨items, after⟩, hitems, h⟩ := map_ok.mp h
        cases h
        exact .items hitems
  case h_3 =>
    split at h
    · cases h
    · split at h
      · next hclose =>
        cases h
        exact .noMembers hclose
      · next hopen =>
        obtain ⟨⟨written, after⟩, hwritten, h⟩ := map_ok.mp h
        cases h
        refine .members (fun hhead => ?_) hwritten
        obtain ⟨others, hothers⟩ := List.head?_eq_some_iff.mp hhead
        exact hopen others hothers
  case h_4 =>
    cases h
    exact .name "null".toList (by simp [names])
  case h_5 =>
    cases h
    exact .name "true".toList (by simp [names])
  case h_6 =>
    cases h
    exact .name "false".toList (by simp [names])
  case h_7 =>
    cases h
    exact .name "NaN".toList (by simp [names])
  case h_8 =>
    cases h
    exact .name "Infinity".toList (by simp [names])
  case h_9 =>
    cases h
    exact .name "-Infinity".toList (by simp [names])
  case h_10 => exact .number true h
  case h_11 => exact .number false h

theorem legible_name {name : List Char} (h : (name, value) ∈ names)
    (hdoubles : DoublesReadBack value) : Legible depth value := by
  simp only [names, List.mem_cons, List.not_mem_nil, or_false, Prod.mk.injEq] at h
  rcases h with ⟨-, rfl⟩ | ⟨-, rfl⟩ | ⟨-, rfl⟩ | ⟨-, rfl⟩ | ⟨-, rfl⟩ | ⟨-, rfl⟩
  · exact .null
  · exact .bool _
  · exact .bool _
  all_goals exact .float (hdoubles _ .here)

/-- By induction on the fuel: of an object only the last value of a key is left, which is one of
those that were read. -/
theorem read_legible (fuel : Nat) :
    (∀ {depth : Nat} {cs rest : List Char} {value : Json},
      readValue fuel depth cs = .ok (value, rest) → DoublesReadBack value → Legible depth value) ∧
    (∀ {depth : Nat} {cs rest : List Char} {items : List Json},
      readItems fuel depth cs = .ok (items, rest) →
      ∀ item ∈ items, DoublesReadBack item → Legible depth item) ∧
    (∀ {depth : Nat} {cs rest : List Char} {members : List (String × Json)},
      readMembers fuel depth cs = .ok (members, rest) →
      ∀ member ∈ members, DoublesReadBack member.2 → Legible depth member.2) := by
  induction fuel with
  | zero =>
    refine ⟨fun h => ?_, fun h => ?_, fun h => ?_⟩
    · rw [readValue] at h
      cases h
    · rw [readItems] at h
      cases h
    · rw [readMembers] at h
      cases h
  | succ fuel ih =>
    obtain ⟨ihValue, ihItems, ihMembers⟩ := ih
    refine ⟨fun {depth cs rest value} h hdoubles => ?_, fun h => ?_, fun h => ?_⟩
    · replace h := readValue_ok h
      cases h with
      | str => exact .str _
      | noItems => exact .arr (List.forall_mem_nil _)
      | items h => exact .arr fun item hm => ihItems h item hm fun x hx => hdoubles x (.item hm hx)
      | noMembers => exact .obj List.nodup_nil (List.forall_mem_nil _)
      | @members _ _ _ written _ h =>
        refine .obj (Mapping.nodup_keys_ofList written) fun member hm => ?_
        exact ihMembers h member (Mapping.mem_ofList hm) fun x hx => hdoubles x (.member hm hx)
      | name _ h => exact legible_name h hdoubles
      | number negative h => exact legible_readNumber h hdoubles
    · obtain ⟨item, after, hitem, rfl | ⟨others, next, rfl, hothers⟩⟩ := readItems_ok h
      · exact List.forall_mem_singleton.mpr (ihValue hitem)
      · exact List.forall_mem_cons.mpr ⟨ihValue hitem, ihItems hothers⟩
    · obtain ⟨key, text, value, after, hvalue, rfl | ⟨others, next, rfl, hothers⟩⟩ :=
        readMembers_ok h
      · exact List.forall_mem_singleton.mpr (ihValue hvalue)
      · exact List.forall_mem_cons.mpr ⟨ihValue hvalue, ihMembers hothers⟩

theorem parse_ok {text : String} (h : parse text = .ok value) :
    ∃ rest, readFirst (skipSpace text.toList) = .ok (value, rest) ∧ skipSpace rest = [] := by
  unfold parse at h
  obtain ⟨⟨value', rest⟩, hread, h⟩ := bind_ok.mp h
  dsimp only at h
  split at h
  · next hrest =>
    cases h
    exact ⟨rest, hread, hrest⟩
  · cases h

theorem legible_of_parse {text : String} (h : parse text = .ok value)
    (hdoubles : DoublesReadBack value) : Legible maxDepth value := by
  obtain ⟨rest, hread, -⟩ := parse_ok h
  exact (read_legible _).1 hread hdoubles

end TreeManifest.Json
