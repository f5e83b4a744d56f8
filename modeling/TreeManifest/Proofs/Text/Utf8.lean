import Mathlib.Tactic.IntervalCases
import TreeManifest.Text.Utf8

/-!
# Encoded texts are read back

The octets of a character, read from between two sequences, are that character and leave the reader
between sequences again (`piecesFrom_char`): the first octet announces how many follow, and each of
those adds six bits. So the pieces of an encoded text are its characters (`pieces_encode`), and a
zero octet is found nowhere but in the null character (`null_mem_decodeLossy`).
-/

namespace TreeManifest.Text.Utf8

variable {s : Opened} {b : UInt8} {bits : Nat}

-- ---------------------------------------------------------------------------
-- Octets of one sequence
-- ---------------------------------------------------------------------------

theorem toNat_following (h : bits < 64) : (UInt8.ofNat (bits + 0x80)).toNat = bits + 0x80 :=
  UInt8.toNat_ofNat_of_lt (by simp [UInt8.size]; omega)

theorem continues_following (h : bits < 64) :
    s.continues (UInt8.ofNat (bits + 0x80)) = true ↔
      s.low.toNat ≤ bits + 0x80 ∧ bits + 0x80 ≤ s.high.toNat := by
  rw [Opened.continues, Bool.and_eq_true, decide_eq_true_iff, decide_eq_true_iff,
    UInt8.le_iff_toNat_le, UInt8.le_iff_toNat_le, toNat_following h]

theorem push_following (h : bits < 64) :
    s.push (UInt8.ofNat (bits + 0x80)) =
      ⟨s.owed - 1, 0x80, 0xBF, s.bits * 64 + bits, s.first, s.size + 1⟩ := by
  rw [Opened.push, toNat_following h, Nat.add_sub_cancel]

theorem piecesFrom_last (h : bits < 64) (howed : s.owed = 1) (hlow : s.low.toNat ≤ bits + 0x80)
    (hhigh : bits + 0x80 ≤ s.high.toNat) (rest : List UInt8) :
    piecesFrom (some s) (UInt8.ofNat (bits + 0x80) :: rest) =
      .scalar (Char.ofNat (s.bits * 64 + bits)) :: piecesFrom none rest := by
  rw [piecesFrom, if_pos ((continues_following h).mpr ⟨hlow, hhigh⟩), push_following h]
  simp only [howed, Nat.sub_self, if_true]

/-- An octet after which the sequence owes more; the next one has the full range. -/
theorem piecesFrom_more (owed : Nat) (h : bits < 64) (howed : s.owed = owed + 2)
    (hlow : s.low.toNat ≤ bits + 0x80) (hhigh : bits + 0x80 ≤ s.high.toNat) (rest : List UInt8) :
    piecesFrom (some s) (UInt8.ofNat (bits + 0x80) :: rest) =
      piecesFrom (some ⟨owed + 1, 0x80, 0xBF, s.bits * 64 + bits, s.first, s.size + 1⟩) rest := by
  rw [piecesFrom, if_pos ((continues_following h).mpr ⟨hlow, hhigh⟩), push_following h]
  simp only [howed, Nat.reduceSubDiff]
  rw [if_neg (by omega)]

theorem piecesFrom_opened (h : lead b = .opened s) (rest : List UInt8) :
    piecesFrom none (b :: rest) = piecesFrom (some s) rest := by
  rw [piecesFrom, h]

-- ---------------------------------------------------------------------------
-- First octets
-- ---------------------------------------------------------------------------

theorem lead_one (h : bits < 0x80) : lead (UInt8.ofNat bits) = .complete (Char.ofNat bits) := by
  have hoctet : (UInt8.ofNat bits).toNat = bits :=
    UInt8.toNat_ofNat_of_lt (by simp [UInt8.size]; omega)
  rw [lead, hoctet, if_pos h]

theorem lead_two (bits : Nat) (hlow : 2 ≤ bits) (h : bits < 32) :
    lead (UInt8.ofNat (bits + 0xC0)) =
      .opened ⟨1, 0x80, 0xBF, bits, UInt8.ofNat (bits + 0xC0), 1⟩ := by
  interval_cases bits <;> rfl

/-- The next octet cannot make the form overlong, nor the value a surrogate. -/
theorem lead_three (bits : Nat) (h : bits < 16) :
    lead (UInt8.ofNat (bits + 0xE0)) =
      .opened ⟨2, if bits = 0 then 0xA0 else 0x80, if bits = 13 then 0x9F else 0xBF, bits,
        UInt8.ofNat (bits + 0xE0), 1⟩ := by
  interval_cases bits <;> rfl

theorem lead_four (bits : Nat) (h : bits < 5) :
    lead (UInt8.ofNat (bits + 0xF0)) =
      .opened ⟨3, if bits = 0 then 0x90 else 0x80, if bits = 4 then 0x8F else 0xBF, bits,
        UInt8.ofNat (bits + 0xF0), 1⟩ := by
  interval_cases bits <;> rfl

-- ---------------------------------------------------------------------------
-- Texts
-- ---------------------------------------------------------------------------

theorem piecesFrom_char (c : Char) (rest : List UInt8) :
    piecesFrom none (String.utf8EncodeChar c ++ rest) = .scalar c :: piecesFrom none rest := by
  have hscalar : c.toNat < 0xD800 ∨ 0xDFFF < c.toNat ∧ c.toNat < 0x110000 := c.valid
  have hchar : Char.ofNat c.toNat = c := Char.ofNat_toNat c
  rw [String.utf8EncodeChar]
  simp only [Char.toNat_val]
  generalize c.toNat = n at hscalar hchar ⊢
  split_ifs with hone htwo hthree <;> simp only [List.cons_append, List.nil_append]
  · rw [piecesFrom, lead_one (by omega), hchar]
  · have hlead := lead_two (n / 64 % 32) (by omega) (by omega)
    have hbits : n / 64 % 32 * 64 + n % 64 = n := by omega
    rw [piecesFrom_opened hlead, piecesFrom_last (by omega) rfl (by simp) (by simp; omega), hbits,
      hchar]
  · have hlead := lead_three (n / 4096 % 16) (by omega)
    have hbits : (n / 4096 % 16 * 64 + n / 64 % 64) * 64 + n % 64 = n := by omega
    rw [piecesFrom_opened hlead, piecesFrom_more 0 (by omega) rfl,
      piecesFrom_last (by omega) rfl (by simp) (by simp; omega), hbits, hchar]
    · dsimp only
      split <;> simp
      omega
    · dsimp only
      split <;> simp <;> omega
  · have hlead := lead_four (n / 262144 % 8) (by omega)
    have hbits : ((n / 262144 % 8 * 64 + n / 4096 % 64) * 64 + n / 64 % 64) * 64 + n % 64 = n := by
      omega
    rw [piecesFrom_opened hlead, piecesFrom_more 1 (by omega) rfl,
      piecesFrom_more 0 (by omega) rfl (by simp) (by simp; omega),
      piecesFrom_last (by omega) rfl (by simp) (by simp; omega), hbits, hchar]
    · dsimp only
      split <;> simp
      omega
    · dsimp only
      split <;> simp <;> omega

theorem pieces_encode (text : String) : pieces (encode text) = text.toList.map .scalar := by
  have hchars : ∀ cs : List Char,
      piecesFrom none (cs.flatMap String.utf8EncodeChar) = cs.map .scalar := by
    intro cs
    induction cs with
    | nil => rfl
    | cons c cs ih => rw [List.flatMap_cons, piecesFrom_char, ih, List.map_cons]
  exact hchars text.toList

theorem decodeLossy_encode (text : String) : decodeLossy (encode text) = text.toList := by
  rw [decodeLossy, pieces_encode, List.map_map]
  exact List.map_id _

-- ---------------------------------------------------------------------------
-- Zero octets
-- ---------------------------------------------------------------------------

/-- An octet that a sequence cannot take is read again as a first one. -/
theorem piecesFrom_broken (h : s.continues b = false) (rest : List UInt8) :
    piecesFrom (some s) (b :: rest) =
      .illFormed .invalidContinuation s.first s.size :: piecesFrom none (b :: rest) := by
  rw [piecesFrom, piecesFrom, if_neg (ne_true_of_eq_false h)]

theorem lead_low_pos (h : lead b = .opened s) : 0 < s.low := by
  unfold lead at h
  simp only at h
  split_ifs at h <;> cases h <;> exact UInt8.lt_iff_toNat_lt.mpr (by simp)

/-- A zero octet continues no sequence, whatever has been read so far, and is the null character. -/
theorem null_mem_piecesFrom (octets : List UInt8) (opened : Option Opened)
    (hopened : ∀ s ∈ opened, 0 < s.low) (h : 0 ∈ octets) :
    Piece.scalar '\x00' ∈ piecesFrom opened octets := by
  induction octets generalizing opened with
  | nil => cases h
  | cons b rest ih =>
    have hfresh : Piece.scalar '\x00' ∈ piecesFrom none (b :: rest) := by
      rw [piecesFrom]
      rcases List.mem_cons.mp h with rfl | h
      · exact List.mem_cons_self
      · split
        · exact List.mem_cons_of_mem _ (ih none (by simp) h)
        · next s hs => exact ih (some s) (by simpa using lead_low_pos hs) h
        · exact List.mem_cons_of_mem _ (ih none (by simp) h)
    rcases opened with _ | s
    · exact hfresh
    · cases hcontinues : s.continues b with
      | false =>
        rw [piecesFrom_broken hcontinues]
        exact List.mem_cons_of_mem _ hfresh
      | true =>
        have hzero : (0 : UInt8) ≠ b := by
          rintro rfl
          have hlow := hopened s rfl
          simp only [Opened.continues, Bool.and_eq_true, decide_eq_true_eq] at hcontinues
          exact absurd hlow (UInt8.not_lt.mpr hcontinues.1)
        have hrest : 0 ∈ rest := (List.mem_cons.mp h).resolve_left hzero
        rw [piecesFrom, if_pos hcontinues]
        dsimp only
        split
        · exact List.mem_cons_of_mem _ (ih none (by simp) hrest)
        · exact ih (some (s.push b)) (by simp [Opened.push]) hrest

theorem null_mem_decodeLossy {octets : List UInt8} (h : 0 ∈ octets) :
    '\x00' ∈ decodeLossy octets :=
  List.mem_map.mpr ⟨_, null_mem_piecesFrom octets none (by simp) h, rfl⟩

end TreeManifest.Text.Utf8
