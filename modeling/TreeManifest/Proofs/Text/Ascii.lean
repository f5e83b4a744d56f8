import TreeManifest.Proofs.Text.Utf8

/-!
# Octets that are characters

An octet below `0x80` is a character wherever it stands: it goes on with no sequence
(`piecesFrom_ascii`), and no sequence comes to such a character (`piecesFrom_high`), since the range
of its next octet leaves overlong forms out (`Opened.IsProper`). So replacing such octets by others
replaces these characters in the text and nothing else, next to ill-formed parts too
(`decodeLossy_replaceAll`).
-/

namespace TreeManifest.Text

-- ---------------------------------------------------------------------------
-- Replacing one thing by others
-- ---------------------------------------------------------------------------

section

variable {α β : Type} [DecidableEq α] [DecidableEq β] {a b : α} {new as : List α}

def replaceAll (a : α) (new as : List α) : List α :=
  as.flatMap fun b => if b = a then new else [b]

@[simp] theorem replaceAll_nil : replaceAll a new [] = [] := rfl

theorem replaceAll_cons_self : replaceAll a new (a :: as) = new ++ replaceAll a new as := by
  simp [replaceAll]

theorem replaceAll_cons_of_ne (h : b ≠ a) :
    replaceAll a new (b :: as) = b :: replaceAll a new as := by
  simp [replaceAll, h]

theorem replaceAll_append (as bs : List α) :
    replaceAll a new (as ++ bs) = replaceAll a new as ++ replaceAll a new bs :=
  List.flatMap_append

theorem replaceAll_of_not_mem (h : a ∉ as) : replaceAll a new as = as := by
  induction as with
  | nil => rfl
  | cons b as ih =>
    rw [List.mem_cons, not_or] at h
    rw [replaceAll_cons_of_ne (Ne.symm h.1), ih h.2]

theorem mem_replaceAll (h : b ∈ replaceAll a new as) : b ∈ new ∨ b ≠ a ∧ b ∈ as := by
  obtain ⟨c, hc, hb⟩ := List.mem_flatMap.mp h
  split at hb
  · exact .inl hb
  · next hne =>
    obtain rfl := List.mem_singleton.mp hb
    exact .inr ⟨hne, hc⟩

theorem map_replaceAll {f : α → β} (h : ∀ b ∈ as, f b = f a → b = a) :
    (replaceAll a new as).map f = replaceAll (f a) (new.map f) (as.map f) := by
  induction as with
  | nil => rfl
  | cons b as ih =>
    obtain ⟨hb, has⟩ := List.forall_mem_cons.mp h
    by_cases heq : b = a
    · subst heq
      rw [replaceAll_cons_self, List.map_append, ih has, List.map_cons, replaceAll_cons_self]
    · rw [replaceAll_cons_of_ne heq, List.map_cons, ih has, List.map_cons,
        replaceAll_cons_of_ne fun hf => heq (hb hf)]

end

namespace Utf8

variable {s : Opened} {a b : UInt8} {opened : Option Opened} {octets new : List UInt8}

-- ---------------------------------------------------------------------------
-- Values of sequences
-- ---------------------------------------------------------------------------

theorem toNat_ofNat_of_isValidChar {n : Nat} (h : n.isValidChar) : (Char.ofNat n).toNat = n := by
  rw [Char.ofNat, dif_pos h]
  rfl

def Opened.least (s : Opened) : Nat := (s.bits * 64 + (s.low.toNat - 0x80)) * 64 ^ (s.owed - 1)

def Opened.bound (s : Opened) : Nat :=
  (s.bits * 64 + (s.high.toNat - 0x80) + 1) * 64 ^ (s.owed - 1)

/-- A sequence that can only come to characters above those of one octet. -/
structure Opened.IsProper (s : Opened) : Prop where
  owed : 0 < s.owed
  low : 0x80 ≤ s.low.toNat
  least : 0x80 ≤ s.least
  valid : s.bound ≤ 0xD800 ∨ 0xE000 ≤ s.least ∧ s.bound ≤ 0x110000

theorem isProper_of_lead (h : lead b = .opened s) : s.IsProper := by
  unfold lead at h
  simp only [beq_iff_eq] at h
  split_ifs at h <;> cases h <;> refine ⟨by simp, by simp, ?_, ?_⟩ <;>
    simp only [Opened.least, Opened.bound, UInt8.reduceToNat, Nat.reduceSub, Nat.pow_zero,
      Nat.reducePow] <;> omega

theorem toNat_of_continues (h : s.continues b = true) :
    s.low.toNat ≤ b.toNat ∧ b.toNat ≤ s.high.toNat := by
  simpa only [Opened.continues, Bool.and_eq_true, decide_eq_true_eq, UInt8.le_iff_toNat_le] using h

theorem Opened.push_range (h : s.continues b = true) :
    s.least ≤ (s.push b).bits * 64 ^ (s.owed - 1) ∧
      ((s.push b).bits + 1) * 64 ^ (s.owed - 1) ≤ s.bound := by
  obtain ⟨hlow, hhigh⟩ := toNat_of_continues h
  constructor <;>
  · refine Nat.mul_le_mul_right _ ?_
    simp only [push]
    omega

theorem Opened.IsProper.push (h : s.IsProper) (hb : s.continues b = true)
    (howed : (s.push b).owed ≠ 0) : (s.push b).IsProper := by
  obtain ⟨hleast, hbound⟩ := Opened.push_range hb
  have hpower : 64 ^ (s.owed - 1) = 64 * 64 ^ ((s.push b).owed - 1) := by
    rw [← Nat.pow_succ']
    congr 1
    simp only [Opened.push] at howed ⊢
    omega
  -- The next octet has the full range, so the values stay those that this octet has left.
  have hlow : (s.push b).low.toNat - 0x80 = 0 := by simp [Opened.push]
  have hhigh : (s.push b).high.toNat - 0x80 = 63 := by simp [Opened.push]
  have hleast' : (s.push b).least = (s.push b).bits * 64 ^ (s.owed - 1) := by
    rw [hpower, Opened.least, hlow, Nat.add_zero, Nat.mul_assoc]
  have hbound' : (s.push b).bound = ((s.push b).bits + 1) * 64 ^ (s.owed - 1) := by
    have hvalues : (s.push b).bits * 64 + 63 + 1 = ((s.push b).bits + 1) * 64 := by omega
    rw [hpower, Opened.bound, hhigh, hvalues, Nat.mul_assoc]
  refine ⟨Nat.pos_of_ne_zero howed, by simp [Opened.push], ?_, ?_⟩
  · exact hleast' ▸ h.least.trans hleast
  · have hvalid := h.valid
    rw [hleast', hbound']
    omega

theorem Opened.IsProper.toNat_char (h : s.IsProper) (hb : s.continues b = true)
    (howed : (s.push b).owed = 0) :
    0x80 ≤ (Char.ofNat (s.push b).bits).toNat := by
  obtain ⟨hleast, hbound⟩ := Opened.push_range hb
  have hone : s.owed - 1 = 0 := howed
  rw [hone, Nat.pow_zero, Nat.mul_one] at hleast hbound
  have hvalid : (s.push b).bits.isValidChar := by
    have := h.valid
    unfold Nat.isValidChar
    omega
  rw [toNat_ofNat_of_isValidChar hvalid]
  exact h.least.trans hleast

-- ---------------------------------------------------------------------------
-- Single octets
-- ---------------------------------------------------------------------------

def ascii (b : UInt8) : Char := Char.ofNat b.toNat

theorem toNat_ascii (h : b < 0x80) : (ascii b).toNat = b.toNat := by
  have hb : b.toNat < 0x80 := UInt8.lt_iff_toNat_lt.mp h
  rw [ascii, toNat_ofNat_of_isValidChar (.inl (by omega))]

theorem ascii_inj (ha : a < 0x80) (hb : b < 0x80) (h : ascii b = ascii a) : b = a := by
  rw [← UInt8.toNat_inj, ← toNat_ascii ha, ← toNat_ascii hb, h]

def interrupted : Option Opened → List Piece
  | none => []
  | some s => [.illFormed .invalidContinuation s.first s.size]

theorem scalar_not_mem_interrupted (c : Char) : .scalar c ∉ interrupted opened := by
  cases opened <;> simp [interrupted]

/-- An octet below `0x80` is a character, whatever was opened before it. -/
theorem piecesFrom_ascii (hopened : ∀ s ∈ opened, s.IsProper) (hb : b < 0x80)
    (rest : List UInt8) :
    piecesFrom opened (b :: rest) = interrupted opened ++ .scalar (ascii b) :: piecesFrom none rest := by
  have hlt : b.toNat < 0x80 := UInt8.lt_iff_toNat_lt.mp hb
  have hlead : lead b = .complete (ascii b) := by
    rw [lead, if_pos hlt, ascii]
  have hfresh : piecesFrom none (b :: rest) = .scalar (ascii b) :: piecesFrom none rest := by
    rw [piecesFrom, hlead]
  cases opened with
  | none => exact hfresh
  | some s =>
    have hcontinues : s.continues b = false := by
      refine eq_false_of_ne_true fun h => ?_
      have hlow := (hopened s rfl).low
      have := (toNat_of_continues h).1
      omega
    rw [piecesFrom_broken hcontinues, hfresh]
    rfl

/-- What an octet from `0x80` on adds, without a character below `0x80`, and what it leaves open. -/
theorem piecesFrom_high (hopened : ∀ s ∈ opened, s.IsProper) (hb : ¬ b < 0x80) :
    ∃ added next, (∀ rest, piecesFrom opened (b :: rest) = added ++ piecesFrom next rest) ∧
      (∀ s ∈ next, Opened.IsProper s) ∧ ∀ c, .scalar c ∈ added → 0x80 ≤ c.toNat := by
  -- At the start of a sequence the octet adds no character. It is read so too if it breaks one off.
  have hfresh : ∃ added next, (∀ rest, piecesFrom none (b :: rest) = added ++ piecesFrom next rest) ∧
      (∀ s ∈ next, Opened.IsProper s) ∧ ∀ c, .scalar c ∉ added := by
    rcases hlead : lead b with c | s | _
    · have hlarge : ¬ b.toNat < 0x80 := fun h => hb (UInt8.lt_iff_toNat_lt.mpr h)
      simp only [lead, hlarge, if_false] at hlead
      split_ifs at hlead
    · exact ⟨[], some s, fun rest => by rw [piecesFrom, hlead]; rfl,
        by simpa using isProper_of_lead hlead, by simp⟩
    · exact ⟨[.illFormed .invalidStart b 1], none, fun rest => by rw [piecesFrom, hlead]; rfl,
        by simp, by simp⟩
  cases opened with
  | none =>
    obtain ⟨added, next, hpieces, hnext, hadded⟩ := hfresh
    exact ⟨added, next, hpieces, hnext, fun c hc => absurd hc (hadded c)⟩
  | some s =>
    cases hcontinues : s.continues b with
    | false =>
      obtain ⟨added, next, hpieces, hnext, hadded⟩ := hfresh
      refine ⟨.illFormed .invalidContinuation s.first s.size :: added, next, fun rest => ?_, hnext,
        fun c hc => absurd hc (by simpa using hadded c)⟩
      rw [piecesFrom_broken hcontinues, hpieces, List.cons_append]
    | true =>
      by_cases howed : (s.push b).owed = 0
      · refine ⟨[.scalar (Char.ofNat (s.push b).bits)], none, fun rest => ?_, by simp, fun c hc => ?_⟩
        · rw [piecesFrom, if_pos hcontinues]
          simp only [if_pos howed]
          rfl
        · rw [Piece.scalar.inj (List.mem_singleton.mp hc)]
          exact (hopened s rfl).toNat_char hcontinues howed
      · refine ⟨[], some (s.push b), fun rest => ?_, ?_, by simp⟩
        · rw [piecesFrom, if_pos hcontinues]
          simp only [if_neg howed]
          rfl
        · rintro s' ⟨⟩
          exact (hopened s rfl).push hcontinues howed

-- ---------------------------------------------------------------------------
-- Replaced octets
-- ---------------------------------------------------------------------------

theorem piecesFrom_none_append (hnew : ∀ b ∈ new, b < 0x80) (rest : List UInt8) :
    piecesFrom none (new ++ rest) =
      new.map (fun b => .scalar (ascii b)) ++ piecesFrom none rest := by
  induction new with
  | nil => rfl
  | cons b new ih =>
    obtain ⟨hb, hnew⟩ := List.forall_mem_cons.mp hnew
    rw [List.cons_append, piecesFrom_ascii (by simp) hb, ih hnew]
    rfl

/-- A run of octets below `0x80` is read as these characters, after what it interrupts. -/
theorem piecesFrom_append (hopened : ∀ s ∈ opened, s.IsProper) (hnew : ∀ b ∈ new, b < 0x80)
    (hsome : new ≠ []) (rest : List UInt8) :
    piecesFrom opened (new ++ rest) =
      interrupted opened ++ new.map (fun b => .scalar (ascii b)) ++ piecesFrom none rest := by
  obtain ⟨b, new, rfl⟩ := List.exists_cons_of_ne_nil hsome
  obtain ⟨hb, hnew⟩ := List.forall_mem_cons.mp hnew
  rw [List.cons_append, piecesFrom_ascii hopened hb, piecesFrom_none_append hnew]
  simp

theorem piecesFrom_replaceAll (ha : a < 0x80) (hnew : ∀ b ∈ new, b < 0x80) (hsome : new ≠ [])
    (hopened : ∀ s ∈ opened, s.IsProper) (octets : List UInt8) :
    piecesFrom opened (replaceAll a new octets) =
      replaceAll (.scalar (ascii a)) (new.map fun b => .scalar (ascii b))
        (piecesFrom opened octets) := by
  induction octets generalizing opened with
  | nil =>
    refine (replaceAll_of_not_mem ?_).symm
    cases opened <;> simp [piecesFrom]
  | cons b rest ih =>
    have hbroken : replaceAll (.scalar (ascii a)) (new.map fun b => .scalar (ascii b))
        (interrupted opened) = interrupted opened :=
      replaceAll_of_not_mem (scalar_not_mem_interrupted (ascii a))
    by_cases hba : b = a
    · subst hba
      rw [replaceAll_cons_self, piecesFrom_append hopened hnew hsome, piecesFrom_ascii hopened ha,
        replaceAll_append, hbroken, replaceAll_cons_self, ih (by simp), List.append_assoc]
    rw [replaceAll_cons_of_ne hba]
    by_cases hb : b < 0x80
    · have hne : Piece.scalar (ascii b) ≠ .scalar (ascii a) := fun h =>
        hba (ascii_inj ha hb (Piece.scalar.inj h))
      rw [piecesFrom_ascii hopened hb, piecesFrom_ascii hopened hb, replaceAll_append, hbroken,
        replaceAll_cons_of_ne hne, ih (by simp)]
    · obtain ⟨added, next, hpieces, hnext, hadded⟩ := piecesFrom_high hopened hb
      have hkept : Piece.scalar (ascii a) ∉ added := fun hm => by
        have hlarge := hadded _ hm
        rw [toNat_ascii ha] at hlarge
        exact absurd hlarge (Nat.not_le.mpr (UInt8.lt_iff_toNat_lt.mp ha))
      rw [hpieces, hpieces, replaceAll_append, replaceAll_of_not_mem hkept, ih hnext]

def Piece.char : Piece → Char
  | .scalar c => c
  | .illFormed .. => '\uFFFD'

theorem decodeLossy_eq (octets : List UInt8) : decodeLossy octets = (pieces octets).map Piece.char :=
  rfl

theorem Piece.eq_scalar_of_char {piece : Piece} (ha : a < 0x80) (h : piece.char = ascii a) :
    piece = .scalar (ascii a) := by
  cases piece with
  | scalar c => exact congrArg Piece.scalar h
  | illFormed reason first size =>
    have hlarge : (0xFFFD : Nat) = a.toNat := by rw [← toNat_ascii ha, ← h]; rfl
    have hlt : a.toNat < 0x80 := UInt8.lt_iff_toNat_lt.mp ha
    omega

theorem decodeLossy_replaceAll (ha : a < 0x80) (hnew : ∀ b ∈ new, b < 0x80) (hsome : new ≠ [])
    (octets : List UInt8) :
    decodeLossy (replaceAll a new octets) =
      replaceAll (ascii a) (new.map ascii) (decodeLossy octets) := by
  have hread : ∀ piece ∈ pieces octets,
      piece.char = Piece.char (.scalar (ascii a)) → piece = .scalar (ascii a) :=
    fun _ _ => Piece.eq_scalar_of_char ha
  have hpieces : pieces (replaceAll a new octets) =
      replaceAll (.scalar (ascii a)) (new.map fun b => .scalar (ascii b)) (pieces octets) :=
    piecesFrom_replaceAll ha hnew hsome (by simp) octets
  rw [decodeLossy_eq, hpieces, map_replaceAll hread, List.map_map, ← decodeLossy_eq]
  rfl

theorem ascii_not_mem_decodeLossy (ha : a < 0x80) (h : a ∉ octets) : ascii a ∉ decodeLossy octets := by
  obtain ⟨b, hb, hne⟩ : ∃ b : UInt8, b < 0x80 ∧ b ≠ a := by
    by_cases hzero : a = 0
    · exact ⟨1, by decide, by simp [hzero]⟩
    · exact ⟨0, by decide, Ne.symm hzero⟩
  -- Replacing the octet changes nothing, and leaves no such character.
  have hsame : decodeLossy (replaceAll a [b] octets) =
      replaceAll (ascii a) [ascii b] (decodeLossy octets) :=
    decodeLossy_replaceAll ha (by simpa using hb) (by simp) octets
  rw [replaceAll_of_not_mem h] at hsame
  rw [hsame]
  intro hm
  rcases mem_replaceAll hm with hnew | ⟨hother, -⟩
  · exact hne (ascii_inj hb ha (List.mem_singleton.mp hnew)).symm
  · exact hother rfl

end Utf8

end TreeManifest.Text
