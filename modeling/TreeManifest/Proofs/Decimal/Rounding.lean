import Mathlib
import TreeManifest.Decimal.Numeral
import TreeManifest.Proofs.Decimal.Unsigned

/-!
# Sums of prices do not fall

A sum of doubles is rounded, so it may stay what it was, but it does not fall below the first of two
that are not below zero (`le_add`): a double has the exponent that its format gives its value, and
rounding does not go below such a value from above it (`round_ge_canonical`). Only what is not a
number stands in no order (`not_le_of_isNaN`), and it stays in every sum (`isNaN_add_left`).
-/

namespace TreeManifest.Decimal

open Float.Model Float.Model.UnpackedFloat

def IsCanonical (format : Format) (mantissa : Nat) (exponent : Int) : Prop :=
  format.targetExponent (totalExponent mantissa exponent) = exponent

-- ---------------------------------------------------------------------------
-- Rounding
-- ---------------------------------------------------------------------------

theorem log2_add_le {m m' k : Nat} (hm : 0 < m) (h : m * 2 ^ k ≤ m') : m.log2 + k ≤ m'.log2 := by
  have hpos : 0 < m * 2 ^ k := Nat.mul_pos hm (Nat.two_pow_pos k)
  rw [Nat.le_log2 (by omega), Nat.pow_add]
  exact (Nat.mul_le_mul_right _ (Nat.log2_self_le hm.ne')).trans h

theorem log2_div {m k : Nat} (hm : 0 < m) (h : k ≤ m.log2) : (m / 2 ^ k).log2 = m.log2 - k := by
  have hle : 2 ^ (m.log2 - k) ≤ m / 2 ^ k := by
    rw [Nat.le_div_iff_mul_le (Nat.two_pow_pos k), ← Nat.pow_add, Nat.sub_add_cancel h]
    exact Nat.log2_self_le hm.ne'
  have hlt : m / 2 ^ k < 2 ^ (m.log2 - k + 1) := by
    rw [Nat.div_lt_iff_lt_mul (Nat.two_pow_pos k), ← Nat.pow_add,
      show m.log2 - k + 1 + k = m.log2 + 1 by omega]
    exact Nat.lt_log2_self
  exact (Nat.log2_eq_iff (Nat.two_pow_pos _ |>.trans_le hle).ne').mpr ⟨hle, hlt⟩

theorem mantissa_shiftRight (em : ExtendedMantissa) (n : Nat) :
    (em >>> n).mantissa = em.mantissa / 2 ^ n := by
  show (Nat.repeat ExtendedMantissa.shiftRightOne n em).mantissa = _
  induction n with
  | zero => simp [Nat.repeat]
  | succ n ih =>
    show (Nat.repeat ExtendedMantissa.shiftRightOne n em).mantissa / 2 = _
    rw [ih, Nat.div_div_eq_div_mul, ← Nat.pow_succ]

theorem le_roundedMantissa (em : ExtendedMantissa) : em.mantissa ≤ em.roundedMantissa := by
  obtain ⟨mantissa, _ | _, _ | _⟩ := em <;>
    simp [ExtendedMantissa.roundedMantissa, ExtendedMantissa.accuracy, Accuracy.roundToNearestEven]

/-- A mantissa that has been moved down to the exponent of its value is canonical. -/
theorem isCanonical_shift (format : Format) {m : Nat} (hm : 0 < m) {e : Int}
    (he : format.minExponent ≤ e) (h : e ≤ format.targetExponent (totalExponent m e)) :
    0 < m / 2 ^ (format.targetExponent (totalExponent m e) - e).toNat ∧
      IsCanonical format (m / 2 ^ (format.targetExponent (totalExponent m e) - e).toNat)
        (format.targetExponent (totalExponent m e)) := by
  generalize ht : format.targetExponent (totalExponent m e) = t at h
  rcases h.eq_or_lt with rfl | hlt
  · simp [IsCanonical, ht, hm]
  have hlog : (m.log2 : Int) + 1 + e - format.mantissaBits = t := by
    simp only [Format.targetExponent, totalExponent] at ht
    omega
  have hbits : 0 < format.mantissaBits := by simp [Format.mantissaBits]
  have hle : (t - e).toNat ≤ m.log2 := by omega
  have hpos : 0 < m / 2 ^ (t - e).toNat := by
    refine Nat.div_pos ?_ (Nat.two_pow_pos _)
    exact (Nat.pow_le_pow_right (by decide) hle).trans (Nat.log2_self_le hm.ne')
  refine ⟨hpos, ?_⟩
  simp only [IsCanonical, Format.targetExponent, totalExponent, log2_div hm hle]
  omega

theorem isCanonical_le_minExponent {format : Format} {m : Nat} {e : Int}
    (h : IsCanonical format m e) : format.minExponent ≤ e := by
  rw [← h]
  exact le_max_right _ _

theorem shiftToTargetExponent_eq {format : Format} {m : Nat} {e t : Int}
    (ht : format.targetExponent (totalExponent m e) = t) (h : e ≤ t) :
    shiftToTargetExponent format m e .exact =
      (ExtendedMantissa.ofMantissaAndAccuracy m .exact >>> (t - e).toNat, t) := by
  simp only [shiftToTargetExponent, shiftToExponent, ht]
  exact Prod.ext rfl (by simp only; omega)

/-- A value is rounded in two moves: to the exponent `t` of its format, and once more if the mantissa
`r` that this leaves has grown by a bit. -/
theorem round_eq {format : Format} (sign : Sign) {m r : Nat} {e t t' : Int}
    (ht : format.targetExponent (totalExponent m e) = t) (h : e ≤ t)
    (hr : (ExtendedMantissa.ofMantissaAndAccuracy m .exact >>> (t - e).toNat).roundedMantissa = r)
    (ht' : format.targetExponent (totalExponent r t) = t') (h' : t ≤ t')
    (hpos : 0 < r / 2 ^ (t' - t).toNat) :
    UnpackedFloat.round format sign m e = .finite sign (r / 2 ^ (t' - t).toNat) t' hpos := by
  have hdecrease : decreaseExponent m e t = (m, e) := by
    simp [decreaseExponent, show (e - t).toNat = 0 by omega]
  have hmantissa : (ExtendedMantissa.ofMantissaAndAccuracy r .exact >>> (t' - t).toNat).mantissa =
      r / 2 ^ (t' - t).toNat := mantissa_shiftRight _ _
  simp only [UnpackedFloat.round, ht, hdecrease, roundWithAccuracy, shiftToTargetExponent_eq ht h, hr,
    shiftToTargetExponent_eq ht' h', hmantissa, hpos.ne', ↓reduceDIte]

theorem div_le_roundedMantissa (m n : Nat) :
    m / 2 ^ n ≤ (ExtendedMantissa.ofMantissaAndAccuracy m .exact >>> n).roundedMantissa :=
  (mantissa_shiftRight (.ofMantissaAndAccuracy m .exact) n).symm.trans_le (le_roundedMantissa _)

/-- What is left of a mantissa at the exponent of its value has all bits of its format, if that is not
the least exponent. -/
theorem mantissaBits_le_log2 {format : Format} {m r : Nat} {e t : Int} (hm : 0 < m)
    (ht : format.targetExponent (totalExponent m e) = t) (hlt : format.minExponent < t)
    (h : e ≤ t) (hr : m / 2 ^ (t - e).toNat ≤ r) : 0 < r ∧ format.mantissaBits ≤ r.log2 + 1 := by
  have hbits : 0 < format.mantissaBits := by simp [Format.mantissaBits]
  simp only [Format.targetExponent, totalExponent] at ht
  have hn : (t - e).toNat ≤ m.log2 := by omega
  have hpos : 0 < m / 2 ^ (t - e).toNat :=
    Nat.div_pos ((Nat.pow_le_pow_right (by decide) hn).trans (Nat.log2_self_le hm.ne'))
      (Nat.two_pow_pos _)
  have hquotient := log2_div hm hn
  have hlog := log2_add_le (k := 0) hpos (by simpa using hr)
  exact ⟨hpos.trans_le hr, by omega⟩

/-- Rounding does not fall below a canonical value that it starts from or above. -/
theorem round_ge_canonical (format : Format) (sign : Sign) {m₁ m : Nat} {e₁ e : Int}
    (hpos : 0 < m₁) (hc : IsCanonical format m₁ e₁) (he : e ≤ e₁)
    (hle : m₁ * 2 ^ (e₁ - e).toNat ≤ m) :
    ∃ m' e', ∃ h : 0 < m', UnpackedFloat.round format sign m e = .finite sign m' e' h ∧
      IsCanonical format m' e' ∧ (e₁ < e' ∨ e₁ = e' ∧ m₁ ≤ m') := by
  have hmin := isCanonical_le_minExponent hc
  have hm : 0 < m := (Nat.mul_pos hpos (Nat.two_pow_pos _)).trans_le hle
  have hlog := log2_add_le hpos hle
  -- The exponent of the sum is no less than that of the canonical value.
  generalize ht : format.targetExponent (totalExponent m e) = t
  have het : e₁ ≤ t := by
    rw [IsCanonical] at hc
    simp only [Format.targetExponent, totalExponent] at hc ht
    omega
  have hquotient := div_le_roundedMantissa m (t - e).toNat
  generalize hr : (ExtendedMantissa.ofMantissaAndAccuracy m .exact >>>
    (t - e).toNat).roundedMantissa = r at hquotient
  -- It is the same, and the mantissa is no less, or it is greater, and no bit of the mantissa is
  -- unused; either way the second move does not go down.
  have hcases : e₁ = t ∧ m₁ ≤ r ∨ e₁ < t ∧ 0 < r ∧ format.mantissaBits ≤ r.log2 + 1 := by
    rcases het.eq_or_lt with rfl | hlt
    · exact .inl ⟨rfl, ((Nat.le_div_iff_mul_le (Nat.two_pow_pos _)).mpr hle).trans hquotient⟩
    · exact .inr ⟨hlt, mantissaBits_le_log2 hm ht (hmin.trans_lt hlt) (he.trans het) hquotient⟩
  have hrpos : 0 < r := by omega
  have htarget : t ≤ format.targetExponent (totalExponent r t) := by
    rw [IsCanonical] at hc
    simp only [Format.targetExponent, totalExponent] at hc ⊢
    rcases hcases with ⟨rfl, h⟩ | ⟨-, -, h⟩
    · have := log2_add_le (k := 0) hpos (by simpa using h)
      omega
    · omega
  obtain ⟨hfinal, hcanonical⟩ := isCanonical_shift format hrpos (hmin.trans het) htarget
  refine ⟨_, _, hfinal, round_eq sign ht (he.trans het) hr rfl htarget hfinal, hcanonical, ?_⟩
  rcases htarget.eq_or_lt with heq | hlt
  · rw [← heq]
    rcases hcases with ⟨rfl, h⟩ | ⟨h, -⟩
    · exact .inr ⟨rfl, by simpa using h⟩
    · exact .inl h
  · exact .inl (het.trans_lt hlt)

-- ---------------------------------------------------------------------------
-- Packing
-- ---------------------------------------------------------------------------

theorem isCanonical_binary64 {m : Nat} {e : Int} : IsCanonical .binary64 m e ↔
    m.log2 = 52 ∧ -1074 ≤ e ∨ m.log2 < 52 ∧ e = -1074 := by
  have hbits : Format.binary64.mantissaBits = 53 := rfl
  have hmin : Format.binary64.minExponent = -1074 := rfl
  simp only [IsCanonical, Format.targetExponent, totalExponent, hbits, hmin]
  omega

theorem isCanonical_unpack {bits : BitVec Format.binary64.numBits} {sign : Sign} {m : Nat} {e : Int}
    {h : 0 < m} (hu : UnpackedFloat.unpack .binary64 bits = .finite sign m e h) :
    IsCanonical .binary64 m e := by
  have hbias : Format.binary64.exponentBias = 1023 := rfl
  rw [isCanonical_binary64]
  unfold UnpackedFloat.unpack at hu
  simp only at hu
  split at hu
  · split at hu <;> cases hu
  split at hu
  case isTrue hzero =>
    split at hu
    · cases hu
    cases hu
    have hlt := (unpackMantissa bits).isLt
    refine .inr ⟨(Nat.log2_lt h.ne').mpr hlt, ?_⟩
    rw [hzero, hbias]
    rfl
  case isFalse hnonzero =>
    cases hu
    have hexponent : 0 < (unpackExponent bits).toNat := by
      rw [Nat.pos_iff_ne_zero]
      exact fun hn => hnonzero (BitVec.eq_of_toNat_eq hn)
    refine .inl ⟨?_, by rw [hbias]; omega⟩
    have hlt : (unpackMantissa bits).toNat < 2 ^ 52 := (unpackMantissa bits).isLt
    have hone : (1#1).toNat <<< Format.binary64.mantissaBitsWithoutImplicit = 2 ^ 52 := rfl
    rw [Nat.log2_eq_iff h.ne', BitVec.toNat_append,
      ← Nat.shiftLeft_add_eq_or_of_lt (unpackMantissa bits).isLt, hone]
    omega

theorem unpack_packComponents_normal (sign : Sign) {m field : Nat} (h : 0 < m) (hlog : m.log2 = 52)
    (hlow : 0 < field) (hhigh : field < 2047) :
    UnpackedFloat.unpack .binary64 (packComponents .binary64 sign
      (BitVec.ofNat Format.binary64.exponentBits field)
      (BitVec.ofNat Format.binary64.mantissaBitsWithoutImplicit m)) =
        .finite sign m ((field : Int) - 1075) h := by
  have hbias : Format.binary64.exponentBias = 1023 := rfl
  have hfield : (BitVec.ofNat 11 field).toNat = field := Nat.mod_eq_of_lt (by omega)
  have hones : BitVec.ofNat 11 field ≠ -1#11 := fun heq => by
    have hall : (-1#11).toNat = 2047 := rfl
    rw [← heq, hfield] at hall
    omega
  have hzero : BitVec.ofNat 11 field ≠ 0#11 := fun heq => by
    rw [heq] at hfield
    change 0 = field at hfield
    omega
  have hmantissa : (1#1 ++ BitVec.ofNat 52 m).toNat = m := by
    have hfit : (BitVec.ofNat 52 m).toNat < 2 ^ 52 := (BitVec.ofNat 52 m).isLt
    have hone : (1#1).toNat <<< 52 = 2 ^ 52 := rfl
    have hleast := hlog ▸ Nat.log2_self_le h.ne'
    have hlt : m < 2 ^ 53 := (Nat.log2_lt h.ne').mp (by omega)
    rw [BitVec.toNat_append, ← Nat.shiftLeft_add_eq_or_of_lt hfit, hone, BitVec.toNat_ofNat]
    omega
  simp only [UnpackedFloat.unpack, unpackMantissa_packComponents, unpackExponent_packComponents,
    unpackSign_packComponents, hbias, hones, hzero, ↓reduceIte, Sign.ofBitVec_toBitVec,
    hmantissa, hfield, UnpackedFloat.finite.injEq, true_and]
  omega

theorem unpack_packComponents_subnormal (sign : Sign) {m : Nat} (h : 0 < m) (hlog : m.log2 < 52) :
    UnpackedFloat.unpack .binary64 (packComponents .binary64 sign 0#_
      (BitVec.ofNat Format.binary64.mantissaBitsWithoutImplicit m)) =
        .finite sign m (-1074) h := by
  have hbias : Format.binary64.exponentBias = 1023 := rfl
  have hfit : (BitVec.ofNat 52 m).toNat = m := Nat.mod_eq_of_lt ((Nat.log2_lt h.ne').mp hlog)
  have hne : BitVec.ofNat 52 m ≠ 0#52 := fun heq => by
    rw [heq] at hfit
    change 0 = m at hfit
    omega
  simp only [UnpackedFloat.unpack, unpackMantissa_packComponents, unpackExponent_packComponents,
    unpackSign_packComponents, hbias, hne, ↓reduceIte, ↓reduceDIte, Sign.ofBitVec_toBitVec, hfit]
  rw [if_neg (by decide), UnpackedFloat.finite.injEq]
  exact ⟨rfl, rfl, rfl⟩

/-- Packing keeps a canonical value, or gives infinity where the value is too large. -/
theorem unpack_pack (sign : Sign) {m : Nat} {e : Int} (h : 0 < m) (hc : IsCanonical .binary64 m e) :
    (Float.Model.pack (.finite sign m e h)).unpack = .finite sign m e h ∨
      (Float.Model.pack (.finite sign m e h)).unpack = .infinity sign := by
  have hbias : Format.binary64.exponentBias = 1023 := rfl
  have hbits : Format.binary64.mantissaBits = 53 := rfl
  rw [isCanonical_binary64] at hc
  show UnpackedFloat.unpack .binary64 (UnpackedFloat.pack .binary64 _) = _ ∨
    UnpackedFloat.unpack .binary64 (UnpackedFloat.pack .binary64 _) = _
  simp only [UnpackedFloat.pack, hbias, hbits]
  split
  case isTrue =>
    right
    simp [UnpackedFloat.unpack, packedInfinity]
  case isFalse hexponent =>
    left
    split
    case isTrue hnormal =>
      rw [unpack_packComponents_normal sign h (by omega) (by omega) (by omega),
        UnpackedFloat.finite.injEq]
      exact ⟨rfl, rfl, by omega⟩
    case isFalse hsub =>
      obtain rfl : e = -1074 := by omega
      exact unpack_packComponents_subnormal sign h (by omega)

-- ---------------------------------------------------------------------------
-- Order
-- ---------------------------------------------------------------------------

/-- The order of values; nothing stands in it beside what is not a number. -/
def IsLE (x y : UnpackedFloat) : Prop := (x.compare y).any (·.isLE) = true

/-- A zero, or a value without a minus sign; a finite one is canonical. -/
inductive IsAtLeastZero : UnpackedFloat → Prop
  | zero (sign : Sign) : IsAtLeastZero (.zero sign)
  | infinity : IsAtLeastZero (.infinity .positive)
  | finite {m : Nat} {e : Int} (h : 0 < m) (hc : IsCanonical .binary64 m e) :
      IsAtLeastZero (.finite .positive m e h)

theorem isLE_infinity {x : UnpackedFloat} (h : IsAtLeastZero x) : IsLE x (.infinity .positive) := by
  cases h <;> rfl

theorem isLE_finite {m m' : Nat} {e e' : Int} (h : 0 < m) (h' : 0 < m') :
    IsLE (.finite .positive m e h) (.finite .positive m' e' h') ↔ e < e' ∨ e = e' ∧ m ≤ m' := by
  simp only [IsLE, UnpackedFloat.compare, Option.any_some, Ordering.isLE_then_iff_or,
    Int.compare_eq_lt, Nat.isLE_compare, compare_eq_iff_eq]

theorem isAtLeastZero_pack {value : UnpackedFloat} (h : IsAtLeastZero value) :
    IsAtLeastZero (Float.Model.pack value).unpack := by
  cases h with
  | zero sign =>
    have hpacked : (Float.Model.pack (.zero sign)).unpack = .zero sign := unpack_packedZero
    rw [hpacked]
    exact .zero sign
  | infinity => exact .infinity
  | finite hpos hc =>
    rcases unpack_pack .positive hpos hc with hpacked | hpacked
    · rw [hpacked]
      exact .finite hpos hc
    · rw [hpacked]
      exact .infinity

theorem isLE_pack {x value : UnpackedFloat} (hx : IsAtLeastZero x) (hv : IsAtLeastZero value)
    (h : IsLE x value) : IsLE x (Float.Model.pack value).unpack := by
  cases hv with
  | zero sign =>
    have hpacked : (Float.Model.pack (.zero sign)).unpack = .zero sign := unpack_packedZero
    rwa [hpacked]
  | infinity => exact h
  | finite hpos hc =>
    rcases unpack_pack .positive hpos hc with hpacked | hpacked
    · rwa [hpacked]
    · rw [hpacked]
      exact isLE_infinity hx

theorem isLE_add {x y : UnpackedFloat} (hx : IsAtLeastZero x) (hy : IsAtLeastZero y) :
    IsAtLeastZero (UnpackedFloat.add .binary64 x y) ∧ IsLE x (UnpackedFloat.add .binary64 x y) := by
  cases hx with
  | zero sign =>
    cases hy with
    | zero sign' => cases sign <;> cases sign' <;> exact ⟨.zero _, rfl⟩
    | infinity => exact ⟨.infinity, rfl⟩
    | finite h hc => exact ⟨.finite h hc, rfl⟩
  | infinity =>
    cases hy <;> exact ⟨.infinity, rfl⟩
  | @finite m₁ e₁ h₁ hc₁ =>
    cases hy with
    | zero sign => exact ⟨.finite h₁ hc₁, (isLE_finite h₁ h₁).mpr (.inr ⟨rfl, le_rfl⟩)⟩
    | infinity => exact ⟨.infinity, rfl⟩
    | @finite m₂ e₂ h₂ hc₂ =>
      have hfirst : 0 < m₁ * 2 ^ (e₁ - min e₁ e₂).toNat := Nat.mul_pos h₁ (Nat.two_pow_pos _)
      have hadd : UnpackedFloat.add .binary64 (.finite .positive m₁ e₁ h₁)
          (.finite .positive m₂ e₂ h₂) = UnpackedFloat.round .binary64 .positive
            (m₁ * 2 ^ (e₁ - min e₁ e₂).toNat + m₂ * 2 ^ (e₂ - min e₁ e₂).toNat) (min e₁ e₂) := by
        simp only [UnpackedFloat.add, decreaseExponent, Nat.shiftLeft_eq, Sign.apply,
          UnpackedFloat.normalize]
        rw [Int.compare_eq_gt.mpr (by omega), ← Int.natCast_add, Int.toNat_natCast]
      obtain ⟨m, e, h, hround, hc, hle⟩ := round_ge_canonical .binary64 .positive h₁ hc₁
        (min_le_left e₁ e₂) (Nat.le_add_right _ (m₂ * 2 ^ (e₂ - min e₁ e₂).toNat))
      rw [hadd, hround]
      exact ⟨.finite h hc, (isLE_finite h₁ h).mpr hle⟩

-- ---------------------------------------------------------------------------
-- Doubles
-- ---------------------------------------------------------------------------

theorem le_iff {x y : Float} : x ≤ y ↔ IsLE x.toModel.unpack y.toModel.unpack := by
  show decide (UnpackedFloat.le _ _ = true) = true ↔ _
  rw [decide_eq_true_eq]
  rfl

theorem zero_le_iff {x : Float} : 0.0 ≤ x ↔ IsAtLeastZero x.toModel.unpack := by
  rw [le_iff, unpack_zero]
  constructor
  · intro h
    generalize hv : x.toModel.unpack = value at h
    rcases value with ⟨_ | _⟩ | _ | sign | ⟨_ | _, m, e, hpos⟩
    case infinity.positive => exact .infinity
    case zero => exact .zero sign
    case finite.positive => exact .finite hpos (isCanonical_unpack hv)
    all_goals cases h
  · intro h
    generalize x.toModel.unpack = value at h ⊢
    cases h <;> rfl

theorem le_add {x y : Float} (hx : 0.0 ≤ x) (hy : 0.0 ≤ y) : x ≤ x + y := by
  rw [zero_le_iff] at hx hy
  obtain ⟨hsum, hle⟩ := isLE_add hx hy
  exact le_iff.mpr (isLE_pack hx hsum hle)

theorem zero_le_add {x y : Float} (hx : 0.0 ≤ x) (hy : 0.0 ≤ y) : 0.0 ≤ x + y := by
  rw [zero_le_iff] at hx hy
  exact zero_le_iff.mpr (isAtLeastZero_pack (isLE_add hx hy).1)

theorem le_self {x : Float} (h : 0.0 ≤ x) : x ≤ x := by
  rw [zero_le_iff] at h
  rw [le_iff]
  generalize x.toModel.unpack = value at h ⊢
  cases h with
  | zero sign => rfl
  | infinity => rfl
  | finite hpos hc => exact (isLE_finite hpos hpos).mpr (.inr ⟨rfl, le_rfl⟩)

theorem isNaN_iff {x : Float} : x.isNaN = true ↔ x.toModel.unpack = .notANumber :=
  UnpackedFloat.isNaN_iff

theorem zero_le_of_not_lt {x : Float} (h : ¬ x < 0.0) (hn : ¬ x.isNaN = true) : 0.0 ≤ x := by
  rw [not_lt_zero_iff] at h
  rw [isNaN_iff] at hn
  rw [le_iff, unpack_zero]
  generalize x.toModel.unpack = value at h hn ⊢
  rcases h with h | ⟨sign, rfl⟩
  · cases value <;> first | exact absurd rfl hn | (cases h; rfl)
  · rfl

theorem not_le_of_isNaN {x y : Float} (h : y.isNaN = true) : ¬ x ≤ y := by
  rw [le_iff, isNaN_iff.mp h]
  cases x.toModel.unpack <;> simp [IsLE, UnpackedFloat.compare]

theorem isNaN_pack_notANumber : (Float.ofModel (.pack .notANumber)).isNaN = true :=
  isNaN_iff.mpr unpack_packedNaN

theorem isNaN_add_left {x y : Float} (h : x.isNaN = true) : (x + y).isNaN = true := by
  show (Float.ofModel (.pack (UnpackedFloat.add _ x.toModel.unpack _))).isNaN = true
  rw [isNaN_iff.mp h]
  exact isNaN_pack_notANumber

theorem isNaN_add_right {x y : Float} (h : y.isNaN = true) : (x + y).isNaN = true := by
  show (Float.ofModel (.pack (UnpackedFloat.add _ _ y.toModel.unpack))).isNaN = true
  rw [isNaN_iff.mp h]
  cases x.toModel.unpack <;> exact isNaN_pack_notANumber

-- ---------------------------------------------------------------------------
-- Integers as doubles
-- ---------------------------------------------------------------------------

def IsUnsignedNumber (value : UnpackedFloat) : Prop := IsUnsigned value ∧ value ≠ .notANumber

theorem unpack_pack_ne_notANumber {value : UnpackedFloat} (h : value ≠ .notANumber) :
    (Float.Model.pack value).unpack ≠ .notANumber := by
  show UnpackedFloat.unpack .binary64 (UnpackedFloat.pack .binary64 value) ≠ _
  cases value with
  | notANumber => exact absurd rfl h
  | infinity sign => simp [UnpackedFloat.pack, UnpackedFloat.unpack, packedInfinity]
  | zero sign => simp [UnpackedFloat.pack]
  | finite sign m e hpos =>
    simp only [UnpackedFloat.pack]
    split
    · simp [UnpackedFloat.unpack, packedInfinity]
    rename_i hsize
    generalize (e + (Format.binary64.exponentBias : Int) +
      (Format.binary64.mantissaBitsWithoutImplicit : Nat)).toNat = field at hsize ⊢
    have hones : BitVec.ofNat Format.binary64.exponentBits field ≠ -1#_ := fun heq => by
      have hall : (-1#11).toNat = 2047 := rfl
      rw [← heq, BitVec.toNat_ofNat] at hall
      omega
    split
    · simp only [UnpackedFloat.unpack, unpackExponent_packComponents, if_neg hones]
      split
      · split <;> nofun
      · nofun
    · simp only [UnpackedFloat.unpack, unpackExponent_packComponents]
      rw [if_neg (by decide)]
      split
      · split <;> nofun
      · nofun

theorem IsUnsignedNumber.zero_le {value : UnpackedFloat} (h : IsUnsignedNumber value) :
    0.0 ≤ Float.ofModel (.pack value) := by
  refine zero_le_of_not_lt (not_lt_zero_iff.mpr (isNonNegative_pack (.inl h.1))) ?_
  rw [isNaN_iff]
  exact unpack_pack_ne_notANumber h.2

theorem isUnsignedNumber_round (format : Format) (m : Nat) (e : Int) :
    IsUnsignedNumber (roundWithAccuracy format .positive m e .exact) := by
  refine ⟨isUnsigned_roundWithAccuracy .., ?_⟩
  unfold roundWithAccuracy
  simp only
  split <;> simp

theorem isUnsignedNumber_ofNat (n : Nat) : IsUnsignedNumber (UnpackedFloat.ofNat .binary64 n) := by
  refine ⟨isUnsigned_normalize _ _ (Int.natCast_nonneg n), ?_⟩
  show UnpackedFloat.normalize .binary64 n 0 .positive ≠ _
  unfold UnpackedFloat.normalize
  split
  · rename_i hlt
    exact absurd (Int.compare_eq_lt.mp hlt) (by omega)
  · nofun
  · exact (isUnsignedNumber_round ..).2

theorem isUnsignedNumber_mul {x : UnpackedFloat} {m : Nat} {e : Int} {h : 0 < m}
    (hx : IsUnsignedNumber x) :
    IsUnsignedNumber (UnpackedFloat.mul .binary64 x (.finite .positive m e h)) := by
  obtain ⟨hx, hne⟩ := hx
  cases x with
  | notANumber => exact absurd rfl hne
  | infinity sign => cases hx; exact ⟨rfl, nofun⟩
  | zero sign => cases hx; exact ⟨rfl, nofun⟩
  | finite sign m' e' h' => cases hx; exact isUnsignedNumber_round ..

theorem IsUnsignedNumber.unpack_pack {value : UnpackedFloat} (h : IsUnsignedNumber value) :
    IsUnsignedNumber (Float.Model.pack value).unpack :=
  ⟨isUnsigned_unpack (unpackSign_pack h.1), unpack_pack_ne_notANumber h.2⟩

theorem zero_le_ofScientific (digits : Nat) : 0.0 ≤ Float.ofScientific digits false 0 := by
  unfold Float.ofScientific
  split
  · have hone : (Float.exactlyRepresentablePowersOfTen[0]).toModel.unpack =
        .finite .positive (2 ^ 52) (-52) (by decide) := rfl
    have hdigits := (isUnsignedNumber_ofNat digits.toUInt64.toNat).unpack_pack
    have hproduct : IsUnsignedNumber (UnpackedFloat.mul .binary64
        digits.toUInt64.toFloat.toModel.unpack
        (Float.exactlyRepresentablePowersOfTen[0]).toModel.unpack) :=
      hone ▸ isUnsignedNumber_mul hdigits
    exact hproduct.zero_le
  · simp only [Bool.false_eq_true, ↓reduceIte]
    have hvalue : IsUnsignedNumber (UnpackedFloat.ofScientific .binary64 digits (Int.ofNat 0)) := by
      unfold UnpackedFloat.ofScientific
      split
      · exact ⟨rfl, nofun⟩
      rw [if_neg (by decide)]
      split
      · exact ⟨rfl, nofun⟩
      rw [if_pos (by decide)]
      exact isUnsignedNumber_mul ⟨rfl, nofun⟩
    exact hvalue.zero_le

theorem zero_le_ofInt? {n : Int} {x : Float} (hn : 0 ≤ n) (h : ofInt? n = some x) : 0.0 ≤ x := by
  have hsize : 0.0 ≤ toFloat n.natAbs 0 := by
    unfold toFloat
    simp only
    split_ifs
    · decide
    · decide
    · decide
    · exact zero_le_ofScientific ..
    · omega
  unfold ofInt? at h
  simp only [if_neg (Int.not_lt.mpr hn)] at h
  split at h
  · cases h
  · exact Option.some.inj h ▸ hsize

end TreeManifest.Decimal
