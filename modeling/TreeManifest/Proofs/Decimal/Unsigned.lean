import Mathlib
import TreeManifest.Failure

/-!
# Sums of prices that are not negative

Addition of doubles rounds, but never turns prices that are not negative into one that is
(`not_lt_zero_add`). The two zeros differ in their sign only, and a total without a minus sign does
not tell them apart (`add_eq_of_beq_zero`).
-/

namespace TreeManifest.Decimal

open Float.Model Float.Model.UnpackedFloat

def IsUnsigned : UnpackedFloat → Prop
  | .notANumber => True
  | .infinity sign | .zero sign | .finite sign .. => sign = .positive

/-- A value that is unsigned, or a zero of either sign. -/
def IsNonNegative (value : UnpackedFloat) : Prop := IsUnsigned value ∨ ∃ sign, value = .zero sign

theorem compare_zero_ne_lt_iff {value : UnpackedFloat} :
    value.compare (.zero .positive) ≠ some .lt ↔ IsNonNegative value := by
  rcases value with ⟨_ | _⟩ | _ | sign | ⟨_ | _, _, _, _⟩ <;>
    simp [UnpackedFloat.compare, IsNonNegative, IsUnsigned]

theorem compare_zero_eq_iff {value : UnpackedFloat} :
    value.compare (.zero .positive) = some .eq ↔ ∃ sign, value = .zero sign := by
  rcases value with ⟨_ | _⟩ | _ | sign | ⟨_ | _, _, _, _⟩ <;> simp [UnpackedFloat.compare]

-- ---------------------------------------------------------------------------
-- Addition, rounding and packing keep the sign
-- ---------------------------------------------------------------------------

theorem isUnsigned_roundWithAccuracy (format : Format) (mantissa : Nat) (exponent : Int)
    (accuracy : Accuracy) :
    IsUnsigned (roundWithAccuracy format .positive mantissa exponent accuracy) := by
  unfold roundWithAccuracy
  simp only
  split <;> rfl

theorem isUnsigned_normalize (format : Format) {mantissa : Int} (exponent : Int)
    (h : 0 ≤ mantissa) :
    IsUnsigned (UnpackedFloat.normalize format mantissa exponent .positive) := by
  unfold UnpackedFloat.normalize
  split
  case h_1 hlt => exact absurd (Int.compare_eq_lt.mp hlt) (Int.not_lt.mpr h)
  case h_2 => rfl
  case h_3 => exact isUnsigned_roundWithAccuracy ..

theorem isUnsigned_add (format : Format) {x y : UnpackedFloat} (hx : IsUnsigned x)
    (hy : IsUnsigned y) : IsUnsigned (UnpackedFloat.add format x y) := by
  cases x <;> cases y <;> first | trivial | simp only [IsUnsigned] at hx hy
  all_goals subst_vars
  case finite.finite =>
    exact isUnsigned_normalize _ _ (Int.add_nonneg (Int.natCast_nonneg _) (Int.natCast_nonneg _))
  all_goals rfl

theorem isNonNegative_add (format : Format) {x y : UnpackedFloat} (hx : IsNonNegative x)
    (hy : IsNonNegative y) : IsNonNegative (UnpackedFloat.add format x y) := by
  rcases hx with hx | ⟨sign, rfl⟩
  · rcases hy with hy | ⟨sign, rfl⟩
    · exact .inl (isUnsigned_add format hx hy)
    · cases x with
      | zero sign' => cases sign <;> cases sign' <;> exact .inr ⟨_, rfl⟩
      | _ => exact .inl hx
  · cases y with
    | zero sign' => cases sign <;> cases sign' <;> exact .inr ⟨_, rfl⟩
    | _ => exact hy

theorem add_zero_eq (format : Format) {value : UnpackedFloat} (h : IsUnsigned value)
    (sign : Sign) :
    UnpackedFloat.add format value (.zero sign) =
      UnpackedFloat.add format value (.zero .positive) := by
  cases value with
  | zero => cases h; cases sign <;> rfl
  | _ => rfl

theorem unpackSign_pack {format : Format} {value : UnpackedFloat} (h : IsUnsigned value) :
    unpackSign (UnpackedFloat.pack format value) = 0#1 := by
  cases value with
  | notANumber => exact unpackSign_packComponents ..
  | infinity sign => cases h; exact unpackSign_packComponents ..
  | zero sign => cases h; exact unpackSign_packComponents ..
  | finite sign mantissa exponent hpos =>
    cases h
    unfold UnpackedFloat.pack
    simp only
    split
    · exact unpackSign_packComponents ..
    · split <;> exact unpackSign_packComponents ..

theorem isUnsigned_unpack {format : Format} {bits : BitVec format.numBits}
    (h : unpackSign bits = 0#1) : IsUnsigned (UnpackedFloat.unpack format bits) := by
  unfold UnpackedFloat.unpack
  simp only [h]
  split
  · split <;> trivial
  · split
    · split <;> rfl
    · rfl

theorem isNonNegative_pack {value : UnpackedFloat} (h : IsNonNegative value) :
    IsNonNegative (Float.Model.pack value).unpack := by
  rcases h with h | ⟨sign, rfl⟩
  · exact .inl (isUnsigned_unpack (unpackSign_pack h))
  · cases sign <;> exact .inr ⟨_, rfl⟩

-- ---------------------------------------------------------------------------
-- Doubles
-- ---------------------------------------------------------------------------

def Unsigned (x : Float) : Prop := IsUnsigned x.toModel.unpack

theorem unpack_zero : (0.0 : Float).toModel.unpack = .zero .positive := rfl

theorem unsigned_zero : Unsigned 0.0 := rfl

theorem Unsigned.add {x y : Float} (hx : Unsigned x) (hy : Unsigned y) : Unsigned (x + y) :=
  isUnsigned_unpack (unpackSign_pack (isUnsigned_add _ hx hy))

theorem not_lt_zero_iff {x : Float} : ¬ x < 0.0 ↔ IsNonNegative x.toModel.unpack := by
  rw [← compare_zero_ne_lt_iff, ← unpack_zero]
  refine not_congr ?_
  show decide ((_ == some Ordering.lt) = true) = true ↔ _
  simp

theorem beq_zero_iff {x : Float} : (x == 0.0) = true ↔ ∃ sign, x.toModel.unpack = .zero sign := by
  rw [← compare_zero_eq_iff, ← unpack_zero]
  show (_ == some Ordering.eq) = true ↔ _
  simp

theorem not_lt_zero_of_beq_zero {x : Float} (h : (x == 0.0) = true) : ¬ x < 0.0 :=
  not_lt_zero_iff.mpr (.inr (beq_zero_iff.mp h))

theorem not_lt_zero_add {x y : Float} (hx : ¬ x < 0.0) (hy : ¬ y < 0.0) : ¬ x + y < 0.0 :=
  not_lt_zero_iff.mpr
    (isNonNegative_pack (isNonNegative_add _ (not_lt_zero_iff.mp hx) (not_lt_zero_iff.mp hy)))

/-- A double that is not negative has no minus sign, unless it is a zero. -/
theorem unsigned_of_not_lt_zero {x : Float} (h : ¬ x < 0.0) (hx : ¬ (x == 0.0) = true) :
    Unsigned x :=
  (not_lt_zero_iff.mp h).resolve_right fun hzero => hx (beq_zero_iff.mpr hzero)

theorem Unsigned.add_eq_of_beq_zero {total x : Float} (h : Unsigned total)
    (hx : (x == 0.0) = true) : total + x = total + 0.0 := by
  obtain ⟨sign, hsign⟩ := beq_zero_iff.mp hx
  show Float.ofModel (.pack (UnpackedFloat.add _ _ x.toModel.unpack)) =
    Float.ofModel (.pack (UnpackedFloat.add _ _ (0.0 : Float).toModel.unpack))
  rw [hsign, unpack_zero, add_zero_eq _ h]

end TreeManifest.Decimal
