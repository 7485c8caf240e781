import Mathlib.Algebra.Order.Field.Power
import Mathlib.Algebra.Order.Field.Rat
import Mathlib.Tactic.GCongr
import Mathlib.Tactic.NormNum
import Mathlib.Tactic.Positivity
import Mathlib.Tactic.Ring
import TurtleGrammar.Scalar

/-! # Exact values — the rational number that a float is

    Every finite float is a rational number.  Read as such, its size is at most
    the greatest finite number (`abs_toRat_le`), and two of them compare as
    their values do (`toRat_le_iff`).

    A comparison of floats looks at the exponents before it looks at the
    mantissas.  That this is the order of the values rests on what a float of
    the format can be (`unpack_shape`): unless its exponent is the least of
    all, its mantissa fills the format. -/

namespace TurtleGrammar.Scalar

open Float.Model (UnpackedFloat)
open Float.Model.UnpackedFloat

/-- The value of an unpacked number.  Infinities and the NaN have none and are read as
    zero. -/
def valueOf : UnpackedFloat → ℚ
  | .finite .positive mantissa exponent _ => mantissa * 2 ^ exponent
  | .finite .negative mantissa exponent _ => -(mantissa * 2 ^ exponent)
  | .zero _ | .infinity _ | .notANumber => 0

/-- The value of a float. -/
def toRat (x : Float) : ℚ := valueOf x.toModel.unpack

/-! ## What a float can be -/

/-- The mantissa and the exponent of a nonzero finite float. -/
structure Shape (mantissa : ℕ) (exponent : ℤ) : Prop where
  below : mantissa < 2 ^ 53
  least : -1074 ≤ exponent
  most : exponent ≤ 971
  /-- Small mantissas go with the least exponent alone. -/
  fills : -1074 < exponent → 2 ^ 52 ≤ mantissa

theorem toNat_implicit (mantissa : BitVec 52) :
    (1#1 ++ mantissa).toNat = 2 ^ 52 + mantissa.toNat := by
  rw [BitVec.toNat_append, ← Nat.shiftLeft_add_eq_or_of_lt mantissa.isLt]
  rfl

/-- The exponent field of a float that is neither infinite nor a NaN, nor close to zero. -/
theorem exponent_range {e : BitVec 11} (hmax : ¬ e = -1#11) (hzero : ¬ e = 0#11) :
    1 ≤ e.toNat ∧ e.toNat ≤ 2046 := by
  have hlt : e.toNat < 2 ^ 11 := e.isLt
  have hne : e.toNat ≠ 2047 := fun h => hmax (BitVec.eq_of_toNat_eq h)
  have hpos : e.toNat ≠ 0 := fun h => hzero (BitVec.eq_of_toNat_eq h)
  omega

/-- The shape of a finite float is that of the 64-bit format. -/
theorem unpack_shape {x : Float} {sign : Sign} {mantissa : ℕ} {exponent : ℤ} {hpos : 0 < mantissa}
    (h : x.toModel.unpack = .finite sign mantissa exponent hpos) : Shape mantissa exponent := by
  have hmantissa : (@unpackMantissa .binary64 x.toModel.toBits.toBitVec).toNat < 2 ^ 52 :=
    BitVec.isLt _
  have hbias : Float.Model.Format.binary64.exponentBias = 1023 := rfl
  unfold Float.Model.unpack UnpackedFloat.unpack at h
  dsimp only at h
  by_cases hmax : @unpackExponent .binary64 x.toModel.toBits.toBitVec = -1#11
  · rw [if_pos hmax] at h
    by_cases hm : @unpackMantissa .binary64 x.toModel.toBits.toBitVec = 0#52
    · rw [if_pos hm] at h
      cases h
    · rw [if_neg hm] at h
      cases h
  · rw [if_neg hmax] at h
    by_cases hzero : @unpackExponent .binary64 x.toModel.toBits.toBitVec = 0#11
    · -- the least exponent, and a mantissa without the implicit bit
      rw [if_pos hzero] at h
      by_cases hm : @unpackMantissa .binary64 x.toModel.toBits.toBitVec = 0#52
      · rw [dif_pos hm] at h
        cases h
      · rw [dif_neg hm] at h
        cases h
        rw [hzero, hbias]
        exact ⟨by omega, by decide, by decide, fun hlt => absurd hlt (by decide)⟩
    · rw [if_neg hzero] at h
      cases h
      obtain ⟨hleast, hgreatest⟩ := exponent_range hmax hzero
      rw [hbias, toNat_implicit]
      exact ⟨by omega, by omega, by omega, fun _ => by omega⟩

/-! ## The order of the values -/

/-- A number with the lesser exponent is less: the mantissa cannot make up for it. -/
theorem Shape.lt_of_exponent_lt {m m' : ℕ} {e e' : ℤ} (h : Shape m e) (h' : Shape m' e')
    (hlt : e < e') : (m * 2 ^ e : ℚ) < m' * 2 ^ e' := by
  have hbelow : (m : ℚ) < 2 ^ 53 := by exact_mod_cast h.below
  have hfills : (2 ^ 52 : ℚ) ≤ m' := by exact_mod_cast h'.fills (h.least.trans_lt hlt)
  calc (m * 2 ^ e : ℚ) < 2 ^ 53 * 2 ^ e := by gcongr
    _ = 2 ^ 52 * 2 ^ (e + 1) := by rw [zpow_add_one₀ two_ne_zero]; ring
    _ ≤ m' * 2 ^ e' := by
        gcongr
        · norm_num
        · omega

/-- To compare exponents first and mantissas second is to compare values. -/
theorem Shape.compare_eq {m m' : ℕ} {e e' : ℤ} (h : Shape m e) (h' : Shape m' e') :
    (compare e e').then (compare m m') = compare (m * 2 ^ e : ℚ) (m' * 2 ^ e') := by
  rcases lt_trichotomy e e' with hlt | rfl | hgt
  · rw [compare_lt_iff_lt.mpr hlt, compare_lt_iff_lt.mpr (h.lt_of_exponent_lt h' hlt)]
    rfl
  · have hpow : (0 : ℚ) < 2 ^ e := by positivity
    rw [compare_eq_iff_eq.mpr rfl]
    show compare m m' = _
    rcases lt_trichotomy m m' with hlt | rfl | hgt
    · rw [compare_lt_iff_lt.mpr hlt, eq_comm, compare_lt_iff_lt]
      gcongr
    · rw [compare_eq_iff_eq.mpr rfl, compare_eq_iff_eq.mpr rfl]
    · rw [compare_gt_iff_gt.mpr hgt, eq_comm, compare_gt_iff_gt]
      gcongr
  · rw [compare_gt_iff_gt.mpr hgt, compare_gt_iff_gt.mpr (h'.lt_of_exponent_lt h hgt)]
    rfl

/-- A finite float unpacks to a zero or to a number of the right shape. -/
theorem unpack_of_isFinite {x : Float} (h : x.isFinite = true) :
    (∃ s, x.toModel.unpack = .zero s)
      ∨ ∃ s m e hm, x.toModel.unpack = .finite s m e hm ∧ Shape m e := by
  change x.toModel.unpack.isFinite = true at h
  cases hu : x.toModel.unpack with
  | notANumber => rw [hu] at h; cases h
  | infinity s => rw [hu] at h; cases h
  | zero s => exact .inl ⟨s, rfl⟩
  | finite s m e hm => exact .inr ⟨s, m, e, hm, rfl, unpack_shape hu⟩

/-- Negation turns comparisons round. -/
theorem compare_neg_neg (a b : ℚ) : compare (-a) (-b) = (compare a b).swap := by
  rcases lt_trichotomy a b with hlt | rfl | hgt
  · rw [compare_lt_iff_lt.mpr hlt, compare_gt_iff_gt.mpr (neg_lt_neg hlt)]
    rfl
  · rw [compare_eq_iff_eq.mpr rfl, compare_eq_iff_eq.mpr rfl]
    rfl
  · rw [compare_gt_iff_gt.mpr hgt, compare_lt_iff_lt.mpr (neg_lt_neg hgt)]
    rfl

/-- **Finite floats compare as their values do.** -/
theorem compare_unpack {x y : Float} (hx : x.isFinite = true) (hy : y.isFinite = true) :
    x.toModel.unpack.compare y.toModel.unpack = some (compare (toRat x) (toRat y)) := by
  rw [toRat, toRat]
  -- a zero against a number is decided by the sign of the number, whatever the sign of the zero
  obtain ⟨s, hux⟩ | ⟨s, m, e, hm, hux, h⟩ := unpack_of_isFinite hx
  · obtain ⟨s', huy⟩ | ⟨s', m', e', hm', huy, h'⟩ := unpack_of_isFinite hy
    · rw [hux, huy]
      exact congrArg some (compare_eq_iff_eq.mpr rfl).symm
    · have hsize : (0 : ℚ) < m' * 2 ^ e' := by positivity
      rw [hux, huy]
      cases s' with
      | positive => exact congrArg some (compare_lt_iff_lt.mpr hsize).symm
      | negative => exact congrArg some (compare_gt_iff_gt.mpr (neg_lt_zero.mpr hsize)).symm
  · have hsize : (0 : ℚ) < m * 2 ^ e := by positivity
    obtain ⟨s', huy⟩ | ⟨s', m', e', hm', huy, h'⟩ := unpack_of_isFinite hy
    · rw [hux, huy]
      cases s with
      | positive => exact congrArg some (compare_gt_iff_gt.mpr hsize).symm
      | negative => exact congrArg some (compare_lt_iff_lt.mpr (neg_lt_zero.mpr hsize)).symm
    · have hsize' : (0 : ℚ) < m' * 2 ^ e' := by positivity
      -- of one sign the sizes are compared, and for two negative numbers the answer is swapped
      have hcmp := h.compare_eq h'
      rw [hux, huy]
      cases s with
      | positive =>
          cases s' with
          | positive => exact congrArg some hcmp
          | negative =>
              have hlt := (neg_lt_zero.mpr hsize').trans hsize
              exact congrArg some (compare_gt_iff_gt.mpr hlt).symm
      | negative =>
          cases s' with
          | positive =>
              have hlt := (neg_lt_zero.mpr hsize).trans hsize'
              exact congrArg some (compare_lt_iff_lt.mpr hlt).symm
          | negative =>
              show some ((compare e e').then (compare m m')).swap = _
              rw [hcmp, ← compare_neg_neg]
              rfl

/-- **Order**: finite floats compare as their values do. -/
theorem toRat_le_iff {x y : Float} (hx : x.isFinite = true) (hy : y.isFinite = true) :
    x ≤ y ↔ toRat x ≤ toRat y := by
  show decide (x.toModel ≤ y.toModel) = true ↔ _
  rw [decide_eq_true_iff]
  show (x.toModel.unpack.compare y.toModel.unpack).any (·.isLE) = true ↔ _
  rw [compare_unpack hx hy]
  exact Ordering.isLE_iff_ne_gt.trans compare_le_iff_le

/-! ## The greatest float -/

theorem mkRat_shiftLeft (m k : ℕ) : mkRat (m <<< k : ℕ) 1 = m * 2 ^ (k : ℤ) := by
  rw [Rat.mkRat_one, Nat.shiftLeft_eq, Int.cast_natCast, zpow_natCast, Nat.cast_mul, Nat.cast_pow]
  rfl

/-- The greatest finite number has the fullest mantissa and the greatest exponent. -/
theorem greatest_eq : (greatest : ℚ) = (2 ^ 53 - 1 : ℕ) * 2 ^ (971 : ℤ) := mkRat_shiftLeft _ 971

/-- The greatest float is the greatest scalar among the rationals too. -/
theorem toRat_greatest : toRat (greatest : Float) = greatest := by
  rw [greatest_eq]
  rfl

theorem toRat_neg_greatest : toRat (-greatest : Float) = -greatest := by
  rw [greatest_eq]
  rfl

theorem isFinite_greatest : (greatest : Float).isFinite = true := by
  decide

theorem isFinite_neg_greatest : (-greatest : Float).isFinite = true := by
  decide

/-- No float is beyond the greatest finite number. -/
theorem Shape.le_greatest {m : ℕ} {e : ℤ} (h : Shape m e) : (m * 2 ^ e : ℚ) ≤ greatest := by
  have hmantissa : m ≤ 2 ^ 53 - 1 := Nat.le_sub_one_of_lt h.below
  have hexponent : (2 ^ e : ℚ) ≤ 2 ^ (971 : ℤ) := by
    gcongr
    · norm_num
    · exact h.most
  rw [greatest_eq]
  gcongr

/-- **No float is of greater size than the greatest one.** -/
theorem abs_toRat_le (x : Float) : |toRat x| ≤ (greatest : ℚ) := by
  have hgreatest : (0 : ℚ) ≤ greatest := by
    rw [greatest_eq]
    positivity
  rw [toRat]
  match hu : x.toModel.unpack with
  | .notANumber | .infinity _ | .zero _ => exact abs_zero.le.trans hgreatest
  | .finite .positive m e _ =>
      show |(m * 2 ^ e : ℚ)| ≤ _
      rw [abs_of_nonneg (by positivity)]
      exact (unpack_shape hu).le_greatest
  | .finite .negative m e _ =>
      show |-(m * 2 ^ e : ℚ)| ≤ _
      rw [abs_neg, abs_of_nonneg (by positivity)]
      exact (unpack_shape hu).le_greatest

end TurtleGrammar.Scalar
