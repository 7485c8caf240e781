import TurtleGrammar.Plane.NodeKey
import TurtleGrammar.Proofs.Exact
import TurtleGrammar.Proofs.FloatOrder

/-! # Nearest integers — rounding to the grid is exact

    A number of cells is rounded to the nearest integer, a half going away from
    zero.  Of a float the integer is read off the mantissa and the exponent, and
    it is the one that is nearest to the value of the float
    (`nearestToFloat_eq`).  So all that is lost on the way to the grid is lost
    in the division, before anything is rounded to an integer.

    - **Same integer, near numbers**: the integer is at most a half away
      (`abs_nearestToRat_sub_le`), so two numbers with the same one are at most
      one apart (`abs_sub_le_one`).
    - **No integer is too large**: a number of cells that the grid counts has a
      size below `2^53` (`abs_toRat_lt`), and rounding does not lead past it
      (`abs_nearestToRat_le`).
    - **Off the grid nothing is rounded**: adding zero to a float changes the
      sign of a zero and nothing else (`same_of_add_zero_eq`). -/

namespace TurtleGrammar.Scalar

open Float.Model (UnpackedFloat)
open Float.Model.UnpackedFloat

/-! ## Rational numbers -/

/-- A number that is not negative is rounded by adding a half and dropping the fraction. -/
theorem nearestToRat_of_nonneg {q : ℚ} (h : 0 ≤ q) : nearestToRat q = ⌊q + 1 / 2⌋ :=
  if_neg (not_lt.mpr h)

/-- A negative number is rounded as its size is. -/
theorem nearestToRat_of_neg {q : ℚ} (h : q < 0) : nearestToRat q = -⌊-q + 1 / 2⌋ := if_pos h

theorem nearestToRat_zero : nearestToRat 0 = 0 := by decide +kernel

/-- A half goes away from zero on both sides of it. -/
theorem nearestToRat_neg (q : ℚ) : nearestToRat (-q) = -nearestToRat q := by
  rcases lt_trichotomy q 0 with hneg | rfl | hpos
  · rw [nearestToRat_of_neg hneg, nearestToRat_of_nonneg (neg_pos.mpr hneg).le, neg_neg]
  · rw [neg_zero, nearestToRat_zero, neg_zero]
  · rw [nearestToRat_of_nonneg hpos.le, nearestToRat_of_neg (neg_lt_zero.mpr hpos), neg_neg]

/-- Rounding moves a number by a half at most. -/
theorem abs_nearestToRat_sub_le (q : ℚ) : |(nearestToRat q : ℚ) - q| ≤ 1 / 2 := by
  have hnonneg : ∀ q : ℚ, 0 ≤ q → |(nearestToRat q : ℚ) - q| ≤ 1 / 2 := by
    intro q hq
    rw [nearestToRat_of_nonneg hq, abs_le]
    have hle := Int.floor_le (q + 1 / 2)
    have hlt := Int.lt_floor_add_one (q + 1 / 2)
    constructor <;> linarith
  -- below zero the sizes are rounded, with the same error
  rcases le_total 0 q with hq | hq
  · exact hnonneg q hq
  · have hneg := hnonneg (-q) (neg_nonneg.mpr hq)
    rw [nearestToRat_neg, Int.cast_neg, ← neg_sub', abs_neg] at hneg
    exact hneg

/-- Numbers that are rounded to one integer are at most one apart. -/
theorem abs_sub_le_one {q r : ℚ} (h : nearestToRat q = nearestToRat r) : |q - r| ≤ 1 := by
  have hq := abs_nearestToRat_sub_le q
  have hr := abs_nearestToRat_sub_le r
  rw [h, abs_sub_comm] at hq
  calc |q - r| = |(q - nearestToRat r) + (nearestToRat r - r)| := by rw [sub_add_sub_cancel]
    _ ≤ |q - nearestToRat r| + |(nearestToRat r : ℚ) - r| := abs_add_le _ _
    _ ≤ 1 := by linarith

/-- Rounding does not lead past an integer. -/
theorem abs_nearestToRat_le {q : ℚ} {n : ℕ} (h : |q| < n) : |nearestToRat q| ≤ n := by
  have hnear := abs_le.mp (abs_nearestToRat_sub_le q)
  have hq := abs_lt.mp h
  have hupper : (nearestToRat q : ℚ) < n + 1 := by linarith [hnear.2, hq.2]
  have hlower : -(n + 1 : ℚ) < nearestToRat q := by linarith [hnear.1, hq.1]
  have hupper' : nearestToRat q < n + 1 := by exact_mod_cast hupper
  have hlower' : -(n + 1 : ℤ) < nearestToRat q := by exact_mod_cast hlower
  exact abs_le.mpr ⟨by omega, by omega⟩

/-! ## Floats -/

theorem nearestToRat_natCast (n : ℕ) : nearestToRat n = n := by
  rw [nearestToRat_of_nonneg n.cast_nonneg, Int.floor_eq_iff]
  constructor <;> push_cast <;> linarith

/-- With an exponent that is not negative a float is a whole number. -/
theorem shiftLeft_eq_nearest (m e : ℕ) :
    ((m <<< e : ℕ) : ℤ) = nearestToRat (m * 2 ^ Int.ofNat e) := by
  rw [Nat.shiftLeft_eq, ← nearestToRat_natCast]
  push_cast
  rfl

/-- With a negative exponent the shift rounds as the rationals do. -/
theorem roundShifted_eq_nearest (m e : ℕ) :
    (roundShifted m (e + 1) : ℤ) = nearestToRat (m * 2 ^ Int.negSucc e) := by
  have hsum : (m * (2 ^ (e + 1))⁻¹ + 1 / 2 : ℚ)
      = (2 * m + 2 ^ (e + 1) : ℕ) / (2 ^ (e + 1 + 1) : ℕ) := by
    push_cast
    field_simp
    ring
  rw [zpow_negSucc, nearestToRat_of_nonneg (by positivity), hsum,
    Rat.floor_natCast_div_natCast, roundShifted, Nat.shiftRight_eq_div_pow, Nat.one_shiftLeft]
  norm_cast

/-- **The nearest integer to a float is the one that is nearest to its value.** -/
theorem nearestToFloat_eq (x : Float) : nearestToFloat x = nearestToRat (toRat x) := by
  rw [nearestToFloat, toRat]
  cases x.toModel.unpack with
  | notANumber => exact nearestToRat_zero.symm
  | infinity s => exact nearestToRat_zero.symm
  | zero s => exact nearestToRat_zero.symm
  | finite s m e hm =>
      -- only an exponent below zero leaves something to round
      cases s with
      | positive =>
          cases e with
          | ofNat e => exact shiftLeft_eq_nearest m e
          | negSucc e => exact roundShifted_eq_nearest m e
      | negative =>
          rw [valueOf, nearestToRat_neg]
          cases e with
          | ofNat e => exact congrArg Neg.neg (shiftLeft_eq_nearest m e)
          | negSucc e => exact congrArg Neg.neg (roundShifted_eq_nearest m e)

/-! ## Between two floats -/

/-- Finite floats are below each other as their values are. -/
theorem toRat_lt_iff {x y : Float} (hx : x.isFinite = true) (hy : y.isFinite = true) :
    x < y ↔ toRat x < toRat y := by
  rw [lt_iff_compare, compare_unpack hx hy, Option.some.injEq, compare_lt_iff_lt]

/-- What lies between two floats is finite. -/
theorem isFinite_of_lt_of_lt {x y z : Float} (hxy : x < y) (hyz : y < z) :
    y.isFinite = true := by
  show y.toModel.unpack.isFinite = true
  rw [lt_iff_compare] at hxy hyz
  revert hxy hyz
  generalize x.toModel.unpack = a
  generalize y.toModel.unpack = b
  generalize z.toModel.unpack = c
  -- nothing is above the one infinity or below the other, and the NaN compares with nothing
  rcases b with (_ | _) | _ | _ | _
  case infinity.positive =>
    rcases c with (_ | _) | _ | _ | _ <;> simp [UnpackedFloat.compare]
  case infinity.negative =>
    rcases a with (_ | _) | _ | _ | _ <;> simp [UnpackedFloat.compare]
  case notANumber =>
    rcases a with (_ | _) | _ | _ | _ <;> simp [UnpackedFloat.compare]
  all_goals simp [UnpackedFloat.isFinite]

theorem toRat_gridLimit : toRat Scalar.gridLimit = 2 ^ 53 := by
  show ((2 ^ 52 : ℕ) : ℚ) * 2 ^ (1 : ℤ) = _
  norm_num

theorem toRat_neg_gridLimit : toRat (-Scalar.gridLimit) = -2 ^ 53 := by
  show -(((2 ^ 52 : ℕ) : ℚ) * 2 ^ (1 : ℤ)) = _
  norm_num

/-- What can be counted is within the limit of the grid. -/
theorem abs_toRat_lt {x : Float} (h : NodeKey.countable x = true) : |toRat x| < 2 ^ 53 := by
  rw [NodeKey.countable, Bool.and_eq_true, decide_eq_true_iff, decide_eq_true_iff] at h
  obtain ⟨hlower, hupper⟩ := h
  have hfinite := isFinite_of_lt_of_lt hlower hupper
  rw [toRat_lt_iff (by decide) hfinite, toRat_neg_gridLimit] at hlower
  rw [toRat_lt_iff hfinite (by decide), toRat_gridLimit] at hupper
  exact abs_lt.mpr ⟨hlower, hupper⟩

/-! ## Adding zero -/

/-- Two floats are the same but for the sign of a zero. -/
def Same (x y : Float) : Prop := x = y ∨ (x == 0) = true ∧ (y == 0) = true

/-- The floats equal to zero are the two zeros. -/
theorem beq_zero_iff {x : Float} : (x == 0) = true ↔ ∃ s, x.toModel.unpack = .zero s := by
  show x.toModel.unpack.beq (.zero .positive) = true ↔ _
  rcases x.toModel.unpack with (_ | _) | _ | (_ | _) | ⟨_ | _, m, e, _⟩ <;>
    simp [UnpackedFloat.beq, UnpackedFloat.compare]

theorem unpack_add_zero (x : Float) :
    (x + 0).toModel.unpack = UnpackedFloat.unpack .binary64 (UnpackedFloat.pack .binary64
      (UnpackedFloat.add .binary64 x.toModel.unpack (.zero .positive))) := rfl

/-- To add a zero to a zero gives the positive one. -/
theorem add_zero_of_beq {x : Float} (h : (x == 0) = true) : x + 0 = 0 := by
  obtain ⟨s, hs⟩ := beq_zero_iff.mp h
  apply unpack_injective
  rw [unpack_add_zero, hs]
  cases s <;> rfl

/-- To add a zero to any other float changes nothing. -/
theorem add_zero_of_not_beq {x : Float} (h : (x == 0) = false) : x + 0 = x := by
  have hsum : UnpackedFloat.add .binary64 x.toModel.unpack (.zero .positive)
      = x.toModel.unpack := by
    cases hx : x.toModel.unpack with
    | zero s =>
        rw [beq_zero_iff.mpr ⟨s, hx⟩] at h
        cases h
    | notANumber | infinity | finite => rfl
  apply unpack_injective
  rw [unpack_add_zero, hsum]
  exact unpack_pack_unpack (by decide) _

/-- **Adding zero makes one of the two zeros** and of no other numbers. -/
theorem same_of_add_zero_eq {x y : Float} (h : x + 0 = y + 0) : Same x y := by
  -- zeros go to the positive zero and all else stays, so that a zero and a number cannot agree
  cases hx : x == 0 with
  | true =>
      cases hy : y == 0 with
      | true => exact .inr ⟨hx, hy⟩
      | false =>
          rw [add_zero_of_beq hx, add_zero_of_not_beq hy] at h
          rw [← h] at hy
          exact absurd hy (by decide)
  | false =>
      cases hy : y == 0 with
      | true =>
          rw [add_zero_of_not_beq hx, add_zero_of_beq hy] at h
          rw [h] at hx
          exact absurd hx (by decide)
      | false =>
          rw [add_zero_of_not_beq hx, add_zero_of_not_beq hy] at h
          exact .inl h

end TurtleGrammar.Scalar
