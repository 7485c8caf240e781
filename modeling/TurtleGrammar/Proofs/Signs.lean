import TurtleGrammar.Proofs.FloatOrder

/-! # Signs — what scaling by a positive number keeps

    Every float has a sign but the NaN: zeros have one, and so have infinities.
    A product or a quotient by a positive finite number has the sign of the
    number that was scaled (`sign?_mul`, `sign?_div`).  However the size is
    rounded, and even if it overflows to an infinity or underflows to a zero,
    the sign has been decided before.

    The sign is the first bit of a float (`signBit_eq_true`). -/

namespace TurtleGrammar.Scalar

open Float.Model (UnpackedFloat Format)
open Float.Model.UnpackedFloat

/-- The sign of an unpacked number. -/
def signOf : UnpackedFloat → Option Sign
  | .notANumber => none
  | .infinity s | .zero s | .finite s _ _ _ => some s

/-- The sign of a float; the NaN has none. -/
def sign? (x : Float) : Option Sign := signOf x.toModel.unpack

/-- The first bit of a float, which is set for negative numbers. -/
def signBit (x : Float) : Bool := x.toBits.toBitVec.msb

/-! ## Packing -/

/-- The fields of a packed number: unless they are those of a NaN the sign is in the first. -/
theorem signOf_unpack_packComponents {spec : Format} (s : Sign) {e : BitVec spec.exponentBits}
    {m : BitVec spec.mantissaBitsWithoutImplicit} (h : e = -1#_ → m = 0#_) :
    signOf (UnpackedFloat.unpack spec (packComponents spec s e m)) = some s := by
  simp only [UnpackedFloat.unpack, unpackExponent_packComponents, unpackMantissa_packComponents,
    unpackSign_packComponents, Sign.ofBitVec_toBitVec]
  split
  · rename_i hexponent
    rw [if_pos (h hexponent)]
    rfl
  · split
    · split <;> rfl
    · rfl

/-- Packing keeps the sign, even of a number that is too large for the format or has too many
    digits. -/
theorem signOf_unpack_pack (u : UnpackedFloat) :
    signOf (UnpackedFloat.unpack .binary64 (UnpackedFloat.pack .binary64 u)) = signOf u := by
  cases u with
  | notANumber =>
      rw [UnpackedFloat.pack, unpack_packedNaN]
  | infinity s => exact signOf_unpack_packComponents s fun _ => rfl
  | zero s => exact signOf_unpack_packComponents s fun _ => rfl
  | finite s m e hm =>
      rw [UnpackedFloat.pack]
      dsimp only
      -- packed as infinite, as normal or as subnormal: the sign bit is the same in all three
      split
      · exact signOf_unpack_packComponents s fun _ => rfl
      · rename_i hsmall
        split
        · refine signOf_unpack_packComponents s ?_
          intro h
          have hexponent := congrArg BitVec.toNat h
          rw [BitVec.toNat_ofNat, Nat.mod_eq_of_lt (by omega)] at hexponent
          exact absurd (hexponent ▸ le_rfl) hsmall
        · refine signOf_unpack_packComponents s ?_
          intro h
          exact absurd h (by decide)

/-- The sign of a packed float is that of what was packed. -/
theorem sign?_pack (u : UnpackedFloat) : sign? ⟨Float.Model.pack u⟩ = signOf u :=
  signOf_unpack_pack u

/-! ## Scaling -/

/-- To multiply by a positive sign keeps a sign. -/
theorem sign_mul_positive (s : Sign) : s * .positive = s := by
  cases s <;> rfl

theorem sign_div_positive (s : Sign) : s / .positive = s := by
  cases s <;> rfl

/-- Rounding is given the sign. -/
theorem signOf_round (spec : Format) (s : Sign) (m : ℕ) (e : ℤ) (accuracy : Accuracy) :
    signOf (roundWithAccuracy spec s m e accuracy) = some s := by
  rw [roundWithAccuracy]
  dsimp only
  split <;> rfl

/-- A positive finite float unpacks to a finite number without a minus. -/
theorem unpack_of_pos {y : Float} (hpos : 0 < y) (hfinite : y.isFinite = true) :
    ∃ m e hm, y.toModel.unpack = .finite .positive m e hm := by
  have hzero : (0 : Float).toModel.unpack = .zero .positive := rfl
  rw [lt_iff_compare, hzero] at hpos
  change y.toModel.unpack.isFinite = true at hfinite
  -- what is not above zero contradicts the comparison, what is not finite the second hypothesis
  cases hy : y.toModel.unpack with
  | finite s m e hm =>
      cases s with
      | positive => exact ⟨m, e, hm, rfl⟩
      | negative =>
          rw [hy] at hpos
          cases hpos
  | zero s =>
      rw [hy] at hpos
      cases hpos
  | infinity s =>
      rw [hy] at hfinite
      cases hfinite
  | notANumber =>
      rw [hy] at hfinite
      cases hfinite

/-- A product by a positive finite number has the sign of the other factor. -/
theorem sign?_mul (x : Float) {y : Float} (hpos : 0 < y) (hfinite : y.isFinite = true) :
    sign? (x * y) = sign? x := by
  obtain ⟨m, e, hm, hy⟩ := unpack_of_pos hpos hfinite
  have hproduct : sign? (x * y)
      = signOf (UnpackedFloat.mul .binary64 x.toModel.unpack y.toModel.unpack) := sign?_pack _
  rw [hproduct, hy, sign?]
  cases x.toModel.unpack with
  | notANumber => rfl
  | infinity s => exact congrArg some (sign_mul_positive s)
  | zero s => exact congrArg some (sign_mul_positive s)
  | finite s m' e' hm' =>
      exact (signOf_round _ _ _ _ _).trans (congrArg some (sign_mul_positive s))

/-- A quotient by a positive finite number has the sign of the dividend. -/
theorem sign?_div (x : Float) {y : Float} (hpos : 0 < y) (hfinite : y.isFinite = true) :
    sign? (x / y) = sign? x := by
  obtain ⟨m, e, hm, hy⟩ := unpack_of_pos hpos hfinite
  have hquotient : sign? (x / y)
      = signOf (UnpackedFloat.div .binary64 x.toModel.unpack y.toModel.unpack) := sign?_pack _
  rw [hquotient, hy, sign?]
  cases x.toModel.unpack with
  | notANumber => rfl
  | infinity s => exact congrArg some (sign_div_positive s)
  | zero s => exact congrArg some (sign_div_positive s)
  | finite s m' e' hm' =>
      exact (signOf_round _ _ _ _ _).trans (congrArg some (sign_div_positive s))

/-! ## The first bit -/

theorem sign?_eq_none {x : Float} : sign? x = none ↔ x.isNaN = true := by
  show signOf x.toModel.unpack = none ↔ x.toModel.unpack.isNaN = true
  cases x.toModel.unpack <;> simp [signOf, UnpackedFloat.isNaN]

/-- The sign is the first bit. -/
theorem unpackSign_eq (b : BitVec 64) : @unpackSign .binary64 b = BitVec.ofBool b.msb := by
  refine BitVec.eq_of_getLsbD_eq ?_
  intro i hi
  obtain rfl : i = 0 := Nat.lt_one_iff.mp hi
  rw [BitVec.msb_eq_getLsbD_last]
  simp [unpackSign, -BitVec.getLsbD_eq_getElem]

/-- The sign of a number is its first bit. -/
theorem signBit_eq_true {x : Float} {s : Sign} (h : sign? x = some s) :
    signBit x = true ↔ s = .negative := by
  have hs : Sign.ofBitVec (@unpackSign .binary64 x.toModel.toBits.toBitVec) = s := by
    change signOf (UnpackedFloat.unpack .binary64 x.toModel.toBits.toBitVec) = some s at h
    rw [UnpackedFloat.unpack] at h
    dsimp only at h
    split at h
    · split at h
      · exact Option.some.inj h
      · cases h
    · split at h
      · split at h <;> exact Option.some.inj h
      · exact Option.some.inj h
  rw [← hs, unpackSign_eq]
  show x.toModel.toBits.toBitVec.msb = true ↔ _
  cases x.toModel.toBits.toBitVec.msb <;> simp [Sign.ofBitVec]

/-- What has the sign of a number is a number with the same first bit. -/
theorem signBit_of_sign?_eq {x y : Float} (h : sign? y = sign? x) (hx : x.isNaN = false) :
    y.isNaN = false ∧ signBit y = signBit x := by
  have hsome : sign? x ≠ none := by
    rw [Ne, sign?_eq_none, hx]
    exact Bool.false_ne_true
  obtain ⟨s, hs⟩ := Option.ne_none_iff_exists'.mp hsome
  constructor
  · rw [← Bool.not_eq_true, ← sign?_eq_none, h]
    exact hsome
  · rw [Bool.eq_iff_iff, signBit_eq_true (h.trans hs), signBit_eq_true hs]

end TurtleGrammar.Scalar
