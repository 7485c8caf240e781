import Mathlib

/-! # The order of floats — comparisons read off a linear order

    A comparison of two floats is a table of cases over their signs, exponents
    and mantissas.  `Scalar.rank` puts the same cases into one linear order, in
    which every float has a place but the NaN, and one float is below another
    exactly when its place is (`lt_iff_rank`).  What is known of linear orders
    then holds of comparisons.

    Sizes are compared in particular: a size lies between zero and infinity
    when the float is a number, not zero and not infinite (`counts_iff`).

    The facts about packing floats that this rests on are in no part of Mathlib;
    they come with the whole of it, which is why it is imported here. -/

namespace TurtleGrammar.Scalar

open Float.Model (UnpackedFloat Format)
open Float.Model.UnpackedFloat

/-! ## Sizes -/

/-- What has been unpacked once is the same when it is packed and unpacked again. -/
theorem unpack_pack_unpack {spec : Format} (hspec : 2 ≤ spec.exponentBits)
    (b : BitVec spec.numBits) :
    UnpackedFloat.unpack spec (UnpackedFloat.pack spec (UnpackedFloat.unpack spec b))
      = UnpackedFloat.unpack spec b := by
  rw [pack_unpack b hspec]
  by_cases h : isNaNBits b = true
  · obtain ⟨hexponent, hmantissa⟩ := of_decide_eq_true h
    rw [if_pos h, unpack_packedNaN, UnpackedFloat.unpack, if_pos hexponent, if_neg hmantissa]
  · rw [if_neg h]

/-- A size has the bits of the number but for the sign. -/
theorem unpack_positive {spec : Format} (b : BitVec spec.numBits) :
    UnpackedFloat.unpack spec (packComponents spec .positive (unpackExponent b) (unpackMantissa b))
      = (UnpackedFloat.unpack spec b).abs := by
  simp only [UnpackedFloat.unpack, unpackExponent_packComponents, unpackMantissa_packComponents,
    unpackSign_packComponents, Sign.ofBitVec_toBitVec]
  split
  · split <;> rfl
  · split
    · split <;> rfl
    · rfl

/-- The size of a float is the float without its sign. -/
theorem unpack_abs (x : Float) : x.abs.toModel.unpack = x.toModel.unpack.abs := by
  show UnpackedFloat.unpack .binary64 (UnpackedFloat.pack .binary64
    (UnpackedFloat.unpack .binary64 x.toModel.toBits.toBitVec).abs) = _
  rw [← unpack_positive, unpack_pack_unpack (by decide), unpack_positive]
  rfl

/-! ## Order -/

/-- The place of a float among the others: by sign, exponent and mantissa. -/
def rank (x : Float) : Option (ℤ ×ₗ ℤ ×ₗ ℤ) :=
  match x.toModel.unpack with
  | .notANumber => none
  | .infinity .negative => some (toLex (-2, toLex (0, 0)))
  | .finite .negative mantissa exponent _ => some (toLex (-1, toLex (-exponent, -mantissa)))
  | .zero _ => some (toLex (0, toLex (0, 0)))
  | .finite .positive mantissa exponent _ => some (toLex (1, toLex (exponent, mantissa)))
  | .infinity .positive => some (toLex (2, toLex (0, 0)))

/-- One float is below another when comparing what they unpack to says so. -/
theorem lt_iff_compare {x y : Float} :
    x < y ↔ x.toModel.unpack.compare y.toModel.unpack = some .lt := by
  show decide (x.toModel < y.toModel) = true ↔ _
  rw [decide_eq_true_iff]
  show (x.toModel.unpack.compare y.toModel.unpack == some .lt) = true ↔ _
  exact beq_iff_eq

/-- One float is below another exactly when both have a place and the first has the lower
    one. -/
theorem lt_iff_rank {x y : Float} : x < y ↔ ∃ r ∈ rank x, ∃ r' ∈ rank y, r < r' := by
  have hsigns : compare Sign.negative Sign.positive = .lt := rfl
  rw [lt_iff_compare, rank, rank]
  generalize x.toModel.unpack = a
  generalize y.toModel.unpack = b
  -- every pair of cases of the comparison is a comparison of two places
  rcases a with (_ | _) | _ | (_ | _) | ⟨_ | _, m, e, _⟩ <;>
    rcases b with (_ | _) | _ | (_ | _) | ⟨_ | _, m', e', _⟩ <;>
    simp [UnpackedFloat.compare, hsigns, Prod.Lex.toLex_lt_toLex, Ordering.then_eq_lt,
      Ordering.then_eq_gt, compare_lt_iff_lt, compare_gt_iff_gt]

theorem float_lt_irrefl (x : Float) : ¬ x < x := by
  intro h
  rw [lt_iff_rank] at h
  obtain ⟨r, hr, r', hr', hlt⟩ := h
  obtain rfl : r = r' := Option.mem_unique hr hr'
  exact lt_irrefl r hlt

theorem float_lt_trans {x y z : Float} (hxy : x < y) (hyz : y < z) : x < z := by
  rw [lt_iff_rank] at hxy hyz ⊢
  obtain ⟨r, hr, s, hs, hrs⟩ := hxy
  obtain ⟨s', hs', t, ht, hst⟩ := hyz
  obtain rfl : s = s' := Option.mem_unique hs hs'
  exact ⟨r, hr, t, ht, hrs.trans hst⟩

/-! ## At most, and the same -/

/-- One float is at most another when comparing what they unpack to says so. -/
theorem le_iff_compare {x y : Float} :
    x ≤ y ↔ (x.toModel.unpack.compare y.toModel.unpack).any (·.isLE) = true := by
  show decide (x.toModel ≤ y.toModel) = true ↔ _
  rw [decide_eq_true_iff]
  rfl

/-- Among negative numbers the greater size is the lower one. -/
theorem isGE_then_compare {e e' : ℤ} {m m' : ℕ} :
    ((compare e e').then (compare m m')).isGE = true ↔ e' < e ∨ e = e' ∧ m' ≤ m := by
  rw [Ordering.isGE_iff_ne_lt, Ordering.then_eq_lt, compare_lt_iff_lt, compare_eq_iff_eq,
    compare_lt_iff_lt]
  omega

/-- One float is at most another exactly when both have a place and the first has not the
    higher one. -/
theorem le_iff_rank {x y : Float} : x ≤ y ↔ ∃ r ∈ rank x, ∃ r' ∈ rank y, r ≤ r' := by
  have hless : compare Sign.negative Sign.positive = .lt := rfl
  have hgreater : compare Sign.positive Sign.negative = .gt := rfl
  have hsame : ∀ s : Sign, (compare s s).isLE = true := by decide
  rw [le_iff_compare, rank, rank]
  generalize x.toModel.unpack = a
  generalize y.toModel.unpack = b
  rcases a with (_ | _) | _ | (_ | _) | ⟨_ | _, m, e, _⟩ <;>
    rcases b with (_ | _) | _ | (_ | _) | ⟨_ | _, m', e', _⟩ <;>
    simp [UnpackedFloat.compare, hless, hgreater, hsame, Prod.Lex.toLex_le_toLex,
      Ordering.isLE_then_iff_or, Std.isLE_compare, compare_lt_iff_lt, isGE_then_compare]

/-- Only the NaN has no place. -/
theorem rank_eq_none {x : Float} : rank x = none ↔ x.isNaN = true := by
  show _ ↔ x.toModel.unpack.isNaN = true
  rw [rank]
  rcases x.toModel.unpack with (_ | _) | _ | (_ | _) | ⟨_ | _, m, e, _⟩ <;>
    simp [UnpackedFloat.isNaN]

/-- Every float has a rank but the NaN. -/
theorem exists_rank_iff {x : Float} : (∃ r, r ∈ rank x) ↔ x.isNaN = false := by
  rw [Bool.eq_false_iff, Ne, ← rank_eq_none]
  exact Option.ne_none_iff_exists'.symm

/-- A float is determined by what it unpacks to: there is one NaN only. -/
theorem unpack_injective {x y : Float} (h : x.toModel.unpack = y.toModel.unpack) : x = y := by
  have hpack : ∀ z : Float,
      UnpackedFloat.pack .binary64 z.toModel.unpack = z.toModel.toBits.toBitVec := by
    intro z
    show UnpackedFloat.pack .binary64 (UnpackedFloat.unpack .binary64 _) = _
    rw [pack_unpack _ (by decide)]
    split
    · rename_i hnan
      obtain ⟨hexponent, hmantissa⟩ := of_decide_eq_true hnan
      exact (z.toModel.valid.eq_packedNaN hexponent hmantissa).symm
    · rfl
  have hbits : x.toModel.toBits = y.toModel.toBits := by
    rw [← UInt64.toBitVec_inj, ← hpack x, ← hpack y, h]
  obtain ⟨⟨b, hb⟩⟩ := x
  obtain ⟨⟨b', hb'⟩⟩ := y
  obtain rfl : b = b' := hbits
  rfl

/-- But for the two zeros, no two floats have the same place. -/
theorem eq_of_rank_eq {x y : Float} (h : rank x = rank y) (hx : (x == 0) = false) : x = y := by
  apply unpack_injective
  change x.toModel.unpack.beq (.zero .positive) = false at hx
  revert h hx
  rw [rank, rank]
  generalize x.toModel.unpack = a
  generalize y.toModel.unpack = b
  rcases a with (_ | _) | _ | (_ | _) | ⟨_ | _, m, e, _⟩ <;>
    rcases b with (_ | _) | _ | (_ | _) | ⟨_ | _, m', e', _⟩ <;>
    simp +contextual [UnpackedFloat.beq, UnpackedFloat.compare]

/-- Floats that are at most each other are equal, but for the sign of a zero. -/
theorem eq_of_le_of_le {x y : Float} (hxy : x ≤ y) (hyx : y ≤ x) (hx : (x == 0) = false) :
    x = y := by
  rw [le_iff_rank] at hxy hyx
  obtain ⟨r, hr, s, hs, hrs⟩ := hxy
  obtain ⟨s', hs', r', hr', hsr⟩ := hyx
  obtain rfl : r = r' := Option.mem_unique hr hr'
  obtain rfl : s = s' := Option.mem_unique hs hs'
  obtain rfl : r = s := le_antisymm hrs hsr
  exact eq_of_rank_eq (hr.trans hs.symm) hx

/-- The order of floats is transitive, as no NaN is in between. -/
theorem float_le_trans {x y z : Float} (hxy : x ≤ y) (hyz : y ≤ z) : x ≤ z := by
  rw [le_iff_rank] at hxy hyz ⊢
  obtain ⟨r, hr, s, hs, hrs⟩ := hxy
  obtain ⟨s', hs', t, ht, hst⟩ := hyz
  obtain rfl : s = s' := Option.mem_unique hs hs'
  exact ⟨r, hr, t, ht, hrs.trans hst⟩

/-- Two floats that are not the NaN compare one way or the other. -/
theorem float_le_total {x y : Float} (hx : x.isNaN = false) (hy : y.isNaN = false) :
    x ≤ y ∨ y ≤ x := by
  obtain ⟨r, hr⟩ := exists_rank_iff.mpr hx
  obtain ⟨s, hs⟩ := exists_rank_iff.mpr hy
  rw [le_iff_rank, le_iff_rank]
  rcases le_total r s with hrs | hsr
  · exact .inl ⟨r, hr, s, hs, hrs⟩
  · exact .inr ⟨s, hs, r, hr, hsr⟩

/-- What compares is not the NaN. -/
theorem isNaN_of_le {x y : Float} (h : x ≤ y) : x.isNaN = false ∧ y.isNaN = false := by
  rw [le_iff_rank] at h
  obtain ⟨r, hr, s, hs, -⟩ := h
  exact ⟨exists_rank_iff.mp ⟨r, hr⟩, exists_rank_iff.mp ⟨s, hs⟩⟩

theorem float_not_lt_of_le {x y : Float} (h : x ≤ y) : ¬ y < x := by
  intro hlt
  rw [le_iff_rank] at h
  rw [lt_iff_rank] at hlt
  obtain ⟨r, hr, s, hs, hrs⟩ := h
  obtain ⟨s', hs', r', hr', hsr⟩ := hlt
  obtain rfl : r = r' := Option.mem_unique hr hr'
  obtain rfl : s = s' := Option.mem_unique hs hs'
  exact hrs.not_gt hsr

theorem float_not_lt_of_isNaN {x y : Float} (h : y.isNaN = true) : ¬ x < y := by
  intro hlt
  rw [lt_iff_rank] at hlt
  obtain ⟨-, -, s, hs, -⟩ := hlt
  rw [exists_rank_iff.mp ⟨s, hs⟩] at h
  cases h

theorem isNaN_of_isFinite {x : Float} (h : x.isFinite = true) : x.isNaN = false := by
  change x.toModel.unpack.isFinite = true at h
  change x.toModel.unpack.isNaN = false
  revert h
  cases x.toModel.unpack <;> simp [UnpackedFloat.isFinite, UnpackedFloat.isNaN]

/-! ## Lengths that count -/

/-- The length is a number, and neither zero nor infinite. -/
structure Counts (length : Float) : Prop where
  nonzero : (length == 0) = false
  bounded : length.isInf = false
  number : length.isNaN = false

/-- A length counts exactly when its size lies between zero and infinity. -/
theorem counts_iff {length : Float} :
    Counts length ↔ 0 < length.abs ∧ length.abs < 1 / 0 := by
  have hfields : Counts length ↔ length.toModel.unpack.beq (.zero .positive) = false
      ∧ length.toModel.unpack.isInf = false ∧ length.toModel.unpack.isNaN = false :=
    ⟨fun h => ⟨h.nonzero, h.bounded, h.number⟩, fun ⟨hzero, hinf, hnan⟩ => ⟨hzero, hinf, hnan⟩⟩
  have hzero : (0 : Float).toModel.unpack = .zero .positive := rfl
  have hinfinity : (1 / 0 : Float).toModel.unpack = .infinity .positive := rfl
  have hsame : compare Sign.positive Sign.positive = .eq := rfl
  rw [hfields, lt_iff_compare, lt_iff_compare, unpack_abs, hzero, hinfinity]
  generalize length.toModel.unpack = a
  rcases a with (_ | _) | _ | (_ | _) | ⟨_ | _, m, e, _⟩ <;>
    simp [UnpackedFloat.compare, UnpackedFloat.beq, UnpackedFloat.abs, UnpackedFloat.isInf,
      UnpackedFloat.isNaN, hsame]

end TurtleGrammar.Scalar
