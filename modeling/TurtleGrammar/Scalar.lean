/-! # Scalars — the numbers that coordinates are made of

    The geometry of the library is written over any type of numbers with the
    four operations, an order and the few extra facts of `Scalar`.  It runs
    over `Float`; over `Rat` the same definitions have no rounding, which is
    where their geometric meaning can be stated exactly.

    Every definition over scalars fixes the order of its operations, because
    over `Float` another order is another result.  A comparison with a NaN is
    false, and every test below is written with that in mind. -/

namespace TurtleGrammar

/-- What the geometry asks of a number beyond arithmetic and order. -/
class Scalar (α : Type) where
  /-- The largest finite number of the 64-bit format, used where a running minimum
      starts. -/
  greatest : α
  /-- `2^53`: from there on neighbouring 64-bit numbers are at least `1` apart. -/
  gridLimit : α
  /-- Neither infinite nor a NaN. -/
  isFinite : α → Bool
  /-- The nearest integer, a half going away from zero.  Only asked of finite
      numbers. -/
  nearest : α → Int

namespace Scalar

/-- `n / 2^k` rounded to the nearest natural number, a half going up. -/
def roundShifted (n k : Nat) : Nat := (2 * n + 1 <<< k) >>> (k + 1)

/-- The nearest integer to a float, read off its sign, mantissa and exponent, and so
    without rounding on the way. -/
def nearestToFloat (x : Float) : Int :=
  match x.toModel.unpack with
  | .finite sign mantissa exponent _ =>
      let size : Int := match exponent with
        | .ofNat e => (mantissa <<< e : Nat)
        | .negSucc e => roundShifted mantissa (e + 1)
      match sign with
      | .positive => size
      | .negative => -size
  | .zero _ | .infinity _ | .notANumber => 0

/-- The nearest integer to a rational number. -/
def nearestToRat (q : Rat) : Int :=
  if q < 0 then -(-q + 1 / 2).floor else (q + 1 / 2).floor

instance : Scalar Float where
  greatest := Float.ofBits 0x7fefffffffffffff
  gridLimit := 9007199254740992
  isFinite := Float.isFinite
  nearest := nearestToFloat

instance : Scalar Rat where
  greatest := mkRat ((1 <<< 53 - 1) <<< 971 : Nat) 1
  gridLimit := 9007199254740992
  isFinite _ := true
  nearest := nearestToRat

end Scalar

/-- Equal bits hash alike. -/
instance instHashableFloat : Hashable Float := ⟨fun x => hash x.toBits⟩

end TurtleGrammar
