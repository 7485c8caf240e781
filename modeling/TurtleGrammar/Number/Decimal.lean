/-! # Decimals — reading numbers, and whole numbers apart from them

    A number is written as an optional sign followed by digits, a decimal point
    anywhere among them and an optional power of ten; at least one digit is
    required, on either side of the point.  The words `inf`, `infinity` and
    `nan` are numbers too, in capital or small letters.

    Reading splits in two: the text gives an exact decimal, and the decimal is
    rounded once, to the nearest number of the 64-bit format.

    A count is one or more decimal digits, with a plus sign allowed before them
    and a minus sign not even before a zero.  Counts have to fit 64 bits. -/

namespace TurtleGrammar

/-- The value of a decimal digit. -/
def digitValue (d : Char) : Nat := d.toNat - '0'.toNat

/-- Digits as a natural number, most significant first. -/
def digitsValue (digits : List Char) : Nat :=
  digits.foldl (fun value d => 10 * value + digitValue d) 0

/-- What a digit with `n` digits after it is multiplied by. -/
def placeValue (n : Nat) : Nat := Nat.pow 10 n

/-- The value of digits, from the values of their two halves down to the given depth.
    For long numbers halving saves most of the work. -/
def halvesValue : Nat → List Char → Nat
  | 0, digits => digitsValue digits
  | depth + 1, digits =>
      let low := digits.length / 2
      let high := digits.length - low
      halvesValue depth (digits.take high) * placeValue low + halvesValue depth (digits.drop high)

/-- The value of digits, cut into pieces of a few dozen digits before they are added
    up. -/
def wholeValue (digits : List Char) : Nat :=
  halvesValue (digits.length / 32).log2 digits

/-- Whether a text is one or more decimal digits. -/
def isDigits (cs : List Char) : Bool := !cs.isEmpty && cs.all Char.isDigit

/-- Splits off a sign; `true` stands for minus.  Without a sign nothing is split
    off. -/
def splitSign : List Char → Bool × List Char
  | '+' :: cs => (false, cs)
  | '-' :: cs => (true, cs)
  | cs => (false, cs)

/-- A number without its sign. -/
inductive Magnitude where
  /-- `digits · 10^exponent`. -/
  | decimal (digits : Nat) (exponent : Int)
  /-- Greater than every number. -/
  | infinity
  /-- No number at all. -/
  | notANumber
deriving DecidableEq

namespace Magnitude

/-- Where powers of ten stop counting. -/
def exponentCap : Nat := 65536

/-- The size of a power of ten.  A size that has reached the cap is final: the digits
    after it have to be digits, but they carry no weight. -/
def exponentValue (digits : List Char) : Nat :=
  digits.foldl (fun value d => if value < exponentCap then 10 * value + digitValue d else value) 0

/-- The power of ten that ends a number: nothing, or an `e` with a signed whole
    number. -/
def exponent? : List Char → Option Int
  | [] => some 0
  | e :: cs =>
      let (minus, digits) := splitSign cs
      if (e == 'e' || e == 'E') && isDigits digits then
        let value : Int := exponentValue digits
        some (if minus then -value else value)
      else none

/-- Reads digits with an optional point and power of ten. -/
def decimal? (cs : List Char) : Option Magnitude :=
  let whole := cs.takeWhile Char.isDigit
  let rest := cs.dropWhile Char.isDigit
  let (fraction, rest) := match rest with
    | '.' :: rest => (rest.takeWhile Char.isDigit, rest.dropWhile Char.isDigit)
    | rest => ([], rest)
  let digits := whole ++ fraction
  if digits.isEmpty then none
  else (exponent? rest).map fun e => decimal (wholeValue digits) (e - fraction.length)

/-- Reads a number without a sign. -/
def ofChars? (cs : List Char) : Option Magnitude :=
  let small := cs.map Char.toLower
  if small = "inf".toList || small = "infinity".toList then some infinity
  else if small = "nan".toList then some notANumber
  else decimal? cs

/-- The nearest 64-bit number.  Every ten bits of a number are worth more than three
    digits, which is enough to recognise most numbers beyond `10^400`, and so beyond the
    format, before they are computed. -/
def toFloat : Magnitude → Float
  | infinity => 1 / 0
  | notANumber => 0 / 0
  | decimal digits exponent =>
      if digits = 0 then 0
      else if 400 < exponent + 3 * (digits.log2 / 10) then 1 / 0
      else match exponent with
        | .ofNat e => Float.ofScientific digits false e
        | .negSucc e => Float.ofScientific digits true (e + 1)

end Magnitude

/-! ## Halving does not change the value of digits -/

@[simp] theorem placeValue_zero : placeValue 0 = 1 := rfl

theorem placeValue_succ (n : Nat) : placeValue (n + 1) = placeValue n * 10 := rfl

/-- Reading digits on from a value moves the value up by their places. -/
theorem foldl_digits (value : Nat) (digits : List Char) :
    digits.foldl (fun value d => 10 * value + digitValue d) value =
      value * placeValue digits.length + digitsValue digits := by
  induction digits generalizing value with
  | nil => simp [digitsValue]
  | cons d digits ih =>
      simp only [digitsValue, List.foldl_cons, List.length_cons]
      rw [ih, ih (10 * 0 + digitValue d), placeValue_succ]
      grind

/-- The value of digits is made of the values of any two parts of them. -/
theorem digitsValue_append (high low : List Char) :
    digitsValue (high ++ low) = digitsValue high * placeValue low.length + digitsValue low := by
  rw [digitsValue, List.foldl_append, foldl_digits]; rfl

/-- However deep the digits are halved, their value is the same. -/
theorem halvesValue_eq (depth : Nat) (digits : List Char) :
    halvesValue depth digits = digitsValue digits := by
  induction depth generalizing digits with
  | zero => rfl
  | succ depth ih =>
      -- the lower half has exactly the length that its weight is computed from
      have hlow : (digits.drop (digits.length - digits.length / 2)).length =
          digits.length / 2 := by
        rw [List.length_drop]; omega
      conv => rhs; rw [← List.take_append_drop (digits.length - digits.length / 2) digits]
      rw [digitsValue_append, hlow]
      simp only [halvesValue, ih]

/-- The pieces in which long numbers are read make no difference to their value. -/
theorem wholeValue_eq (digits : List Char) : wholeValue digits = digitsValue digits :=
  halvesValue_eq _ digits

/-- Reads a number with an optional sign. -/
def readFloat? (cs : List Char) : Option Float :=
  let (minus, rest) := splitSign cs
  (Magnitude.ofChars? rest).map fun m => if minus then -m.toFloat else m.toFloat

/-! ## Counts -/

/-- The number of counts that 64 bits can hold. -/
def countBound : Nat := UInt64.size

/-- Reads a count. -/
def readCount? (cs : List Char) : Option Nat :=
  let digits := match cs with
    | '+' :: rest => rest
    | cs => cs
  let value := wholeValue digits
  if isDigits digits && value < countBound then some value else none

end TurtleGrammar
