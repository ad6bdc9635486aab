/-!
# Binary Floating-Point Numbers

The numbers that fit into a 64-bit floating-point format, without their sign: a mantissa of at
most 53 bits times a power of two. Ratios are rounded to the nearest number of the format, and to
the even mantissa if two are equally near.

- `roundEven` rounds a quotient;
- `Binary` are the numbers of the format.
-/

namespace TreeNotation.Decimal

/-! ## Powers -/

/-- The power `2 ^ n`. -/
def twoTo (n : Nat) : Nat := Nat.pow 2 n

/-- The power `10 ^ n`. -/
def tenTo (n : Nat) : Nat := Nat.pow 10 n

/-! ## Rounding a quotient -/

/-- The whole number nearest to `num / den`, the even one of two that are equally near. -/
def roundEven (num den : Nat) : Nat :=
  let quotient := num / den
  let twice := 2 * (num % den)
  if twice < den then quotient
  else if den < twice then quotient + 1
  else quotient + quotient % 2

/-! ## Numbers of the format -/

/-- The number `mantissa * 2 ^ exponent`. -/
structure Binary where
  mantissa : Nat
  exponent : Int
  deriving Repr, DecidableEq

namespace Binary

/-- The least exponent of the format. -/
def minExponent : Int := -1074

/-- The greatest exponent of the format. -/
def maxExponent : Int := 971

/-- Zero. -/
def zero : Binary := ⟨0, minExponent⟩

/-- The number as a fraction. -/
def fraction (x : Binary) : Nat × Nat :=
  (x.mantissa * twoTo x.exponent.toNat, twoTo (-x.exponent).toNat)

/-- `num / den` in units of `2 ^ exponent`, as a fraction. -/
def inUnits (num den : Nat) (exponent : Int) : Nat × Nat :=
  (num * twoTo (-exponent).toNat, den * twoTo exponent.toNat)

/-- The exponent at which a positive `num / den` has a mantissa of 53 bits, or the least one. -/
def exponentOf (num den : Nat) : Int :=
  -- In units of `2 ^ guess` the ratio lies between `2 ^ 51` and `2 ^ 53`.
  let guess : Int := (num.log2 : Int) - den.log2 - 52
  let (n, d) := inUnits num den guess
  max minExponent (if d * twoTo 52 ≤ n then guess else guess - 1)

/-- The number of the format nearest to `num / den`, nothing if that is too great. -/
def ofRatio? (num den : Nat) : Option Binary :=
  if num = 0 then some zero
  else
    let exponent := exponentOf num den
    let (n, d) := inUnits num den exponent
    let mantissa := roundEven n d
    -- Rounding up may carry into a 54th bit.
    let rounded : Binary :=
      if mantissa = twoTo 53 then ⟨twoTo 52, exponent + 1⟩ else ⟨mantissa, exponent⟩
    if rounded.exponent ≤ maxExponent then some rounded else none

/-- The product of two numbers, rounded. -/
def mul? (x y : Binary) : Option Binary :=
  ofRatio? (x.fraction.1 * y.fraction.1) (x.fraction.2 * y.fraction.2)

/-- The quotient of two numbers, rounded. -/
def div? (x y : Binary) : Option Binary :=
  ofRatio? (x.fraction.1 * y.fraction.2) (x.fraction.2 * y.fraction.1)

end Binary

end TreeNotation.Decimal
