import TreeNotation.Decimal.Binary

/-!
# Shortest Decimals

The decimal with the fewest digits among those that are nearer to a given binary floating-point
number than to any other; of two with equally few digits the nearer one, and the even one of two
that are equally near.

- `Binary.interval` bounds the decimals that are read as the number;
- `Binary.onGrid?` looks for one among the multiples of a power of ten;
- `Binary.shortest?` goes from coarse to fine powers of ten.
-/

namespace TreeNotation

/-- The number `digits * 10 ^ exponent`. -/
structure Decimal where
  digits : Nat
  exponent : Int
  deriving Repr, DecidableEq

namespace Decimal.Binary

/-- The ends of the interval of what is rounded to `x`, in quarters of its last place. Below a power
of two the numbers lie twice as close. -/
def interval (x : Binary) : Nat × Nat :=
  let below := if x.mantissa = twoTo 52 ∧ minExponent < x.exponent then 1 else 2
  (4 * x.mantissa - below, 4 * x.mantissa + 2)

/-- Factors that bring `10 ^ k` and a quarter of the last place of `x` to a common unit. -/
def scales (x : Binary) (k : Int) : Nat × Nat :=
  (tenTo k.toNat * twoTo (2 - x.exponent).toNat, twoTo (x.exponent - 2).toNat * tenTo (-k).toNat)

/-- Whether `c * 10 ^ k` is rounded to `x`. The ends of the interval are if the mantissa is even. -/
def admits (x : Binary) (k : Int) (c : Nat) : Bool :=
  let (step, quarter) := x.scales k
  let low := x.interval.1 * quarter
  let high := x.interval.2 * quarter
  if x.mantissa % 2 = 0 then decide (low ≤ c * step) && decide (c * step ≤ high)
  else decide (low < c * step) && decide (c * step < high)

/-- The multiple of `10 ^ k` that is rounded to `x` and nearest to it. -/
def onGrid? (x : Binary) (k : Int) : Option Nat :=
  let (step, quarter) := x.scales k
  -- If any multiple is admitted, one of the two around the number is.
  let value := 4 * x.mantissa * quarter
  let below := value / step
  let nearest := roundEven value step
  let other := if nearest = below then below + 1 else below
  [nearest, other].find? (x.admits k)

/-- The first decimal found on the grids of `10 ^ k`, `10 ^ (k - 1)`, …, of which there are
`grids`. -/
def search? (x : Binary) : Nat → Int → Option Decimal
  | 0, _ => none
  | grids + 1, k =>
    match x.onGrid? k with
    | some digits => some ⟨digits, k⟩
    | none => x.search? grids (k - 1)

/-- The decimal with the fewest digits that is read as a positive number of the format. The coarsest
grid is beyond the number; a grid 17 places below its first digit has a point that is. -/
def shortest? (x : Binary) : Option Decimal :=
  -- The logarithm of two to base ten is about 0.30103.
  let magnitude : Int := ((x.mantissa.log2 : Int) + x.exponent) * 30103 / 100000
  x.search? 21 (magnitude + 2)

end Decimal.Binary

end TreeNotation
