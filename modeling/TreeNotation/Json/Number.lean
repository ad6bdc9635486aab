import TreeNotation.Decimal.Shortest
import TreeNotation.Json.Raw

/-!
# JSON Numbers

The canonical text of a number. A whole number that fits into 64 bits is written with all its
digits. Any other number is brought into the 64-bit floating-point format and written with the
fewest digits that are read back as the same number.

- `Number` is a number in its canonical text, and `Numeral.number?` the number of a numeral;
- `Numeral.wholeText?` is the text of a whole number;
- `Numeral.binary?` is the floating-point number of a numeral;
- `decimalText` lays out the digits of a floating-point number.

Main statement: `Numeral.isPlain_of_text?`, a canonical text has nothing in it but digits, signs, a
point and the letter of an exponent.

The floating-point number is not always the nearest one. As many digits as fit into 64 bits are
taken for a whole number, and that is rounded before it is multiplied with or divided by a power
of ten, itself a rounded number, which rounds the result again.
-/

namespace TreeNotation.Json

open Decimal

/-! ## Digits -/

/-- The number that a list of decimal digits stands for. -/
def ofDigits (digits : List Nat) : Nat := digits.foldl (fun n digit => n * 10 + digit) 0

/-- Appends decimal digits to a number as long as the result is less than `bound`. Gives the number
and how many digits have been left over. -/
def appendWhile (bound : Nat) : Nat → List Nat → Nat × Nat
  | n, [] => (n, 0)
  | n, digit :: digits =>
    if n * 10 + digit < bound then appendWhile bound (n * 10 + digit) digits
    else (n, digits.length + 1)

/-! ## Floating-point numbers -/

/-- The floating-point number nearest to a power of ten. -/
def powerOfTen? (n : Nat) : Option Binary := Binary.ofRatio? (tenTo n) 1

/-- The greatest power of ten that the format has. -/
def greatestPower : Nat := 308

/-- A floating-point number divided by `10 ^ n`, in steps that the format has powers of ten for. -/
def divideByPower? (x : Binary) (n : Nat) : Option Binary :=
  if n ≤ greatestPower then do x.div? (← powerOfTen? n)
  -- Without this a huge exponent would take as many steps as it is great.
  else if x.mantissa = 0 then some x
  else do divideByPower? (← x.div? (← powerOfTen? greatestPower)) (n - greatestPower)
termination_by n
decreasing_by simp only [greatestPower] at *; omega

/-- A floating-point number times `10 ^ exponent`, nothing if that is too great. -/
def scale? (x : Binary) (exponent : Int) : Option Binary :=
  if 0 ≤ exponent then
    if exponent.toNat ≤ greatestPower then do x.mul? (← powerOfTen? exponent.toNat)
    else if x.mantissa = 0 then some x
    else none
  else divideByPower? x (-exponent).toNat

namespace Numeral

/-- The digits of a numeral as a whole number of less than 64 bits, as far as they fit, and the
power of ten that it counts. Digits before the point that do not fit count for powers of ten; those
after the point are appended as if there were none of these. -/
def significand (numeral : Numeral) : Nat × Int :=
  let (whole, extra) := appendWhile (twoTo 64) 0 numeral.whole
  let digits := numeral.fraction.getD []
  let (all, left) := appendWhile (twoTo 64) whole digits
  (all, (extra : Int) - (digits.length - left : Nat))

/-- The exponent of a numeral. -/
def power (numeral : Numeral) : Int :=
  match numeral.exponent with
  | some (true, digits) => -(ofDigits digits : Int)
  | some (false, digits) => ofDigits digits
  | none => 0

/-- The floating-point number of a numeral without its sign, nothing if that is too great. -/
def binary? (numeral : Numeral) : Option Binary := do
  let (significand, exponent) := numeral.significand
  scale? (← Binary.ofRatio? significand 1) (exponent + numeral.power)

/-- Whether a numeral has neither point nor exponent. -/
def isWhole (numeral : Numeral) : Bool :=
  numeral.fraction.isNone && numeral.exponent.isNone

/-- The whole number of a numeral, if that is less than 64 bits long and not negative. -/
def natural? (numeral : Numeral) : Option Nat :=
  let n := ofDigits numeral.whole
  if numeral.isWhole && !numeral.negative && decide (n < twoTo 64) then some n else none

/-- The text of a whole number from `-2 ^ 63` up to `2 ^ 64 - 1`, negative zero apart. -/
def wholeText? (numeral : Numeral) : Option String :=
  let n := ofDigits numeral.whole
  if !numeral.isWhole then none
  else if numeral.negative then
    if 0 < n ∧ n ≤ twoTo 63 then some ("-" ++ n.repr) else none
  else if n < twoTo 64 then some n.repr else none

end Numeral

/-! ## Layout -/

/-- From which place of the first digit on, and up to which one, a number is written with all its
places; other numbers are written with an exponent. -/
structure Positional where
  first : Int
  last : Int

/-- Numbers from `0.00001` up to, but not including, `10 ^ 16` are written with all their places. -/
def positional : Positional := ⟨-5, 15⟩

/-- Some zeros. -/
def zeros (n : Nat) : List Char := List.replicate n '0'

/-- The digits of a number with all their places; there is always a digit before and one after the
point. -/
def placesText (digits : List Char) (exponent : Int) : List Char :=
  if 0 ≤ exponent then digits ++ zeros exponent.toNat ++ ['.', '0']
  else
    let after := (-exponent).toNat
    if after < digits.length then
      digits.take (digits.length - after) ++ '.' :: digits.drop (digits.length - after)
    else '0' :: '.' :: zeros (after - digits.length) ++ digits

/-- The digits of a number with a point after the first and an exponent with its sign. -/
def exponentText (digits : List Char) (place : Int) : List Char :=
  let mantissa := match digits with
    | first :: second :: rest => first :: '.' :: second :: rest
    | digits => digits
  mantissa ++ 'e' :: (if 0 ≤ place then '+' else '-') :: (Nat.repr place.natAbs).toList

/-- The text of a positive decimal. -/
def decimalText (x : Decimal) : List Char :=
  let digits := x.digits.repr.toList
  let place : Int := x.exponent + digits.length - 1
  if positional.first ≤ place ∧ place ≤ positional.last then placesText digits x.exponent
  else exponentText digits place

/-- The text of a floating-point number without its sign. -/
def binaryText? (x : Binary) : Option (List Char) :=
  if x.mantissa = 0 then some ['0', '.', '0'] else x.shortest?.map decimalText

/-- The canonical text of a number, nothing if it is too great for the format. -/
def Numeral.text? (numeral : Numeral) : Option String :=
  match numeral.wholeText? with
  | some text => some text
  | none => do
    let text ← binaryText? (← numeral.binary?)
    return String.ofList (if numeral.negative then '-' :: text else text)

/-! ## Plain texts -/

/-- Whether a character may stand in a number. -/
def isPlain (c : Char) : Bool := c.isDigit || c == '-' || c == '+' || c == '.' || c == 'e'

/-- A number by its canonical text. -/
structure Number where
  text : String
  /-- The text has no character in it that would have to be escaped or quoted. -/
  plain : ∀ c ∈ text.toList, isPlain c = true
  deriving Repr, DecidableEq

theorem isPlain_of_mem_repr {n : Nat} : ∀ c ∈ n.repr.toList, isPlain c = true := by
  intro c hc
  rw [Nat.toList_repr] at hc
  simp [isPlain, Nat.isDigit_of_mem_toDigits (by decide) (by decide) hc]

theorem isPlain_of_mem_zeros {n : Nat} : ∀ c ∈ zeros n, isPlain c = true := by
  intro c hc
  rw [List.eq_of_mem_replicate hc]
  rfl

theorem isPlain_of_mem_placesText {digits : List Char} (h : ∀ c ∈ digits, isPlain c = true)
    (exponent : Int) : ∀ c ∈ placesText digits exponent, isPlain c = true := by
  intro c hc
  unfold placesText at hc
  split at hc
  · simp only [List.mem_append, List.mem_cons, List.not_mem_nil, or_false] at hc
    rcases hc with (hc | hc) | rfl | rfl
    · exact h c hc
    · exact isPlain_of_mem_zeros c hc
    · rfl
    · rfl
  · simp only at hc
    split at hc
    · simp only [List.mem_append, List.mem_cons] at hc
      rcases hc with hc | rfl | hc
      · exact h c (List.mem_of_mem_take hc)
      · rfl
      · exact h c (List.mem_of_mem_drop hc)
    · simp only [List.mem_append, List.mem_cons] at hc
      rcases hc with (rfl | rfl | hc) | hc
      · rfl
      · rfl
      · exact isPlain_of_mem_zeros c hc
      · exact h c hc

theorem isPlain_of_mem_exponentText {digits : List Char} (h : ∀ c ∈ digits, isPlain c = true)
    (place : Int) : ∀ c ∈ exponentText digits place, isPlain c = true := by
  intro c hc
  simp only [exponentText, List.mem_append, List.mem_cons] at hc
  rcases hc with hc | rfl | rfl | hc
  · split at hc
    · next first second rest =>
      rcases List.mem_cons.1 hc with rfl | hc
      · exact h c (by simp)
      · rcases List.mem_cons.1 hc with rfl | hc
        · rfl
        · exact h c (List.mem_cons_of_mem first hc)
    · exact h c hc
  · rfl
  · split <;> rfl
  · exact isPlain_of_mem_repr c hc

theorem isPlain_of_mem_decimalText (x : Decimal) : ∀ c ∈ decimalText x, isPlain c = true := by
  unfold decimalText
  simp only
  split
  · exact isPlain_of_mem_placesText isPlain_of_mem_repr _
  · exact isPlain_of_mem_exponentText isPlain_of_mem_repr _

theorem isPlain_of_binaryText? {x : Binary} {text : List Char} (h : binaryText? x = some text) :
    ∀ c ∈ text, isPlain c = true := by
  unfold binaryText? at h
  split at h
  · cases h
    intro c hc
    simp only [List.mem_cons, List.not_mem_nil, or_false] at hc
    rcases hc with rfl | rfl | rfl <;> rfl
  · obtain ⟨decimal, _, rfl⟩ := Option.map_eq_some_iff.1 h
    exact isPlain_of_mem_decimalText decimal

namespace Numeral

theorem isPlain_of_wholeText? {numeral : Numeral} {text : String}
    (h : numeral.wholeText? = some text) : ∀ c ∈ text.toList, isPlain c = true := by
  unfold wholeText? at h
  simp only at h
  split at h
  · cases h
  · split at h
    · split at h
      · cases h
        intro c hc
        rw [String.toList_append, List.mem_append] at hc
        rcases hc with hc | hc
        · cases List.mem_singleton.1 hc
          rfl
        · exact isPlain_of_mem_repr c hc
      · cases h
    · split at h
      · cases h
        exact isPlain_of_mem_repr
      · cases h

theorem isPlain_of_text? {numeral : Numeral} {text : String} (h : numeral.text? = some text) :
    ∀ c ∈ text.toList, isPlain c = true := by
  unfold text? at h
  split at h
  · next whole hwhole =>
    cases h
    exact isPlain_of_wholeText? hwhole
  · simp only [Option.bind_eq_bind, Option.bind_eq_some_iff, Option.pure_def,
      Option.some.injEq] at h
    obtain ⟨x, _, digits, hdigits, rfl⟩ := h
    intro c hc
    rw [String.toList_ofList] at hc
    split at hc
    · rcases List.mem_cons.1 hc with rfl | hc
      · rfl
      · exact isPlain_of_binaryText? hdigits c hc
    · exact isPlain_of_binaryText? hdigits c hc

/-- The number that a numeral stands for, nothing if it is too great for the format. -/
def number? (numeral : Numeral) : Option Number :=
  match h : numeral.text? with
  | some text => some ⟨text, isPlain_of_text? h⟩
  | none => none

end Numeral

end TreeNotation.Json
