/-!
# White Space

The characters with the Unicode property `White_Space`, and the ways a text is taken apart at
them: trimming its ends, splitting it into words, and collapsing each run to one space.

Main statement:
- `collapse_forall_eq_space`: the only blank left after collapsing is the space.
-/

namespace TreeNotation.Text

/-! ## The property -/

/-- First and last code points of the runs of characters with the property `White_Space`. -/
def blankRanges : List (Nat × Nat) :=
  [(0x9, 0xD), (0x20, 0x20), (0x85, 0x85), (0xA0, 0xA0), (0x1680, 0x1680), (0x2000, 0x200A),
    (0x2028, 0x2029), (0x202F, 0x202F), (0x205F, 0x205F), (0x3000, 0x3000)]

/-- Whether the code point `n` lies in one of the runs. -/
def inRanges (ranges : List (Nat × Nat)) (n : Nat) : Bool :=
  ranges.any fun r => decide (r.1 ≤ n) && decide (n ≤ r.2)

/-- Whether a character has the property `White_Space`. -/
def isBlank (c : Char) : Bool := inRanges blankRanges c.toNat

/-! ## Trimming -/

/-- The text without the blanks at its start. -/
def trimStart (cs : List Char) : List Char := cs.dropWhile isBlank

/-- The text without the blanks at its end. -/
def trimEnd (cs : List Char) : List Char := (trimStart cs.reverse).reverse

/-- The text without the blanks at its two ends. -/
def trimChars (cs : List Char) : List Char := trimEnd (trimStart cs)

/-- The text without the blanks at its two ends. -/
def trim (s : String) : String := String.ofList (trimChars s.toList)

/-! ## Words -/

/-- The stretches between the characters that satisfy `p`; two neighbours enclose an empty one. -/
def fields (p : Char → Bool) : List Char → List (List Char)
  | [] => [[]]
  | c :: cs =>
    if p c then [] :: fields p cs
    else match fields p cs with
      | [] => [[c]]
      | field :: rest => (c :: field) :: rest

/-- The longest stretches without a blank, in order. -/
def wordsChars (cs : List Char) : List (List Char) :=
  (fields isBlank cs).filter fun word => !word.isEmpty

/-- The longest stretches without a blank, in order. -/
def words (s : String) : List String := (wordsChars s.toList).map String.ofList

/-! ## Collapsing -/

/-- Writes each run of blanks as one space; `inRun` says that the run has been written. -/
def collapseFrom : Bool → List Char → List Char
  | _, [] => []
  | inRun, c :: cs =>
    if isBlank c then
      if inRun then collapseFrom true cs else ' ' :: collapseFrom true cs
    else c :: collapseFrom false cs

/-- The text with each run of blanks written as one space. -/
def collapse (cs : List Char) : List Char := collapseFrom false cs

theorem collapseFrom_forall_eq_space (inRun : Bool) (cs : List Char) :
    ∀ c ∈ collapseFrom inRun cs, isBlank c = true → c = ' ' := by
  induction cs generalizing inRun with
  | nil => simp [collapseFrom]
  | cons c cs ih =>
    unfold collapseFrom
    by_cases h : isBlank c = true
    · cases inRun
      · simpa [h] using ih true
      · simpa [h] using ih true
    · simp only [h, if_false, List.mem_cons, forall_eq_or_imp, false_implies, true_and,
        Bool.false_eq_true]
      exact ih false

theorem collapse_forall_eq_space (cs : List Char) :
    ∀ c ∈ collapse cs, isBlank c = true → c = ' ' :=
  collapseFrom_forall_eq_space false cs

end TreeNotation.Text
