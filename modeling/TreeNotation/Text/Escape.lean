import TreeNotation.Text.Blank

/-!
# Escaping of Payloads

Two ways to write a text inside the braces of the notation. Running text puts a backslash in
front of the characters that mean something to a reader of the notation and keeps only one space
of each blank run. A string keeps its layout: quotes, backslashes and line breaks are escaped and
everything else stands for itself.

Main statements:
- `escapeMarks_of_forall`: a text without marks is its own escaped form;
- `hasMarkByte_eq`: marks can be looked for among the bytes of a text;
- `toList_escapeText`: a text without a mark among its bytes is written as any other.
-/

namespace TreeNotation.Text

/-! ## Running text -/

/-- The characters of running text that take a backslash. -/
def isMark (c : Char) : Bool := c == '\\' || c == '*' || c == '$'

/-- One character of running text with the backslash it takes. -/
def escapeMark (c : Char) : List Char := if isMark c then ['\\', c] else [c]

/-- Running text with a backslash before each mark. -/
def escapeMarks (cs : List Char) : List Char := cs.flatMap escapeMark

/-- Running text as written in the notation: marks escaped, then blank runs collapsed. -/
def escapeTextChars (cs : List Char) : List Char := collapse (escapeMarks cs)

/-- Whether a byte is that of a mark. -/
def isMarkByte (b : UInt8) : Bool := b == 0x5C || b == 0x2A || b == 0x24

/-- Whether a mark is among the bytes of a text. -/
def hasMarkByte (s : String) : Bool := s.toUTF8.data.toList.any isMarkByte

/-- Running text as written in the notation: marks escaped, if there are any, then blank runs
collapsed. -/
def escapeText (s : String) : String :=
  let escaped := if hasMarkByte s then escapeMarks s.toList else s.toList
  String.ofList (collapse escaped)

theorem escapeMarks_of_forall {cs : List Char} (h : ∀ c ∈ cs, isMark c = false) :
    escapeMarks cs = cs := by
  induction cs with
  | nil => rfl
  | cons c cs ih =>
    rw [escapeMarks, List.flatMap_cons, escapeMark, h c (by simp)]
    simpa [escapeMarks] using ih fun d hd => h d (by simp [hd])

/-! ## Bytes of running text -/

theorem isMark_eq (c : Char) :
    isMark c = (c.toNat == 0x5C || c.toNat == 0x2A || c.toNat == 0x24) := by
  have hval : ∀ d : Char, (c == d) = (c.toNat == d.toNat) := by
    intro d
    rw [Bool.eq_iff_iff, beq_iff_eq, beq_iff_eq, Char.toNat_inj]
  rw [isMark, hval, hval, hval]
  rfl

theorem isMarkByte_ofNat {n : Nat} (h : n < 256) :
    isMarkByte (UInt8.ofNat n) = (n == 0x5C || n == 0x2A || n == 0x24) := by
  have hval : ∀ m, m < 256 → (UInt8.ofNat n == UInt8.ofNat m) = (n == m) := by
    intro m hm
    rw [Bool.eq_iff_iff, beq_iff_eq, beq_iff_eq, ← UInt8.toNat_inj, UInt8.toNat_ofNat_of_lt' h,
      UInt8.toNat_ofNat_of_lt' hm]
  have hslash := hval 0x5C (by decide)
  have hstar := hval 0x2A (by decide)
  have hdollar := hval 0x24 (by decide)
  rw [isMarkByte, ← hslash, ← hstar, ← hdollar]
  rfl

theorem isMarkByte_ofNat_of_le {n : Nat} (hle : 0x80 ≤ n) (hlt : n < 256) :
    isMarkByte (UInt8.ofNat n) = false := by
  rw [isMarkByte_ofNat hlt]
  grind

/-- No other character has a byte of a mark. -/
theorem any_utf8EncodeChar (c : Char) : (String.utf8EncodeChar c).any isMarkByte = isMark c := by
  have hval : c.val.toNat = c.toNat := rfl
  simp only [String.utf8EncodeChar, hval]
  by_cases hone : c.toNat ≤ 0x7F
  · rw [if_pos hone, List.any_cons, List.any_nil, Bool.or_false, isMarkByte_ofNat (by omega),
      isMark_eq]
  · -- All bytes of a longer encoding are above those of the marks, as the character itself is.
    have hmark : isMark c = false := by
      rw [isMark_eq]
      grind
    rw [if_neg hone, hmark]
    split
    · simp (disch := omega) only [List.any_cons, List.any_nil, isMarkByte_ofNat_of_le,
        Bool.or_false]
    · split
      · simp (disch := omega) only [List.any_cons, List.any_nil, isMarkByte_ofNat_of_le,
          Bool.or_false]
      · simp (disch := omega) only [List.any_cons, List.any_nil, isMarkByte_ofNat_of_le,
          Bool.or_false]

theorem hasMarkByte_eq (s : String) : hasMarkByte s = s.toList.any isMark := by
  rw [hasMarkByte, String.toUTF8_eq_toByteArray, ← String.utf8Encode_toList, List.utf8Encode,
    List.data_toByteArray, List.any_flatMap]
  simp only [any_utf8EncodeChar]

/-- Whether there are marks does not matter for the way in which a text is written. -/
theorem toList_escapeText (s : String) : (escapeText s).toList = escapeTextChars s.toList := by
  rw [escapeText, String.toList_ofList, escapeTextChars]
  cases h : hasMarkByte s with
  | true => rfl
  | false =>
    rw [hasMarkByte_eq, List.any_eq_false] at h
    rw [escapeMarks_of_forall fun c hc => Bool.eq_false_iff.mpr (h c hc)]
    rfl

/-! ## Strings -/

/-- One character of a string as written in the notation. -/
def escapeStringChar (c : Char) : List Char :=
  if c = '\\' then ['\\', '\\']
  else if c = '"' then ['\\', '"']
  else if c = '\n' then ['\\', 'n']
  else if c = '\r' then ['\\', 'r']
  else if c = '\t' then ['\\', 't']
  else [c]

/-- A string with backslashes, quotes, line feeds, carriage returns and tabs escaped. -/
def escapeStringChars (cs : List Char) : List Char := cs.flatMap escapeStringChar

/-- A string with backslashes, quotes, line feeds, carriage returns and tabs escaped. -/
def escapeString (s : String) : String := String.ofList (escapeStringChars s.toList)

end TreeNotation.Text
