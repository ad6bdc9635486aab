import TreeNotation.Text.Blank
import TreeNotation.Text.CaseFold

/-!
# Folding and ASCII

What simple case folding can do to marks, blanks and other ASCII characters. Letters beyond ASCII
may fold to ASCII letters, but never to a mark, and no blank folds at all.

- `eq_of_sameFold`: a mark agrees with itself only;
- `isBlank_fold`: folding neither makes a blank nor removes one.
-/

namespace TreeNotation.Text

/-! ## Section 1: ASCII -/

theorem toNat_toLower (c : Char) :
    c.toLower.toNat = if 0x41 ≤ c.toNat ∧ c.toNat ≤ 0x5A then c.toNat + 32 else c.toNat := by
  unfold Char.toLower
  have hupper : (c.val ≥ 'A'.val ∧ c.val ≤ 'Z'.val) ↔ 0x41 ≤ c.toNat ∧ c.toNat ≤ 0x5A := Iff.rfl
  split
  case isTrue h =>
    have h' := hupper.mp h
    rw [if_pos h']
    show (c.val + 32).toNat = c.val.toNat + 32
    have hlt : c.val.toNat ≤ 0x5A := h'.2
    rw [UInt32.toNat_add]
    show (c.val.toNat + 32) % 4294967296 = c.val.toNat + 32
    omega
  case isFalse h => rw [if_neg fun h' => h (hupper.mpr h')]

theorem toNat_fold_of_lt {c : Char} (h : c.toNat < 0x80) :
    (fold c).toNat = if 0x41 ≤ c.toNat ∧ c.toNat ≤ 0x5A then c.toNat + 32 else c.toNat := by
  rw [← toNat_toLower, fold, if_pos h]

theorem fold_toLower (c : Char) : fold c.toLower = fold c := by
  -- Within ASCII folding is lower case; beyond it lower case does nothing.
  by_cases hc : c.toNat < 0x80
  · have hlower : c.toLower.toNat < 0x80 := by
      rw [toNat_toLower]
      split <;> omega
    apply Char.toNat_inj.mp
    rw [toNat_fold_of_lt hlower, toNat_fold_of_lt hc, toNat_toLower]
    split
    case isTrue => rw [if_neg (by omega)]
    case isFalse => rfl
  · have hsame : c.toLower = c := by
      apply Char.toNat_inj.mp
      rw [toNat_toLower, if_neg (by omega)]
    rw [hsame]

/-! ## Section 2: Beyond ASCII -/

/-- No run beyond ASCII leads to an ASCII character that is no small letter, nor out of the
characters. -/
theorem foldRuns_targets : ∀ run ∈ foldRuns, 0x80 ≤ run.last →
    (0x61 ≤ run.first + run.offset ∧ run.last + run.offset ≤ 0x7A ∨
        0x80 ≤ run.first + run.offset) ∧
      (run.last + run.offset < 0xD800 ∨
        (0xE000 ≤ run.first + run.offset ∧ run.last + run.offset < 0x110000)) := by
  decide +kernel

/-- Beyond ASCII a folded character is the one that its run leads to, or the character itself. -/
theorem fold_cases {c : Char} (h : 0x80 ≤ c.toNat) :
    fold c = c ∨ ∃ run ∈ foldRuns, run.covers c.toNat = true ∧
      (fold c).toNat = (c.toNat + run.offset).toNat := by
  rw [fold, if_neg (Nat.not_lt.mpr h), CaseRun.apply]
  split
  case h_1 run hrun =>
    have hcovers := List.find?_some hrun
    have hmem := List.mem_of_find?_eq_some hrun
    refine .inr ⟨run, hmem, hcovers, ?_⟩
    simp only [CaseRun.covers, Bool.and_eq_true, decide_eq_true_eq] at hcovers
    obtain ⟨⟨hfirst, hlast⟩, -⟩ := hcovers
    obtain ⟨-, hvalid⟩ := foldRuns_targets run hmem (by omega)
    -- The number that the run leads to is that of a character, so it is not replaced by zero.
    have hchar : (c.toNat + run.offset).toNat.isValidChar := by
      rcases hvalid with hlow | hhigh
      · exact Or.inl (by omega)
      · exact Or.inr ⟨by omega, by omega⟩
    rw [Char.ofNat, dif_pos hchar]
    rfl
  case h_2 => exact .inl rfl

/-- Beyond ASCII a character folds to a small letter or to something beyond ASCII. -/
theorem toNat_fold_of_le {c : Char} (h : 0x80 ≤ c.toNat) :
    (0x61 ≤ (fold c).toNat ∧ (fold c).toNat ≤ 0x7A) ∨ 0x80 ≤ (fold c).toNat := by
  rcases fold_cases h with hsame | ⟨run, hrun, hcovers, hnat⟩
  · rw [hsame]
    omega
  · simp only [CaseRun.covers, Bool.and_eq_true, decide_eq_true_eq] at hcovers
    obtain ⟨hletter, -⟩ := foldRuns_targets run hrun (by omega)
    omega

/-- No blank is folded, and none is the folding of another character. -/
theorem foldRuns_disjoint_blankRanges : ∀ run ∈ foldRuns, ∀ range ∈ blankRanges,
    (run.last < range.1 ∨ range.2 < run.first) ∧
      (run.last + run.offset < range.1 ∨ range.2 < run.first + run.offset) := by
  decide +kernel

/-! ## Section 3: Marks and blanks -/

/-- An ASCII character that is no letter agrees with itself only. -/
theorem eq_of_sameFold {mark c : Char}
    (hmark : mark.toNat < 0x41 ∨ (0x5A < mark.toNat ∧ mark.toNat < 0x61) ∨
      (0x7A < mark.toNat ∧ mark.toNat < 0x80))
    (h : sameFold mark c = true) : c = mark := by
  have hfold : fold mark = fold c := eq_of_beq h
  have hnat : (fold c).toNat = mark.toNat := by
    rw [← hfold, toNat_fold_of_lt (by omega), if_neg (by omega)]
  by_cases hc : c.toNat < 0x80
  · rw [toNat_fold_of_lt hc] at hnat
    split at hnat
    case isTrue => omega
    case isFalse => exact Char.toNat_inj.mp hnat
  · have := toNat_fold_of_le (Nat.not_lt.mp hc)
    omega

theorem isBlank_iff_of_lt {c : Char} (h : c.toNat < 0x80) :
    isBlank c = true ↔ (0x9 ≤ c.toNat ∧ c.toNat ≤ 0xD) ∨ c.toNat = 0x20 := by
  simp only [isBlank, inRanges, blankRanges, List.any_cons, List.any_nil, Bool.or_eq_true,
    Bool.and_eq_true, decide_eq_true_eq, Bool.false_eq_true, or_false]
  omega

/-- Folding neither makes a blank nor removes one. -/
theorem isBlank_fold (c : Char) : isBlank (fold c) = isBlank c := by
  by_cases hc : c.toNat < 0x80
  · have hnat := toNat_fold_of_lt hc
    have hfold : (fold c).toNat < 0x80 := by
      rw [hnat]
      split <;> omega
    rw [Bool.eq_iff_iff, isBlank_iff_of_lt hfold, isBlank_iff_of_lt hc, hnat]
    split <;> omega
  · rcases fold_cases (Nat.not_lt.mp hc) with hsame | ⟨run, hrun, hcovers, hnat⟩
    · rw [hsame]
    · -- The run neither begins nor ends among the blanks.
      simp only [CaseRun.covers, Bool.and_eq_true, decide_eq_true_eq] at hcovers
      have hdisjoint := foldRuns_disjoint_blankRanges run hrun
      have hsource : isBlank c = false := by
        simp only [isBlank, inRanges, List.any_eq_false, Bool.and_eq_true, decide_eq_true_eq]
        intro range hrange
        have := (hdisjoint range hrange).1
        omega
      have htarget : isBlank (fold c) = false := by
        simp only [isBlank, inRanges, List.any_eq_false, Bool.and_eq_true, decide_eq_true_eq]
        intro range hrange
        have := (hdisjoint range hrange).2
        have := toNat_fold_of_le (Nat.not_lt.mp hc)
        omega
      rw [hsource, htarget]

theorem isBlank_eq_of_sameFold {w c : Char} (h : sameFold w c = true) : isBlank w = isBlank c := by
  rw [← isBlank_fold w, eq_of_beq h, isBlank_fold]

end TreeNotation.Text
