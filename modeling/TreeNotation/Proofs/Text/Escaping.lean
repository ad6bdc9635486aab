import TreeNotation.Text.Escape

/-!
# What Escaping Keeps

Escaping of running text loses only how its blanks are laid out, and escaping of a string loses
nothing.

- `collapse_escapeMarks`: it is the same to collapse blanks before or after marks are escaped;
- `collapse_eq_of_escapeText_eq`: texts that are written alike are alike up to blanks;
- `mem_escapeText`: escaping brings in no characters but backslashes and spaces;
- `unescape_escapeStringChars`: what an escaped string stands for is the string;
- `not_mem_escapeString`: an escaped string stands on one line.
-/

namespace TreeNotation.Text

/-! ## Section 1: Running text -/

theorem isBlank_of_isMark {c : Char} (h : isMark c = true) : isBlank c = false := by
  simp only [isMark, Bool.or_eq_true, beq_iff_eq] at h
  rcases h with (rfl | rfl) | rfl <;> rfl

theorem escapeMarks_cons (c : Char) (cs : List Char) :
    escapeMarks (c :: cs) = escapeMark c ++ escapeMarks cs := List.flatMap_cons

/-- A mark is no blank, so it does not matter which comes first. -/
theorem collapseFrom_escapeMarks (inRun : Bool) (cs : List Char) :
    collapseFrom inRun (escapeMarks cs) = escapeMarks (collapseFrom inRun cs) := by
  induction cs generalizing inRun with
  | nil => rfl
  | cons c cs ih =>
    rw [escapeMarks_cons]
    by_cases hmark : isMark c = true
    · have hblank := isBlank_of_isMark hmark
      have hslash : isBlank '\\' = false := rfl
      simp only [escapeMark, hmark, if_true, List.cons_append, List.nil_append, collapseFrom,
        hslash, hblank, Bool.false_eq_true, if_false, ih, escapeMarks_cons]
    · simp only [escapeMark, hmark, if_false, List.singleton_append, collapseFrom,
        Bool.false_eq_true]
      split
      · split
        · exact ih true
        · rw [ih true, escapeMarks_cons]
          rfl
      · rw [ih false, escapeMarks_cons, escapeMark, if_neg hmark, List.singleton_append]

theorem collapse_escapeMarks (cs : List Char) :
    collapse (escapeMarks cs) = escapeMarks (collapse cs) := collapseFrom_escapeMarks false cs

/-- A backslash in escaped text belongs to the mark behind it. -/
theorem escapeMark_inj {c d : Char} {cs ds : List Char}
    (h : escapeMark c ++ cs = escapeMark d ++ ds) : c = d ∧ cs = ds := by
  -- A character without a backslash is none itself.
  have hplain : ∀ e : Char, ¬ isMark e = true → e ≠ '\\' := by
    intro e he hslash
    exact he (hslash ▸ rfl)
  unfold escapeMark at h
  by_cases hc : isMark c = true
  · by_cases hd : isMark d = true
    · simpa [hc, hd] using h
    · simp only [hc, hd, if_true, if_false, Bool.false_eq_true, List.cons_append, List.nil_append,
        List.cons.injEq] at h
      exact absurd h.1.symm (hplain d hd)
  · by_cases hd : isMark d = true
    · simp only [hc, hd, if_true, if_false, Bool.false_eq_true, List.cons_append, List.nil_append,
        List.cons.injEq] at h
      exact absurd h.1 (hplain c hc)
    · simpa [hc, hd] using h

theorem escapeMarks_injective {cs ds : List Char} (h : escapeMarks cs = escapeMarks ds) :
    cs = ds := by
  -- Nothing but the empty text is escaped to nothing.
  have hne : ∀ (c : Char) (cs : List Char), escapeMarks (c :: cs) ≠ [] := by
    intro c cs
    rw [escapeMarks_cons, escapeMark]
    split <;> simp
  induction cs generalizing ds with
  | nil =>
    cases ds with
    | nil => rfl
    | cons d ds => exact absurd h.symm (hne d ds)
  | cons c cs ih =>
    cases ds with
    | nil => exact absurd h (hne c cs)
    | cons d ds =>
      rw [escapeMarks_cons, escapeMarks_cons] at h
      obtain ⟨rfl, hrest⟩ := escapeMark_inj h
      rw [ih hrest]

/-- Texts that are written alike are alike up to the layout of their blanks. -/
theorem collapse_eq_of_escapeText_eq {s t : String} (h : escapeText s = escapeText t) :
    collapse s.toList = collapse t.toList := by
  apply escapeMarks_injective
  rw [← collapse_escapeMarks, ← collapse_escapeMarks, ← escapeTextChars, ← escapeTextChars,
    ← toList_escapeText, ← toList_escapeText, h]

theorem mem_collapseFrom {inRun : Bool} {cs : List Char} {c : Char}
    (h : c ∈ collapseFrom inRun cs) :
    c ∈ cs ∨ c = ' ' := by
  induction cs generalizing inRun with
  | nil => cases h
  | cons d cs ih =>
    have hlater : ∀ {inRun : Bool}, c ∈ collapseFrom inRun cs → c ∈ d :: cs ∨ c = ' ' :=
      fun hc => (ih hc).imp_left (List.mem_cons_of_mem d)
    rw [collapseFrom] at h
    split at h
    · split at h
      · exact hlater h
      · rcases List.mem_cons.mp h with hspace | h
        · exact .inr hspace
        · exact hlater h
    · rcases List.mem_cons.mp h with rfl | h
      · exact .inl List.mem_cons_self
      · exact hlater h

/-- The characters of an escaped text are those of the text, backslashes and spaces. -/
theorem mem_escapeText {s : String} {c : Char} (h : c ∈ (escapeText s).toList) :
    c ∈ s.toList ∨ c = '\\' ∨ c = ' ' := by
  rw [toList_escapeText] at h
  rcases mem_collapseFrom h with h | hspace
  · obtain ⟨d, hd, hc⟩ := List.mem_flatMap.mp h
    unfold escapeMark at hc
    split at hc
    · rcases List.mem_cons.mp hc with hslash | hc
      · exact .inr (.inl hslash)
      · obtain rfl := List.mem_singleton.mp hc
        exact .inl hd
    · obtain rfl := List.mem_singleton.mp hc
      exact .inl hd
  · exact .inr (.inr hspace)

/-! ## Section 2: Strings -/

/-- What a character stands for behind a backslash. -/
def unescapeChar (c : Char) : Char :=
  if c = 'n' then '\n' else if c = 'r' then '\r' else if c = 't' then '\t' else c

/-- What an escaped string stands for. -/
def unescapeChars : List Char → List Char
  | [] => []
  | [c] => [c]
  | c :: d :: cs =>
    if c = '\\' then unescapeChar d :: unescapeChars cs else c :: unescapeChars (d :: cs)

/-- The characters that may stand behind the backslash of an escape. -/
def escapeLetters : List Char := ['\\', '"', 'n', 'r', 't']

/-- The characters of a string that are written as escapes. -/
def escapedChars : List Char := ['\\', '"', '\n', '\r', '\t']

theorem escapeStringChar_of_not_mem {c : Char} (h : c ∉ escapedChars) :
    escapeStringChar c = [c] := by
  simp only [escapedChars, List.mem_cons, List.not_mem_nil, or_false, not_or] at h
  simp [escapeStringChar, h]

/-- A character of a string stands for itself, or it takes a backslash. -/
theorem escapeStringChar_cases (c : Char) :
    (escapeStringChar c = [c] ∧ c ∉ escapedChars) ∨
      ∃ d ∈ escapeLetters, escapeStringChar c = ['\\', d] ∧ unescapeChar d = c := by
  by_cases hc : c ∈ escapedChars
  · right
    simp only [escapedChars, List.mem_cons, List.not_mem_nil, or_false] at hc
    rcases hc with rfl | rfl | rfl | rfl | rfl
    · exact ⟨'\\', by decide, rfl, rfl⟩
    · exact ⟨'"', by decide, rfl, rfl⟩
    · exact ⟨'n', by decide, rfl, rfl⟩
    · exact ⟨'r', by decide, rfl, rfl⟩
    · exact ⟨'t', by decide, rfl, rfl⟩
  · exact .inl ⟨escapeStringChar_of_not_mem hc, hc⟩

theorem ne_slash_of_not_mem {c : Char} (h : c ∉ escapedChars) : c ≠ '\\' := by
  rintro rfl
  exact h List.mem_cons_self

theorem escapeStringChars_cons (c : Char) (cs : List Char) :
    escapeStringChars (c :: cs) = escapeStringChar c ++ escapeStringChars cs := List.flatMap_cons

theorem unescapeChars_cons_of_ne {c : Char} (h : c ≠ '\\') (cs : List Char) :
    unescapeChars (c :: cs) = c :: unescapeChars cs := by
  cases cs with
  | nil => rfl
  | cons d cs => rw [unescapeChars, if_neg h]

/-- What an escaped string stands for is the string itself. -/
theorem unescape_escapeStringChars (cs : List Char) :
    unescapeChars (escapeStringChars cs) = cs := by
  induction cs with
  | nil => rfl
  | cons c cs ih =>
    rw [escapeStringChars_cons]
    rcases escapeStringChar_cases c with ⟨hself, hplain⟩ | ⟨d, -, hescaped, hd⟩
    · rw [hself, List.singleton_append, unescapeChars_cons_of_ne (ne_slash_of_not_mem hplain), ih]
    · rw [hescaped, List.cons_append, List.singleton_append, unescapeChars, if_pos rfl, hd, ih]

theorem escapeString_injective {s t : String} (h : escapeString s = escapeString t) : s = t := by
  apply String.toList_injective
  rw [← unescape_escapeStringChars s.toList, String.ofList_inj.mp h, unescape_escapeStringChars]

/-- An escaped string stands on one line. -/
theorem not_mem_escapeString (s : String) : '\n' ∉ (escapeString s).toList := by
  intro h
  rw [escapeString, String.toList_ofList] at h
  obtain ⟨c, -, hc⟩ := List.mem_flatMap.mp h
  rcases escapeStringChar_cases c with ⟨hself, hplain⟩ | ⟨d, hd, hescaped, -⟩
  · obtain rfl := List.mem_singleton.mp (hself ▸ hc)
    exact hplain (by decide)
  · rw [hescaped] at hc
    rcases List.mem_cons.mp hc with hslash | hc
    · cases hslash
    · obtain rfl := List.mem_singleton.mp hc
      exact absurd hd (by decide)

end TreeNotation.Text
