import TreeNotation.Proofs.Text.Layout

/-!
# Payloads of Strings

What is written for a string can be read in one way only, and its characters show that it is
written for one: it stays on one line, no quote in it is bare, and every backslash belongs to an
escape.

- **Payloads**: `IsPayload`, told by the backslashes before each character; `isPayload_cons_iff`
  and `isPayload_escape_iff` take a character or an escape off a payload;
- **Both ways**: `isPayload_escapeStringChars` and `escape_unescapeChars`, the latter by the cases of
  the reader;
- **Strings**: `escapeString_reversible`; payloads are all that is written, and reading them loses
  nothing.
-/

namespace TreeNotation.Text

/-! ## Section 1: Payloads -/

/-- A text that could be written for a string. -/
structure IsPayload (cs : List Char) : Prop where
  /-- Line feeds, carriage returns and tabs are not written as they are. -/
  one_line : '\n' ∉ cs ∧ '\r' ∉ cs ∧ '\t' ∉ cs
  /-- No quote stands behind an even number of backslashes, such as none. -/
  quoted : ∀ before after, cs = before ++ '"' :: after → Odd (slashes before)
  /-- What stands behind an odd number of backslashes makes an escape with the last of them. -/
  escapes : ∀ before c after, cs = before ++ c :: after → Odd (slashes before) → c ∈ escapeLetters
  /-- A backslash at the end is escaped itself. -/
  closed : Even (slashes cs)

theorem even_slashes_append {cs : List Char} (h : Even (slashes cs)) (ds : List Char) :
    Even (slashes (cs ++ ds)) ↔ Even (slashes ds) := by
  rw [← Nat.not_odd_iff_even, ← Nat.not_odd_iff_even, odd_slashes_append h]

theorem even_slashes_singleton {c : Char} (h : c ≠ '\\') : Even (slashes [c]) :=
  slashes_concat_of_ne h [] ▸ Even.zero

/-- Behind an even number of backslashes a payload begins anew. -/
theorem isPayload_append_iff {us : List Char} (h : Even (slashes us)) (cs : List Char) :
    IsPayload (us ++ cs) ↔ IsPayload us ∧ IsPayload cs := by
  constructor
  · rintro ⟨hline, hquoted, hescapes, hclosed⟩
    simp only [List.mem_append, not_or] at hline
    obtain ⟨⟨hfeed, hfeed'⟩, ⟨hreturn, hreturn'⟩, htab, htab'⟩ := hline
    refine ⟨⟨⟨hfeed, hreturn, htab⟩, ?_, ?_, h⟩, ⟨⟨hfeed', hreturn', htab'⟩, ?_, ?_, ?_⟩⟩
    · intro before after hus
      exact hquoted before (after ++ cs) (by simp [hus])
    · intro before c after hus
      exact hescapes before c (after ++ cs) (by simp [hus])
    · intro before after hcs
      exact (odd_slashes_append h before).mp (hquoted (us ++ before) after (by simp [hcs]))
    · intro before c after hcs hodd
      exact hescapes (us ++ before) c after (by simp [hcs]) ((odd_slashes_append h before).mpr hodd)
    · exact (even_slashes_append h cs).mp hclosed
  · rintro ⟨hus, hcs⟩
    refine ⟨?_, ?_, ?_, (even_slashes_append h cs).mpr hcs.closed⟩
    · obtain ⟨hfeed, hreturn, htab⟩ := hus.one_line
      obtain ⟨hfeed', hreturn', htab'⟩ := hcs.one_line
      simp only [List.mem_append, not_or]
      exact ⟨⟨hfeed, hfeed'⟩, ⟨hreturn, hreturn'⟩, htab, htab'⟩
    · intro before after hsplit
      rcases split_of_append_eq hsplit with ⟨between, rfl, hlater⟩ | ⟨rest, hfirst⟩
      · exact (odd_slashes_append h between).mpr (hcs.quoted between after hlater)
      · exact hus.quoted before rest hfirst
    · intro before c after hsplit hodd
      rcases split_of_append_eq hsplit with ⟨between, rfl, hlater⟩ | ⟨rest, hfirst⟩
      · exact hcs.escapes between c after hlater ((odd_slashes_append h between).mp hodd)
      · exact hus.escapes before c rest hfirst hodd

theorem isPayload_nil : IsPayload [] where
  one_line := by simp
  quoted := by simp
  escapes := by simp
  closed := Even.zero

/-- A character is a payload if it stands for itself. -/
theorem isPayload_singleton_iff {c : Char} : IsPayload [c] ↔ c ∉ escapedChars := by
  constructor
  · intro h hc
    have hline := h.one_line
    simp only [escapedChars, List.mem_cons, List.not_mem_nil, or_false] at hc
    rcases hc with rfl | rfl | rfl | rfl | rfl
    · exact absurd h.closed (by decide)
    · exact absurd (h.quoted [] [] rfl) (by decide)
    all_goals simp at hline
  · intro hc
    have hother := hc
    simp only [escapedChars, List.mem_cons, List.not_mem_nil, or_false, not_or] at hother
    obtain ⟨hslash, hquote, hfeed, hreturn, htab⟩ := hother
    refine ⟨?_, ?_, ?_, even_slashes_singleton hslash⟩
    · simp [Ne.symm hfeed, Ne.symm hreturn, Ne.symm htab]
    · intro before after hsplit
      obtain ⟨-, heq, -⟩ : before = [] ∧ '"' = c ∧ after = [] := by
        simpa [List.singleton_eq_append_iff] using hsplit
      exact absurd heq.symm hquote
    · intro before d after hsplit hodd
      obtain ⟨rfl, -⟩ : before = [] ∧ d = c ∧ after = [] := by
        simpa [List.singleton_eq_append_iff] using hsplit
      exact absurd hodd (by decide)

/-- A backslash and a character are a payload if they are an escape. -/
theorem isPayload_pair_iff {d : Char} : IsPayload ['\\', d] ↔ d ∈ escapeLetters := by
  constructor
  · intro h
    exact h.escapes ['\\'] d [] rfl odd_one
  · intro hd
    -- The second character is the only one behind an odd number of backslashes.
    have hplace : ∀ {before c after}, ['\\', d] = before ++ c :: after →
        before = [] ∧ '\\' = c ∨ before = ['\\'] ∧ d = c := by
      intro before c after hsplit
      rcases before with _ | ⟨b, _ | ⟨b', before⟩⟩
      · exact .inl ⟨rfl, (List.cons.inj hsplit).1⟩
      · obtain ⟨rfl, hrest⟩ := List.cons.inj hsplit
        exact .inr ⟨rfl, (List.cons.inj hrest).1⟩
      · simp at hsplit
    refine ⟨?_, ?_, ?_, even_slashes_pair d⟩
    · simp only [escapeLetters, List.mem_cons, List.not_mem_nil, or_false] at hd
      rcases hd with rfl | rfl | rfl | rfl | rfl <;> decide
    · intro before after hsplit
      rcases hplace hsplit with ⟨-, hslash⟩ | ⟨rfl, -⟩
      · cases hslash
      · exact odd_one
    · intro before c after hsplit hodd
      rcases hplace hsplit with ⟨rfl, -⟩ | ⟨-, rfl⟩
      · exact absurd hodd (by decide)
      · exact hd

theorem isPayload_cons_iff {c : Char} (h : c ≠ '\\') (cs : List Char) :
    IsPayload (c :: cs) ↔ c ∉ escapedChars ∧ IsPayload cs := by
  rw [← isPayload_singleton_iff]
  exact isPayload_append_iff (even_slashes_singleton h) cs

theorem isPayload_escape_iff (d : Char) (cs : List Char) :
    IsPayload ('\\' :: d :: cs) ↔ d ∈ escapeLetters ∧ IsPayload cs := by
  rw [← isPayload_pair_iff]
  exact isPayload_append_iff (even_slashes_pair d) cs

/-! ## Section 2: Writing and reading -/

/-- What is written for a string is a payload. -/
theorem isPayload_escapeStringChars (cs : List Char) : IsPayload (escapeStringChars cs) := by
  induction cs with
  | nil => exact isPayload_nil
  | cons c cs ih =>
    rw [escapeStringChars_cons]
    rcases escapeStringChar_cases c with ⟨hself, hplain⟩ | ⟨d, hd, hescaped, -⟩
    · rw [hself]
      exact (isPayload_cons_iff (ne_slash_of_not_mem hplain) _).mpr ⟨hplain, ih⟩
    · rw [hescaped]
      exact (isPayload_escape_iff d _).mpr ⟨hd, ih⟩

theorem escapeStringChar_unescapeChar {d : Char} (h : d ∈ escapeLetters) :
    escapeStringChar (unescapeChar d) = ['\\', d] := by
  simp only [escapeLetters, List.mem_cons, List.not_mem_nil, or_false] at h
  rcases h with rfl | rfl | rfl | rfl | rfl <;> rfl

/-- What a payload stands for is written as that payload. -/
theorem escape_unescapeChars {cs : List Char} (h : IsPayload cs) :
    escapeStringChars (unescapeChars cs) = cs := by
  -- The cases are those of the reader: the end, the last character, an escape, any other character.
  induction cs using unescapeChars.induct with
  | case1 => rfl
  | case2 c =>
    have hself := escapeStringChar_of_not_mem (isPayload_singleton_iff.mp h)
    rw [unescapeChars, escapeStringChars_cons, hself]
    rfl
  | case3 d cs ih =>
    obtain ⟨hd, hrest⟩ := (isPayload_escape_iff d cs).mp h
    rw [unescapeChars, if_pos rfl, escapeStringChars_cons, escapeStringChar_unescapeChar hd,
      ih hrest]
    rfl
  | case4 c d cs hne ih =>
    obtain ⟨hplain, hrest⟩ := (isPayload_cons_iff hne (d :: cs)).mp h
    rw [unescapeChars, if_neg hne, escapeStringChars_cons, escapeStringChar_of_not_mem hplain,
      ih hrest]
    rfl

/-! ## Section 3: Strings -/

/-- What an escaped string stands for. -/
def unescapeString (s : String) : String := String.ofList (unescapeChars s.toList)

/-- Escaping of strings can be undone: what is written for a string stands for it. The texts that
are written for strings are the payloads, which break no line and hold no bare quote, and writing
what a payload stands for gives that payload again. -/
theorem escapeString_reversible :
    (∀ s : String, unescapeString (escapeString s) = s) ∧
      (∀ t : String, (∃ s, escapeString s = t) ↔ IsPayload t.toList) ∧
      ∀ t : String, IsPayload t.toList → escapeString (unescapeString t) = t := by
  have hwrite : ∀ t : String, IsPayload t.toList → escapeString (unescapeString t) = t := by
    intro t ht
    rw [escapeString, unescapeString, String.toList_ofList, escape_unescapeChars ht,
      String.ofList_toList]
  refine ⟨?_, fun t => ⟨?_, fun ht => ⟨unescapeString t, hwrite t ht⟩⟩, hwrite⟩
  · intro s
    rw [unescapeString, escapeString, String.toList_ofList, unescape_escapeStringChars,
      String.ofList_toList]
  · rintro ⟨s, rfl⟩
    rw [escapeString, String.toList_ofList]
    exact isPayload_escapeStringChars s.toList

/-- Backslashes before a quote, a letter and the end. -/
example : escapeString "\\\"\\n\n\\" = "\\\\\\\"\\\\n\\n\\\\" := by
  decide +kernel

end TreeNotation.Text
