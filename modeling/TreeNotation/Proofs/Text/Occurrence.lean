import Mathlib.Data.List.Infix
import TreeNotation.Proofs.Text.Escaping

/-!
# Occurrences

Where a stretch of characters occurs in a text that is put together from others. If it does not hold
a character that separates two of them, it occurs in one or the other.

- **Separators**: `infix_append_of_head?` and `infix_flatMap_cons_iff`; `suffix_append_cons_iff` and
  `prefix_append_cons_iff` for the end and the beginning of a text;
- **Seams**: `concat_infix_append_cons_iff`, if the separator is the last character of the stretch;
- **Escaping and words**: `infix_escapeText_iff` and `exists_infix_words_iff`.
-/

namespace TreeNotation.Text

variable {m xs ys : List Char} {c : Char}

/-! ## Section 1: Separators -/

theorem not_mem_of_pos {p : Char → Bool} (hm : ∀ c ∈ m, p c = false) (hc : p c = true) : c ∉ m := by
  intro hmem
  rw [hm c hmem] at hc
  cases hc

theorem suffix_append_cons_iff (h : c ∉ m) : m <:+ xs ++ c :: ys ↔ m <:+ ys := by
  refine ⟨?_, fun hsuffix => hsuffix.trans ⟨xs ++ [c], by simp⟩⟩
  rintro ⟨front, hfront⟩
  rcases List.append_eq_append_iff.mp hfront with ⟨a, -, rfl⟩ | ⟨a, -, ha⟩
  · exact absurd (by simp) h
  · cases a with
    | nil => exact absurd (by rw [← List.nil_append m, ← ha]; simp) h
    | cons d a => exact ⟨a, (List.cons.inj ha).2.symm⟩

theorem prefix_append_cons_iff (h : c ∉ m) : m <+: xs ++ c :: ys ↔ m <+: xs := by
  rw [← List.reverse_suffix, List.reverse_append, List.reverse_cons, List.append_assoc,
    List.singleton_append, suffix_append_cons_iff (by simpa using h), List.reverse_suffix]

theorem prefix_cons_of_not_mem (h : c ∉ m) : m <+: c :: ys ↔ m = [] := by
  rw [← List.nil_append (c :: ys), prefix_append_cons_iff h, List.prefix_nil]

/-- A stretch does not reach into a text that begins with a character that it does not hold. -/
theorem infix_append_of_head? (hys : ∀ d ∈ ys.head?, d ∉ m) :
    m <:+: xs ++ ys ↔ m <:+: xs ∨ m <:+: ys := by
  rw [List.infix_append_iff_ne_nil]
  refine ⟨?_, fun h => h.imp_right .inl⟩
  rintro (h | h | ⟨front, rest, -, hrest, rfl, -, hbegins⟩)
  · exact .inl h
  · exact .inr h
  · obtain ⟨d, rest, rfl⟩ := List.exists_cons_of_ne_nil hrest
    obtain ⟨later, rfl⟩ := hbegins
    exact absurd (by simp) (hys d rfl)

theorem infix_cons_of_not_mem (h : c ∉ m) : m <:+: c :: ys ↔ m <:+: ys := by
  refine ⟨fun hcons => ?_, List.infix_cons⟩
  rcases List.infix_cons_iff.mp hcons with hbegins | hoccurs
  · rw [(prefix_cons_of_not_mem h).mp hbegins]
    exact List.nil_infix
  · exact hoccurs

theorem infix_append_cons_iff (h : c ∉ m) : m <:+: xs ++ c :: ys ↔ m <:+: xs ∨ m <:+: ys := by
  rw [infix_append_of_head? (by simpa using h), infix_cons_of_not_mem h]

theorem infix_append_of_forall (h : ∀ c ∈ xs, c ∉ m) : m <:+: xs ++ ys ↔ m <:+: ys := by
  induction xs with
  | nil => rfl
  | cons c xs ih =>
    rw [List.cons_append, infix_cons_of_not_mem (h c List.mem_cons_self)]
    exact ih fun d hd => h d (List.mem_cons_of_mem c hd)

theorem not_infix_of_not_mem (hc : c ∈ m) (h : c ∉ xs) : ¬ m <:+: xs :=
  fun hoccurs => h (hoccurs.subset hc)

/-- With a separator before each piece, a stretch occurs in one of the pieces. -/
theorem infix_flatMap_cons_iff {ι : Type} (hne : m ≠ []) (h : c ∉ m) (text : ι → List Char)
    (items : List ι) :
    m <:+: items.flatMap (fun item => c :: text item) ↔ ∃ item ∈ items, m <:+: text item := by
  induction items with
  | nil => simpa using hne
  | cons item items ih =>
    rw [List.flatMap_cons, List.cons_append, infix_cons_of_not_mem h, List.exists_mem_cons_iff,
      ← ih]
    apply infix_append_of_head?
    cases items with
    | nil => simp
    | cons next rest => simpa using h

/-! ## Section 2: Seams -/

/-- A word and a separator behind it occur before another separator, at the seam, or behind it. -/
theorem concat_infix_append_cons_iff {word : List Char} (h : c ∉ word) :
    word ++ [c] <:+: xs ++ c :: ys ↔
      word ++ [c] <:+: xs ∨ word <:+ xs ∨ word ++ [c] <:+: ys := by
  constructor
  · intro hoccurs
    rcases List.infix_append_iff_ne_nil.mp hoccurs with
      hxs | hcons | ⟨front, rest, -, hrest, hsplit, hfront, hbegins⟩
    · exact .inl hxs
    · rcases List.infix_cons_iff.mp hcons with hbegins | hys
      · cases word with
        | nil => exact .inr (.inl List.nil_suffix)
        | cons d word =>
          rw [List.cons_append, List.cons_prefix_cons] at hbegins
          exact absurd (hbegins.1 ▸ List.mem_cons_self) h
      · exact .inr (.inr hys)
    · -- The separator of the stretch is the one at the seam, as there is no other in it.
      obtain ⟨d, rest, rfl⟩ := List.exists_cons_of_ne_nil hrest
      rw [List.cons_prefix_cons] at hbegins
      obtain ⟨rfl, -⟩ := hbegins
      rcases List.append_eq_append_iff.mp hsplit with ⟨a, hword, ha⟩ | ⟨a, rfl, ha⟩
      · cases a with
        | nil =>
          rw [List.append_nil] at hword
          exact .inr (.inl (hword ▸ hfront))
        | cons e a => simp at ha
      · cases a with
        | nil => exact .inr (.inl (by simpa using hfront))
        | cons e a =>
          obtain ⟨rfl, -⟩ := List.cons.inj ha
          exact absurd (by simp) h
  · rintro (hxs | hxs | hys)
    · exact List.infix_append_of_infix_left hxs
    · obtain ⟨front, rfl⟩ := hxs
      exact ⟨front, ys, by simp⟩
    · exact List.infix_append_of_infix_right (List.infix_cons hys)

/-! ## Section 3: Escaping and words -/

section Escaping

variable (hmarks : ∀ c ∈ m, isMark c = false)

include hmarks

theorem prefix_escapeMarks_iff {cs : List Char} : m <+: escapeMarks cs ↔ m <+: cs := by
  induction cs generalizing m with
  | nil => rfl
  | cons c cs ih =>
    rw [escapeMarks_cons, escapeMark]
    cases m with
    | nil => simp
    | cons d m =>
      split
      case isTrue hc =>
        -- Neither a backslash nor the mark behind it is the next character of the stretch.
        have hslash : d ≠ '\\' := fun h => not_mem_of_pos hmarks (c := '\\') rfl (by simp [h])
        have hmark : d ≠ c := fun h => not_mem_of_pos hmarks hc (by simp [h])
        simp [hslash, hmark]
      case isFalse =>
        rw [List.singleton_append, List.cons_prefix_cons, List.cons_prefix_cons,
          ih fun e he => hmarks e (List.mem_cons_of_mem d he)]

theorem infix_escapeMarks_iff {cs : List Char} : m <:+: escapeMarks cs ↔ m <:+: cs := by
  induction cs with
  | nil => rfl
  | cons c cs ih =>
    by_cases hc : isMark c = true
    · have hmark : ∀ d, isMark d = true → d ∉ m := fun d => not_mem_of_pos hmarks
      rw [escapeMarks_cons, escapeMark, if_pos hc, List.cons_append, List.singleton_append,
        infix_cons_of_not_mem (hmark _ rfl), infix_cons_of_not_mem (hmark c hc),
        infix_cons_of_not_mem (hmark c hc), ih]
    · have hsame : escapeMarks (c :: cs) = c :: escapeMarks cs := by
        rw [escapeMarks_cons, escapeMark, if_neg hc, List.singleton_append]
      rw [List.infix_cons_iff, ← ih, ← prefix_escapeMarks_iff hmarks, hsame, List.infix_cons_iff]

end Escaping

section Blanks

variable (hblanks : ∀ c ∈ m, isBlank c = false)

include hblanks

theorem prefix_collapse_iff {cs : List Char} : m <+: collapse cs ↔ m <+: cs := by
  unfold collapse
  induction cs generalizing m with
  | nil => rfl
  | cons c cs ih =>
    rw [collapseFrom]
    cases m with
    | nil => simp
    | cons d m =>
      split
      case isTrue hc =>
        have hspace : d ≠ ' ' := fun h => not_mem_of_pos hblanks (c := ' ') rfl (by simp [h])
        have hblank : d ≠ c := fun h => not_mem_of_pos hblanks hc (by simp [h])
        simp [hspace, hblank]
      case isFalse =>
        rw [List.cons_prefix_cons, List.cons_prefix_cons,
          ih fun e he => hblanks e (List.mem_cons_of_mem d he)]

theorem infix_collapseFrom_iff {cs : List Char} (inRun : Bool) :
    m <:+: collapseFrom inRun cs ↔ m <:+: cs := by
  induction cs generalizing inRun with
  | nil => rfl
  | cons c cs ih =>
    by_cases hc : isBlank c = true
    · rw [infix_cons_of_not_mem (not_mem_of_pos hblanks hc), ← ih true, collapseFrom, if_pos hc]
      split
      · rfl
      · exact infix_cons_of_not_mem (not_mem_of_pos hblanks rfl)
    · have hsame : collapseFrom inRun (c :: cs) = collapse (c :: cs) := by
        simp [collapse, collapseFrom, hc]
      have hrest : collapse (c :: cs) = c :: collapseFrom false cs := by
        simp [collapse, collapseFrom, hc]
      rw [List.infix_cons_iff, ← ih false, ← prefix_collapse_iff hblanks, hsame, hrest,
        List.infix_cons_iff]

/-- A stretch without marks and blanks occurs in a text if and only if it does after escaping. -/
theorem infix_escapeText_iff (hmarks : ∀ c ∈ m, isMark c = false) {s : String} :
    m <:+: (escapeText s).toList ↔ m <:+: s.toList := by
  rw [toList_escapeText]
  exact (infix_collapseFrom_iff hblanks false).trans (infix_escapeMarks_iff hmarks)

end Blanks

/-- A character that is no separator belongs to the first stretch. -/
theorem exists_fields_cons {p : Char → Bool} (hc : ¬ p c = true) (cs : List Char) :
    ∃ first rest, fields p cs = first :: rest ∧ fields p (c :: cs) = (c :: first) :: rest := by
  have hne : fields p cs ≠ [] := by
    cases cs with
    | nil => simp [fields]
    | cons d cs =>
      rw [fields]
      split
      · simp
      · split <;> simp
  obtain ⟨first, rest, hfields⟩ := List.exists_cons_of_ne_nil hne
  exact ⟨first, rest, hfields, by rw [fields, if_neg hc, hfields]⟩

section Words

variable {p : Char → Bool} (hm : ∀ c ∈ m, p c = false)

include hm

theorem prefix_head_fields_iff {cs first : List Char} {rest : List (List Char)}
    (hfields : fields p cs = first :: rest) : m <+: first ↔ m <+: cs := by
  induction cs generalizing m first rest with
  | nil =>
    cases hfields
    rfl
  | cons c cs ih =>
    by_cases hc : p c = true
    · rw [fields, if_pos hc] at hfields
      cases hfields
      rw [List.prefix_nil, prefix_cons_of_not_mem (not_mem_of_pos hm hc)]
    · obtain ⟨front, others, hcs, hcons⟩ := exists_fields_cons hc cs
      rw [hfields] at hcons
      cases hcons
      cases m with
      | nil => simp
      | cons d m =>
        rw [List.cons_prefix_cons, List.cons_prefix_cons,
          ih (fun e he => hm e (List.mem_cons_of_mem d he)) hcs]

theorem exists_infix_fields_iff (hne : m ≠ []) {cs : List Char} :
    (∃ field ∈ fields p cs, m <:+: field) ↔ m <:+: cs := by
  induction cs with
  | nil => simp [fields]
  | cons c cs ih =>
    by_cases hc : p c = true
    · rw [infix_cons_of_not_mem (not_mem_of_pos hm hc), ← ih, fields, if_pos hc,
        List.exists_mem_cons_iff]
      exact or_iff_right (by simpa using hne)
    · obtain ⟨first, rest, hcs, hcons⟩ := exists_fields_cons hc cs
      rw [List.infix_cons_iff, ← ih, ← prefix_head_fields_iff hm hcons, hcs, hcons,
        List.exists_mem_cons_iff, List.exists_mem_cons_iff, List.infix_cons_iff, or_assoc]

end Words

/-- A stretch without blanks occurs in a text if and only if it occurs in a word of it. -/
theorem exists_infix_words_iff (hne : m ≠ []) (hblanks : ∀ c ∈ m, isBlank c = false) {s : String} :
    (∃ word ∈ words s, m <:+: word.toList) ↔ m <:+: s.toList := by
  rw [← exists_infix_fields_iff hblanks hne]
  constructor
  · rintro ⟨word, hword, hoccurs⟩
    obtain ⟨field, hfield, rfl⟩ := List.mem_map.mp hword
    exact ⟨field, (List.mem_filter.mp hfield).1, by simpa using hoccurs⟩
  · rintro ⟨field, hfield, hoccurs⟩
    have hfull : field ≠ [] := by
      rintro rfl
      exact hne (List.infix_nil.mp hoccurs)
    have hmem : field ∈ wordsChars s.toList := List.mem_filter.mpr ⟨hfield, by simpa using hfull⟩
    exact ⟨_, List.mem_map_of_mem hmem, by simpa using hoccurs⟩

end TreeNotation.Text
