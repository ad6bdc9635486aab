import Mathlib.Algebra.Ring.Parity
import Mathlib.Data.List.Infix
import TreeNotation.Proofs.Text.Escaping

/-!
# Layout of Running Text

Writing a running text loses how its blanks are laid out and nothing else, and what is written
can be read in one way only.

- **Blanks**: `Collapsed` says what is left of the blanks of a text; `collapsed_iff` shows that
  collapsing is the one way to get it, and `Collapsed.not_blanks` that no two of them meet;
- **Marks**: `unescapeMarks` takes the backslashes away again (`unescapeMarks_escapeMarks`), and
  `odd_slashes_of_escapeMarks` counts those before a star or a dollar sign;
- **Texts**: `escapeText_loses_only_layout` puts the two together.
-/

namespace TreeNotation.Text

/-! ## Section 1: Blanks -/

/-- `Collapsed cs ds` says that `ds` has one space for each longest run of blanks of `cs`, and all
other characters of it. -/
inductive Collapsed : List Char → List Char → Prop where
  | nil : Collapsed [] []
  | other {c : Char} {cs ds : List Char} (hother : isBlank c = false) (hrest : Collapsed cs ds) :
      Collapsed (c :: cs) (c :: ds)
  | run {run cs ds : List Char} (hne : run ≠ []) (hblank : ∀ c ∈ run, isBlank c = true)
      (hlongest : ∀ c, cs.head? = some c → isBlank c = false) (hrest : Collapsed cs ds) :
      Collapsed (run ++ cs) (' ' :: ds)

theorem collapse_cons_of_not_isBlank {c : Char} (h : isBlank c = false) (cs : List Char) :
    collapse (c :: cs) = c :: collapse cs := by
  simp [collapse, collapseFrom, h]

/-- Where no run goes on, it does not matter that one has been written. -/
theorem collapseFrom_true_of_head {cs : List Char}
    (h : ∀ c, cs.head? = some c → isBlank c = false) : collapseFrom true cs = collapse cs := by
  cases cs with
  | nil => rfl
  | cons c cs => simp [collapse, collapseFrom, h c rfl]

theorem collapseFrom_true_append {run : List Char} (h : ∀ c ∈ run, isBlank c = true)
    (cs : List Char) : collapseFrom true (run ++ cs) = collapseFrom true cs := by
  induction run with
  | nil => rfl
  | cons c run ih =>
    rw [List.cons_append, collapseFrom, if_pos (h c List.mem_cons_self), if_pos rfl]
    exact ih fun d hd => h d (List.mem_cons_of_mem c hd)

theorem collapse_run_append {run cs : List Char} (hne : run ≠ [])
    (hblank : ∀ c ∈ run, isBlank c = true)
    (hlongest : ∀ c, cs.head? = some c → isBlank c = false) :
    collapse (run ++ cs) = ' ' :: collapse cs := by
  obtain ⟨c, run, rfl⟩ := List.exists_cons_of_ne_nil hne
  have hrun := collapseFrom_true_append (fun d hd => hblank d (List.mem_cons_of_mem c hd)) cs
  rw [collapse, List.cons_append, collapseFrom, if_pos (hblank c List.mem_cons_self), hrun,
    collapseFrom_true_of_head hlongest]
  rfl

/-- The induction is on the length of the text: a step takes off a longest run of blanks, or one
character that is none. -/
theorem collapsed_collapse (cs : List Char) : Collapsed cs (collapse cs) := by
  induction hn : cs.length using Nat.strong_induction_on generalizing cs with
  | _ n ih =>
    cases cs with
    | nil => exact .nil
    | cons c cs =>
      cases hc : isBlank c with
      | false =>
        rw [collapse_cons_of_not_isBlank hc]
        exact .other hc (ih cs.length (by simp [← hn]) cs rfl)
      | true =>
        have hne : (c :: cs).takeWhile isBlank ≠ [] := by simp [hc]
        have hblank : ∀ d ∈ (c :: cs).takeWhile isBlank, isBlank d = true :=
          fun d hd => List.all_eq_true.mp List.all_takeWhile d hd
        have hlongest : ∀ d, ((c :: cs).dropWhile isBlank).head? = some d → isBlank d = false := by
          intro d hd
          simpa [hd] using List.head?_dropWhile_not isBlank (c :: cs)
        have hshort : ((c :: cs).dropWhile isBlank).length < n := by
          rw [← hn, List.dropWhile_cons, if_pos hc, List.length_cons]
          exact Nat.lt_succ_of_le (List.dropWhile_sublist isBlank).length_le
        have hrun := Collapsed.run hne hblank hlongest (ih _ hshort _ rfl)
        rwa [← collapse_run_append hne hblank hlongest, List.takeWhile_append_dropWhile] at hrun

theorem collapsed_iff {cs ds : List Char} : Collapsed cs ds ↔ ds = collapse cs := by
  constructor
  · intro h
    induction h with
    | nil => rfl
    | other hother _ ih => rw [collapse_cons_of_not_isBlank hother, ← ih]
    | run hne hblank hlongest _ ih => rw [collapse_run_append hne hblank hlongest, ← ih]
  · rintro rfl
    exact collapsed_collapse cs

/-- A text that does not begin with a blank does not do so afterwards. -/
theorem Collapsed.head_of_head {cs ds : List Char} (h : Collapsed cs ds)
    (hhead : ∀ c, cs.head? = some c → isBlank c = false) :
    ∀ d, ds.head? = some d → isBlank d = false := by
  cases h with
  | nil => exact hhead
  | other _ _ => exact hhead
  | run hne hblank _ _ =>
    obtain ⟨c, run, rfl⟩ := List.exists_cons_of_ne_nil hne
    have hc := hhead c rfl
    rw [hblank c List.mem_cons_self] at hc
    cases hc

/-- No two blanks are left next to each other. -/
theorem Collapsed.not_blanks {cs ds : List Char} (h : Collapsed cs ds) {b c : Char}
    (hb : isBlank b = true) (hc : isBlank c = true) : ¬ [b, c] <:+: ds := by
  induction h with
  | nil => simp
  | other hother _ ih =>
    rw [List.infix_cons_iff, not_or, List.cons_prefix_cons]
    refine ⟨fun hfirst => ?_, ih⟩
    rw [← hfirst.1, hb] at hother
    cases hother
  | run _ _ hlongest hrest ih =>
    rw [List.infix_cons_iff, not_or, List.cons_prefix_cons]
    refine ⟨fun hfirst => ?_, ih⟩
    obtain ⟨after, rfl⟩ := hfirst.2
    have hnext := hrest.head_of_head hlongest c rfl
    rw [hc] at hnext
    cases hnext

/-! ## Section 2: Marks -/

/-- Running text without the backslash before each mark that has one. -/
def unescapeMarks : List Char → List Char
  | [] => []
  | [c] => [c]
  | c :: d :: cs =>
    if c = '\\' ∧ isMark d = true then d :: unescapeMarks cs else c :: unescapeMarks (d :: cs)

theorem unescapeMarks_cons_of_ne {c : Char} (h : c ≠ '\\') (cs : List Char) :
    unescapeMarks (c :: cs) = c :: unescapeMarks cs := by
  cases cs with
  | nil => rfl
  | cons d cs => rw [unescapeMarks, if_neg fun hslash => h hslash.1]

theorem unescapeMarks_escapeMark (c : Char) (cs : List Char) :
    unescapeMarks (escapeMark c ++ cs) = c :: unescapeMarks cs := by
  unfold escapeMark
  cases hmark : isMark c with
  | true => simp [unescapeMarks, hmark]
  | false =>
    have hslash : c ≠ '\\' := by
      rintro rfl
      cases hmark
    exact unescapeMarks_cons_of_ne hslash cs

/-- What an escaped running text stands for is the text. -/
theorem unescapeMarks_escapeMarks (cs : List Char) : unescapeMarks (escapeMarks cs) = cs := by
  induction cs with
  | nil => rfl
  | cons c cs ih => rw [escapeMarks_cons, unescapeMarks_escapeMark, ih]

/-- The number of backslashes in which a text ends. -/
def slashes (cs : List Char) : Nat := (cs.reverse.takeWhile (· == '\\')).length

theorem slashes_concat_of_ne {c : Char} (h : c ≠ '\\') (cs : List Char) :
    slashes (cs ++ [c]) = 0 := by
  simp [slashes, h]

/-- An even number of backslashes makes no difference to a text behind them. -/
theorem odd_slashes_append {cs : List Char} (h : Even (slashes cs)) (ds : List Char) :
    Odd (slashes (cs ++ ds)) ↔ Odd (slashes ds) := by
  unfold slashes at h ⊢
  rw [List.reverse_append, List.takeWhile_append]
  split
  next hall => rw [List.length_append, hall, Nat.odd_add, iff_true_right h]
  next => rfl

/-- A backslash and the character behind it leave none open. -/
theorem even_slashes_pair (c : Char) : Even (slashes ['\\', c]) := by
  by_cases hslash : c = '\\'
  · rw [hslash]
    exact even_two
  · exact slashes_concat_of_ne hslash ['\\'] ▸ Even.zero

theorem even_slashes_escapeMark (c : Char) : Even (slashes (escapeMark c)) := by
  unfold escapeMark
  split
  next => exact even_slashes_pair c
  next hmark =>
    have hslash : c ≠ '\\' := by
      rintro rfl
      exact hmark rfl
    exact slashes_concat_of_ne hslash [] ▸ Even.zero

/-- A place in two texts put together is a place in the second one or in the first one. -/
theorem split_of_append_eq {us cs before after : List Char} {c : Char}
    (h : us ++ cs = before ++ c :: after) :
    (∃ between, before = us ++ between ∧ cs = between ++ c :: after) ∨
      ∃ rest, us = before ++ c :: rest := by
  rcases List.append_eq_append_iff.mp h with ⟨between, rfl, hcs⟩ | ⟨between, hus, hcs⟩
  · exact .inl ⟨between, rfl, hcs⟩
  · cases between with
    | nil => exact .inl ⟨[], by simpa using hus.symm, hcs.symm⟩
    | cons d between =>
      obtain ⟨rfl, -⟩ := List.cons.inj hcs
      exact .inr ⟨between, hus⟩

/-- Within what is written for one character, only its backslash stands before another mark. -/
theorem eq_slash_of_escapeMark {d c : Char} {before after : List Char}
    (h : escapeMark d = before ++ c :: after) (hmark : isMark c = true) (hslash : c ≠ '\\') :
    before = ['\\'] := by
  unfold escapeMark at h
  cases before with
  | nil =>
    split at h
    next => exact absurd (List.cons.inj h).1.symm hslash
    next hplain =>
      rw [(List.cons.inj h).1] at hplain
      exact absurd hmark hplain
  | cons b before =>
    split at h
    next =>
      obtain ⟨rfl, hrest⟩ := List.cons.inj h
      cases before with
      | nil => rfl
      | cons => simp at hrest
    next => simp at h

/-- Each star and each dollar sign stands behind its own backslash, and those in front of that one
come in pairs. -/
theorem odd_slashes_of_escapeMarks {cs before after : List Char} {c : Char}
    (h : escapeMarks cs = before ++ c :: after) (hmark : isMark c = true) (hslash : c ≠ '\\') :
    Odd (slashes before) := by
  induction cs generalizing before with
  | nil => simp [escapeMarks] at h
  | cons d cs ih =>
    rw [escapeMarks_cons] at h
    rcases split_of_append_eq h with ⟨between, rfl, hcs⟩ | ⟨rest, hd⟩
    · exact (odd_slashes_append (even_slashes_escapeMark d) between).mpr (ih hcs)
    · rw [eq_slash_of_escapeMark hd hmark hslash]
      exact odd_one

/-! ## Section 3: Texts -/

/-- What is written for a text stands for the text with its blanks collapsed, and it is the same
if the blanks are collapsed first. Whether a mark is found among the bytes makes no difference to
it, and one is found if there is one. The blanks in it are single spaces, and the stars and dollar
signs in it are escaped. -/
theorem escapeText_loses_only_layout (s : String) :
    ∃ plain : List Char, Collapsed s.toList plain ∧
      unescapeMarks (escapeText s).toList = plain ∧
      (escapeText s).toList = escapeMarks plain ∧
      (escapeText s).toList = collapse (escapeMarks s.toList) ∧
      hasMarkByte s = s.toList.any isMark ∧
      (∀ c ∈ (escapeText s).toList, isBlank c = true → c = ' ') ∧
      ¬ [' ', ' '] <:+: (escapeText s).toList ∧
      ∀ before c after, (escapeText s).toList = before ++ c :: after → c = '*' ∨ c = '$' →
        Odd (slashes before) := by
  have hlast : (escapeText s).toList = escapeMarks (collapse s.toList) := by
    rw [toList_escapeText, escapeTextChars, collapse_escapeMarks]
  have hspace : isBlank ' ' = true := rfl
  refine ⟨collapse s.toList, collapsed_iff.mpr rfl, ?_, hlast, toList_escapeText s,
    hasMarkByte_eq s, ?_, ?_, ?_⟩
  · rw [hlast, unescapeMarks_escapeMarks]
  · rw [toList_escapeText]
    exact collapse_forall_eq_space (escapeMarks s.toList)
  · rw [toList_escapeText]
    exact (collapsed_collapse (escapeMarks s.toList)).not_blanks hspace hspace
  · intro before c after hout hc
    refine odd_slashes_of_escapeMarks (hlast ▸ hout) ?_ ?_
    · rcases hc with rfl | rfl <;> rfl
    · rcases hc with rfl | rfl <;> decide

/-- Backslashes before a star, and blanks of several kinds. -/
example : escapeText "a\\* \t\u00A0$b" = "a\\\\\\* \\$b" := by
  decide +kernel

end TreeNotation.Text
