import TreeNotation.Proofs.XPath.Matching

/-!
# The Ten Shapes

The ten shapes of predicate on an attribute are regular, and no literal stands in two of them.

- **Regularity**: `regular_of_mem_shapes`, from the words that the shapes consist of;
- **Exclusion**: the trace of no shape ends with that of another one (`Apart`), so
  `pairwise_excludes`, and shapes on attributes with different names exclude each other as well.
-/

namespace TreeNotation.XPath

open Text (isBlank fold)

/-! ## Section 1: Words and what spells them -/

/-- A character that an attribute name may hold: an ASCII letter or digit, or one of four marks. -/
def isNameChar (c : Char) : Bool := c.isAlphanum || "-_.:".toList.contains c

theorem isNameChar_cases {c : Char} (h : isNameChar c = true) : isQuote c = false ∧ c ≠ ')' := by
  constructor
  · rw [Bool.eq_false_iff]
    intro hquote
    simp only [isQuote, Bool.or_eq_true, beq_iff_eq] at hquote
    rcases hquote with rfl | rfl <;> revert h <;> decide
  · rintro rfl
    revert h
    decide

theorem mem_of_spells {pieces : List Piece} {cs : List Char} (h : spells pieces cs = true) :
    ∀ c ∈ cs, isBlank c = true ∨
      ∃ text, Piece.word text ∈ pieces ∧ ∃ w ∈ text, Text.sameFold w c = true := by
  -- The induction is on the parts: a character belongs to the first one or to the others.
  induction pieces generalizing cs with
  | nil => rw [spells_nil_iff.mp h]; simp
  | cons piece pieces ih =>
    intro c hc
    cases piece with
    | word text =>
      obtain ⟨first, rest, rfl, hword, hrest⟩ := spells_word_iff.mp h
      rcases List.mem_append.mp hc with hc | hc
      · have hmem : fold c ∈ text.map fold := hword ▸ List.mem_map_of_mem hc
        obtain ⟨w, hw, hfold⟩ := List.mem_map.mp hmem
        exact Or.inr ⟨text, List.mem_cons_self, w, hw, beq_iff_eq.mpr hfold⟩
      · rcases ih hrest c hc with hblank | ⟨text', htext', hw⟩
        · exact Or.inl hblank
        · exact Or.inr ⟨text', List.mem_cons_of_mem _ htext', hw⟩
    | blanks =>
      obtain ⟨first, rest, rfl, hblank, hrest⟩ := spells_blanks_iff.mp h
      rcases List.mem_append.mp hc with hc | hc
      · exact Or.inl (hblank c hc)
      · rcases ih hrest c hc with hblank' | ⟨text', htext', hw⟩
        · exact Or.inl hblank'
        · exact Or.inr ⟨text', List.mem_cons_of_mem _ htext', hw⟩

/-- A mark that is in no word is in no text that spells the words. -/
theorem not_mem_of_spells {pieces : List Piece} {cs : List Char} (h : spells pieces cs = true)
    {mark : Char} (hblank : isBlank mark = false)
    (hmark : mark.toNat < 0x41 ∨ (0x5A < mark.toNat ∧ mark.toNat < 0x61) ∨
      (0x7A < mark.toNat ∧ mark.toNat < 0x80))
    (hwords : ∀ text, Piece.word text ∈ pieces → mark ∉ text) : mark ∉ cs := by
  intro hmem
  rcases mem_of_spells h mark hmem with hspace | ⟨text, htext, w, hw, hsame⟩
  · rw [hblank] at hspace
    cases hspace
  · rw [Text.eq_of_sameFold hmark (Text.sameFold_symm hsame)] at hw
    exact hwords text htext hw

theorem exists_of_spells {pieces : List Piece} {cs : List Char} (h : spells pieces cs = true)
    {w : Char} {text : List Char} (hw : Piece.word (w :: text) ∈ pieces) :
    ∃ c ∈ cs, Text.sameFold w c = true := by
  obtain ⟨ps, qs, rfl⟩ := List.append_of_mem hw
  obtain ⟨u, v, rfl, -, hv⟩ := spells_append_iff.mp h
  obtain ⟨first, rest, rfl, hword, -⟩ := spells_word_iff.mp hv
  cases first with
  | nil => simp at hword
  | cons c first =>
    exact ⟨c, by simp, beq_iff_eq.mpr (List.cons.inj hword).1.symm⟩

/-! ## Section 2: Regularity -/

/-- Only blanks and a parenthesis come after a literal. -/
theorem closing_char_of_cases {closing : List Piece}
    (hclosing : closing = [] ∨ closing = [.blanks, .word [')']]) {v : List Char}
    (hv : spells closing v = true) : ∀ c ∈ v, isBlank c = true ∨ c = ')' := by
  intro c hc
  rcases mem_of_spells hv c hc with hblank | ⟨text, htext, w, hw, hsame⟩
  · exact Or.inl hblank
  · rcases hclosing with rfl | rfl
    · cases htext
    · simp only [List.mem_cons, reduceCtorEq, Piece.word.injEq, List.not_mem_nil, or_false,
        false_or] at htext
      subst htext
      rw [List.mem_singleton.mp hw] at hsame
      exact Or.inr (Text.eq_of_sameFold (by decide) hsame)

/-- A shape is regular if its words are: no quotes, an at sign before the literal, firm characters
after blanks and at the start, and at most a parenthesis after the literal. -/
theorem regular_of_words {opening closing : List Piece}
    (hsep : ∀ rest, Firm rest → Separated rest opening)
    (hfirst : ∃ w text pieces, opening = .word (w :: text) :: pieces ∧ isBlank w = false ∧ w ≠ ')')
    (hplain : ∀ text, Piece.word text ∈ opening → ∀ c ∈ text, isQuote c = false)
    (hat : ∃ text, Piece.word ('@' :: text) ∈ opening)
    (hclosing : closing = [] ∨ closing = [.blanks, .word [')']]) :
    (Shape.mk opening closing).Regular where
  take_opening u rest hu hrest := takePieces?_of_spells (hsep rest hrest) hu
  take_closing v rest hv := by
    refine takePieces?_of_spells ?_ hv
    rcases hclosing with rfl | rfl
    · trivial
    · exact ⟨rfl, trivial⟩
  not_isQuote u hu c hc := by
    rw [Bool.eq_false_iff]
    intro hquote
    rcases mem_of_spells hu c hc with hblank | ⟨text, htext, w, hw, hsame⟩
    · rw [isBlank_of_isQuote hquote] at hblank
      cases hblank
    · -- A quote agrees with itself only.
      have hmark : c.toNat < 0x41 := by
        simp only [isQuote, Bool.or_eq_true, beq_iff_eq] at hquote
        rcases hquote with rfl | rfl <;> decide
      have heq := Text.eq_of_sameFold (.inl hmark) (Text.sameFold_symm hsame)
      rw [← heq, hplain text htext w hw] at hquote
      cases hquote
  at_mem u hu := by
    obtain ⟨text, htext⟩ := hat
    obtain ⟨c, hc, hsame⟩ := exists_of_spells hu htext
    rwa [Text.eq_of_sameFold (by decide) hsame] at hc
  head c u hu := by
    obtain ⟨w, text, pieces, rfl, hblank, hne⟩ := hfirst
    obtain ⟨first, rest, hcs, hword, -⟩ := spells_word_iff.mp hu
    cases first with
    | nil => simp at hword
    | cons d first =>
      obtain ⟨rfl, -⟩ := List.cons.inj hcs
      have hsame : Text.sameFold w c = true := beq_iff_eq.mpr (List.cons.inj hword).1.symm
      refine ⟨(Text.isBlank_eq_of_sameFold hsame).symm.trans hblank, ?_⟩
      rintro rfl
      exact hne (Text.eq_of_sameFold (by decide) (Text.sameFold_symm hsame))
  closing_char _ hv := closing_char_of_cases hclosing hv

theorem mem_shapes_iff {name : String} {shape : Shape} :
    shape ∈ (AttributeMatcher.ofAttribute name).shapes ↔
      ∃ subject ∈ [plainSubject name.toList, normalizedSubject name.toList],
        shape = equality subject ∨
          ∃ function ∈ functions, shape = application function subject := by
  simp only [AttributeMatcher.ofAttribute, List.mem_append, List.mem_cons, List.not_mem_nil,
    or_false, List.mem_flatMap, exists_eq_or_imp, exists_eq_left]
  -- The four kinds of shape, two subjects with an equality or a function.
  constructor
  · rintro ((rfl | rfl) | ⟨function, hfunction, rfl | rfl⟩)
    · exact Or.inl (Or.inl rfl)
    · exact Or.inr (Or.inl rfl)
    · exact Or.inl (Or.inr ⟨function, hfunction, rfl⟩)
    · exact Or.inr (Or.inr ⟨function, hfunction, rfl⟩)
  · rintro ((rfl | ⟨function, hfunction, rfl⟩) | (rfl | ⟨function, hfunction, rfl⟩))
    · exact Or.inl (Or.inl rfl)
    · exact Or.inr ⟨function, hfunction, Or.inl rfl⟩
    · exact Or.inl (Or.inr rfl)
    · exact Or.inr ⟨function, hfunction, Or.inr rfl⟩

theorem closing_cases_of_mem_shapes {name : String} {shape : Shape}
    (h : shape ∈ (AttributeMatcher.ofAttribute name).shapes) :
    shape.closing = [] ∨ shape.closing = [.blanks, .word [')']] := by
  obtain ⟨subject, -, rfl | ⟨function, -, rfl⟩⟩ := mem_shapes_iff.mp h
  · exact Or.inl rfl
  · exact Or.inr rfl

/-- The characters of the words of the shapes, but for the name of the attribute. -/
def fixedChars : List Char :=
  "@=,()".toList ++ "normalize-space".toList ++ functions.flatMap String.toList

/-- What is true of the characters of the name and of all that is the same for every name, is true of
the words of the shapes. -/
theorem forall_mem_of_word {P : Char → Prop} {name : String} (hfixed : ∀ c ∈ fixedChars, P c)
    (hname : ∀ c ∈ name.toList, P c) {shape : Shape}
    (hshape : shape ∈ (AttributeMatcher.ofAttribute name).shapes) {text : List Char}
    (htext : Piece.word text ∈ shape.opening ++ shape.closing) : ∀ c ∈ text, P c := by
  have hword : ∀ {text : List Char}, text ⊆ fixedChars → ∀ c ∈ text, P c :=
    fun hsub c hc => hfixed c (hsub hc)
  have hfunctions : ∀ function ∈ functions, function.toList ++ ['('] ⊆ fixedChars := by decide
  have hnamed : ∀ c ∈ '@' :: name.toList, P c :=
    List.forall_mem_cons.mpr ⟨hfixed '@' (by decide), hname⟩
  have hsubjects : ∀ subject ∈ [plainSubject name.toList, normalizedSubject name.toList],
      Piece.word text ∈ subject → ∀ c ∈ text, P c := by
    simp only [List.mem_cons, List.not_mem_nil, or_false, plainSubject, normalizedSubject,
      forall_eq_or_imp, forall_eq, Piece.word.injEq, reduceCtorEq, false_or]
    refine ⟨?_, ?_⟩
    · rintro rfl
      exact hnamed
    · rintro (rfl | rfl | rfl)
      · exact hword (by decide)
      · exact hnamed
      · exact hword (by decide)
  obtain ⟨subject, hsubject, rfl | ⟨function, hfunction, rfl⟩⟩ := mem_shapes_iff.mp hshape
  · simp only [equality, List.append_nil, List.mem_append, List.mem_cons, List.not_mem_nil,
      Piece.word.injEq, reduceCtorEq, or_false, false_or] at htext
    rcases htext with htext | rfl
    · exact hsubjects subject hsubject htext
    · exact hword (by decide)
  · simp only [application, List.mem_append, List.mem_cons, List.not_mem_nil,
      Piece.word.injEq, reduceCtorEq, or_false, false_or] at htext
    rcases htext with ((rfl | htext) | rfl) | rfl
    · exact hword (hfunctions function hfunction)
    · exact hsubjects subject hsubject htext
    · exact hword (by decide)
    · exact hword (by decide)

theorem plain_of_all {cs : List Char} (h : (cs.all fun c => !isQuote c) = true) :
    ∀ c ∈ cs, isQuote c = false := by
  intro c hc
  simpa using List.all_eq_true.mp h c hc

theorem function_cases {function : String} (h : function ∈ functions) :
    (∃ w text, function.toList = w :: text ∧ isBlank w = false ∧ w ≠ ')') ∧
      ∀ c ∈ function.toList, isQuote c = false := by
  simp only [functions, List.mem_cons, List.not_mem_nil, or_false] at h
  rcases h with rfl | rfl | rfl | rfl
  · exact ⟨⟨'c', "ontains".toList, rfl, rfl, by decide⟩, plain_of_all rfl⟩
  · exact ⟨⟨'s', "tarts-with".toList, rfl, rfl, by decide⟩, plain_of_all rfl⟩
  · exact ⟨⟨'e', "nds-with".toList, rfl, rfl, by decide⟩, plain_of_all rfl⟩
  · exact ⟨⟨'m', "atches".toList, rfl, rfl, by decide⟩, plain_of_all rfl⟩

/-- What the two subjects have in common. -/
structure RegularSubject (subject : List Piece) : Prop where
  first : ∃ w text pieces, subject = .word (w :: text) :: pieces ∧ isBlank w = false ∧ w ≠ ')'
  separated : ∀ rest pieces, Separated rest pieces → Separated rest (subject ++ pieces)
  plain : ∀ text, Piece.word text ∈ subject → ∀ c ∈ text, isQuote c = false
  at_mem : ∃ text, Piece.word ('@' :: text) ∈ subject

theorem regularSubject {name : List Char} (hname : ∀ c ∈ name, isQuote c = false)
    {subject : List Piece} (h : subject ∈ [plainSubject name, normalizedSubject name]) :
    RegularSubject subject := by
  have hnamed : ∀ c ∈ '@' :: name, isQuote c = false := by
    intro c hc
    rcases List.mem_cons.mp hc with rfl | hc
    · rfl
    · exact hname c hc
  simp only [List.mem_cons, List.not_mem_nil, or_false] at h
  -- The attribute itself, then its normalized form.
  rcases h with rfl | rfl
  · refine ⟨⟨'@', name, [], rfl, rfl, by decide⟩, fun _ _ h => h, ?_, name, List.mem_cons_self⟩
    intro text htext
    cases List.mem_singleton.mp htext
    exact hnamed
  · refine ⟨⟨'n', "ormalize-space(".toList, _, rfl, rfl, by decide⟩, fun _ _ h => ?_, ?_, name, ?_⟩
    · exact ⟨rfl, rfl, h⟩
    · intro text htext
      simp only [normalizedSubject, List.mem_cons, Piece.word.injEq, reduceCtorEq, List.not_mem_nil,
        or_false, false_or] at htext
      rcases htext with rfl | rfl | rfl
      · exact plain_of_all rfl
      · exact hnamed
      · exact plain_of_all rfl
    · simp [normalizedSubject]

theorem regular_equality {subject : List Piece} (h : RegularSubject subject) :
    (equality subject).Regular := by
  -- Nothing comes after the literal of an equality.
  refine regular_of_words ?_ ?_ ?_ ?_ (Or.inl rfl)
  · exact fun rest hrest => h.separated rest _ ⟨rfl, hrest, trivial⟩
  · obtain ⟨w, text, pieces, rfl, hw⟩ := h.first
    exact ⟨w, text, _, rfl, hw⟩
  · intro text htext
    rcases List.mem_append.mp htext with htext | htext
    · exact h.plain text htext
    · simp only [List.mem_cons, reduceCtorEq, Piece.word.injEq, List.not_mem_nil, or_false,
        false_or] at htext
      subst htext
      exact plain_of_all rfl
  · obtain ⟨text, htext⟩ := h.at_mem
    exact ⟨text, List.mem_append.mpr (Or.inl htext)⟩

theorem regular_application {function : String} (hfunction : function ∈ functions)
    {subject : List Piece} (h : RegularSubject subject) :
    (application function subject).Regular := by
  obtain ⟨⟨w, rest, hw, hfirm⟩, hplain⟩ := function_cases hfunction
  -- A parenthesis comes after the literal of a function.
  refine regular_of_words ?_ ?_ ?_ ?_ (Or.inr rfl)
  · intro rest hrest
    have htail := h.separated rest [.blanks, .word [','], .blanks] ⟨rfl, hrest, trivial⟩
    obtain ⟨v, text, pieces, rfl, hblank, -⟩ := h.first
    exact ⟨hblank, htail⟩
  · exact ⟨w, rest ++ ['('], _, by rw [hw]; rfl, hfirm⟩
  · intro text htext
    simp only [List.cons_append, List.mem_cons, reduceCtorEq, Piece.word.injEq, List.mem_append,
      List.not_mem_nil, or_false, false_or] at htext
    rcases htext with rfl | htext | rfl
    · intro c hc
      rcases List.mem_append.mp hc with hc | hc
      · exact hplain c hc
      · rw [List.mem_singleton.mp hc]; rfl
    · exact h.plain text htext
    · exact plain_of_all rfl
  · obtain ⟨text, htext⟩ := h.at_mem
    exact ⟨text, by simp [htext]⟩

/-- The shapes are regular unless the name of the attribute holds a quote. -/
theorem regular_of_unquoted {name : String} (hname : ∀ c ∈ name.toList, isQuote c = false)
    {shape : Shape} (h : shape ∈ (AttributeMatcher.ofAttribute name).shapes) : shape.Regular := by
  obtain ⟨subject, hsubject, rfl | ⟨function, hfunction, rfl⟩⟩ := mem_shapes_iff.mp h
  · exact regular_equality (regularSubject hname hsubject)
  · exact regular_application hfunction (regularSubject hname hsubject)

theorem regular_of_mem_shapes {name : String} (hname : ∀ c ∈ name.toList, isNameChar c = true)
    {shape : Shape} (h : shape ∈ (AttributeMatcher.ofAttribute name).shapes) : shape.Regular :=
  regular_of_unquoted (fun c hc => (isNameChar_cases (hname c hc)).1) h

/-! ## Section 3: Texts apart -/

/-- Neither text ends with the other one. -/
def Apart (u v : List Char) : Prop := ¬ u <:+ v ∧ ¬ v <:+ u

instance (u v : List Char) : Decidable (Apart u v) :=
  inferInstanceAs (Decidable (¬ u <:+ v ∧ ¬ v <:+ u))

namespace Apart

variable {u v : List Char}

theorem symm (h : Apart u v) : Apart v u := And.symm h

theorem append (h : Apart u v) (common : List Char) : Apart (u ++ common) (v ++ common) := by
  rw [Apart, List.suffix_append_self_iff, List.suffix_append_self_iff]
  exact h

/-- What stands before two texts does not matter if they are apart. -/
theorem prepend (h : Apart u v) (x y : List Char) : Apart (x ++ u) (y ++ v) := by
  have hu : u <:+ x ++ u := List.suffix_append x u
  have hv : v <:+ y ++ v := List.suffix_append y v
  -- If one text ended with the other one, both would be ends of it.
  constructor
  · intro hsuffix
    rcases List.suffix_or_suffix_of_suffix (hu.trans hsuffix) hv with huv | hvu
    · exact h.1 huv
    · exact h.2 hvu
  · intro hsuffix
    rcases List.suffix_or_suffix_of_suffix hu (hv.trans hsuffix) with huv | hvu
    · exact h.1 huv
    · exact h.2 hvu

end Apart

theorem apart_of_ne {c d : Char} (h : c ≠ d) (x y : List Char) : Apart (x ++ [c]) (y ++ [d]) := by
  refine Apart.prepend ?_ x y
  simp [Apart, List.suffix_cons_iff, h, h.symm]

/-! ## Section 4: Exclusion -/

/-- No literal stands in both shapes. -/
def Shape.Excludes (shape other : Shape) : Prop :=
  ∀ before after, ¬ (shape.frames before after = true ∧ other.frames before after = true)

theorem Shape.Excludes.symm {shape other : Shape} (h : shape.Excludes other) :
    other.Excludes shape :=
  fun before after hboth => h before after ⟨hboth.2, hboth.1⟩

theorem excludes_of_apart {shape other : Shape} (h : Apart shape.trace other.trace) :
    shape.Excludes other := by
  intro before after hboth
  rcases suffix_or_suffix_of_frames hboth.1 hboth.2 with hsuffix | hsuffix
  · exact h.1 hsuffix
  · exact h.2 hsuffix

theorem trace_equality (subject : List Piece) :
    (equality subject).trace = subject.flatMap Piece.trace ++ ['='] := by
  have hmark : trace ['='] = ['='] := rfl
  simp [Shape.trace, equality, Piece.trace, hmark]

theorem trace_application (function : String) (subject : List Piece) :
    (application function subject).trace =
      trace (function.toList ++ ['(']) ++ subject.flatMap Piece.trace ++ [','] := by
  have hmark : trace [','] = [','] := rfl
  simp [Shape.trace, application, Piece.trace, hmark]

theorem trace_plain (name : List Char) :
    (plainSubject name).flatMap Piece.trace = trace ('@' :: name) := by
  simp [plainSubject, Piece.trace]

theorem trace_normalized (name : List Char) :
    (normalizedSubject name).flatMap Piece.trace =
      trace "normalize-space(".toList ++ trace ('@' :: name) ++ [')'] := by
  have hmark : trace [')'] = [')'] := rfl
  simp [normalizedSubject, Piece.trace, hmark]

/-- The name of an attribute ends with a character of its own. -/
theorem exists_trace_eq_concat {name : List Char} (hname : ')' ∉ name) :
    ∃ first last, trace ('@' :: name) = first ++ [last] ∧ last ≠ ')' := by
  have hne : trace ('@' :: name) ≠ [] := List.cons_ne_nil _ _
  refine ⟨_, _, (List.dropLast_append_getLast hne).symm, ?_⟩
  -- Only a parenthesis is folded to a parenthesis.
  obtain ⟨c, hc, hfold⟩ := List.mem_map.mp (List.getLast_mem hne)
  have hmem := (List.mem_filter.mp hc).1
  intro hmark
  rw [hmark] at hfold
  have hsame : Text.sameFold ')' c = true := beq_iff_eq.mpr hfold.symm
  obtain rfl := Text.eq_of_sameFold (by decide) hsame
  simp [hname] at hmem

/-- An attribute is apart from the normalized form of any. -/
theorem apart_normalized {name : List Char} (hname : ')' ∉ name) (other x y : List Char) :
    Apart (x ++ (plainSubject name).flatMap Piece.trace)
      (y ++ (normalizedSubject other).flatMap Piece.trace) := by
  obtain ⟨first, last, htrace, hlast⟩ := exists_trace_eq_concat hname
  rw [trace_plain, trace_normalized, htrace, ← List.append_assoc, ← List.append_assoc]
  exact apart_of_ne hlast _ _

theorem equality_excludes_application (function : String) (subject subject' : List Piece) :
    (equality subject).Excludes (application function subject') := by
  apply excludes_of_apart
  rw [trace_equality, trace_application]
  exact apart_of_ne (by decide) _ _

theorem equality_excludes {subject subject' : List Piece}
    (h : Apart (subject.flatMap Piece.trace) (subject'.flatMap Piece.trace)) :
    (equality subject).Excludes (equality subject') := by
  apply excludes_of_apart
  rw [trace_equality, trace_equality]
  exact h.append _

theorem application_excludes (function other : String) {subject subject' : List Piece}
    (h : Apart (subject.flatMap Piece.trace) (subject'.flatMap Piece.trace)) :
    (application function subject).Excludes (application other subject') := by
  apply excludes_of_apart
  rw [trace_application, trace_application]
  exact (h.prepend _ _).append _

theorem application_excludes_of_apart {function other : String}
    (h : Apart (trace (function.toList ++ ['('])) (trace (other.toList ++ ['('])))
    (subject : List Piece) :
    (application function subject).Excludes (application other subject) := by
  apply excludes_of_apart
  rw [trace_application, trace_application, List.append_assoc, List.append_assoc]
  exact h.append _

theorem apart_functions : functions.Pairwise fun function other =>
    Apart (trace (function.toList ++ ['('])) (trace (other.toList ++ ['('])) := by
  decide

/-- No literal stands in two of the ten shapes. -/
theorem pairwise_excludes_of_not_mem {name : String} (hname : ')' ∉ name.toList) :
    (AttributeMatcher.ofAttribute name).shapes.Pairwise Shape.Excludes := by
  have hapart := apart_normalized hname name.toList [] []
  rw [List.nil_append, List.nil_append] at hapart
  refine List.pairwise_append.mpr ⟨?_, List.pairwise_flatMap.mpr ⟨?_, ?_⟩, ?_⟩
  · -- Two equalities.
    exact List.pairwise_pair.mpr (equality_excludes hapart)
  · -- Two shapes with the same function.
    intro function _
    exact List.pairwise_pair.mpr (application_excludes function function hapart)
  · -- Two shapes with different functions.
    refine apart_functions.imp fun {function other} hfunctions => ?_
    simp only [List.mem_cons, List.not_mem_nil, or_false]
    rintro shape (rfl | rfl) shape' (rfl | rfl)
    · exact application_excludes_of_apart hfunctions _
    · exact application_excludes function other hapart
    · exact application_excludes function other hapart.symm
    · exact application_excludes_of_apart hfunctions _
  · -- An equality and a function.
    simp only [List.mem_cons, List.not_mem_nil, or_false, List.mem_flatMap]
    rintro shape (rfl | rfl) shape' ⟨function, -, rfl | rfl⟩ <;>
      exact equality_excludes_application function _ _

theorem pairwise_excludes {name : String} (hname : ∀ c ∈ name.toList, isNameChar c = true) :
    (AttributeMatcher.ofAttribute name).shapes.Pairwise Shape.Excludes :=
  pairwise_excludes_of_not_mem fun hmem => (isNameChar_cases (hname ')' hmem)).2 rfl

/-- No literal stands in shapes on two attributes with names that are apart. -/
theorem excludes_of_apart_names {name other : String} (hname : ')' ∉ name.toList)
    (hother : ')' ∉ other.toList)
    (h : Apart (trace ('@' :: name.toList)) (trace ('@' :: other.toList))) {shape shape' : Shape}
    (hshape : shape ∈ (AttributeMatcher.ofAttribute name).shapes)
    (hshape' : shape' ∈ (AttributeMatcher.ofAttribute other).shapes) : shape.Excludes shape' := by
  have hsubjects : ∀ subject ∈ [plainSubject name.toList, normalizedSubject name.toList],
      ∀ subject' ∈ [plainSubject other.toList, normalizedSubject other.toList],
        Apart (subject.flatMap Piece.trace) (subject'.flatMap Piece.trace) := by
    simp only [List.mem_cons, List.not_mem_nil, or_false]
    rintro subject (rfl | rfl) subject' (rfl | rfl)
    · rw [trace_plain, trace_plain]
      exact h
    · exact apart_normalized hname other.toList [] []
    · exact (apart_normalized hother name.toList [] []).symm
    · rw [trace_normalized, trace_normalized]
      exact (h.prepend _ _).append _
  obtain ⟨subject, hsubject, hform⟩ := mem_shapes_iff.mp hshape
  obtain ⟨subject', hsubject', hform'⟩ := mem_shapes_iff.mp hshape'
  have hapart := hsubjects subject hsubject subject' hsubject'
  rcases hform with rfl | ⟨function, -, rfl⟩ <;> rcases hform' with rfl | ⟨function', -, rfl⟩
  · exact equality_excludes hapart
  · exact equality_excludes_application function' _ _
  · exact (equality_excludes_application function _ _).symm
  · exact application_excludes function function' hapart

end TreeNotation.XPath
