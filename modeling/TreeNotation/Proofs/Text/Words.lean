import TreeNotation.Text.Blank
import TreeNotation.Token.Vocabulary

/-!
# Words

Texts that are one word, and the names of the vocabulary among them.
-/

namespace TreeNotation.Text

theorem fields_of_forall {p : Char → Bool} {cs : List Char} (h : ∀ c ∈ cs, p c = false) :
    fields p cs = [cs] := by
  induction cs with
  | nil => rfl
  | cons c cs ih =>
    have hc := h c List.mem_cons_self
    have hcs := ih fun d hd => h d (List.mem_cons_of_mem _ hd)
    rw [fields, hc, hcs]
    rfl

theorem mem_of_mem_fields {p : Char → Bool} {cs field : List Char} (h : field ∈ fields p cs) :
    ∀ c ∈ field, c ∈ cs := by
  induction cs generalizing field with
  | nil => simp_all [fields]
  | cons d cs ih =>
    intro c hc
    unfold fields at h
    split at h
    · rcases List.mem_cons.mp h with rfl | h
      · cases hc
      · exact List.mem_cons_of_mem d (ih h c hc)
    · split at h
      next => simp_all
      next first rest hfields =>
        rw [hfields] at ih
        rcases List.mem_cons.mp h with rfl | h
        · rcases List.mem_cons.mp hc with rfl | hc
          · exact List.mem_cons_self
          · exact List.mem_cons_of_mem d (ih List.mem_cons_self c hc)
        · exact List.mem_cons_of_mem d (ih (List.mem_cons_of_mem first h) c hc)

/-- The characters of a word are those of the text. -/
theorem mem_of_mem_words {s word : String} (h : word ∈ words s) :
    ∀ c ∈ word.toList, c ∈ s.toList := by
  obtain ⟨field, hfield, rfl⟩ := List.mem_map.mp h
  rw [String.toList_ofList]
  exact mem_of_mem_fields (List.mem_filter.mp hfield).1

/-- A text without blanks is one word, unless it is empty. -/
theorem words_eq_singleton {s : String} (hne : s.toList ≠ [])
    (h : ∀ c ∈ s.toList, isBlank c = false) : words s = [s] := by
  unfold words wordsChars
  rw [fields_of_forall h]
  simp [hne]

theorem isBlank_of_isAlpha {c : Char} (h : c.isAlpha = true) : isBlank c = false := by
  have hcode : (65 ≤ c.toNat ∧ c.toNat ≤ 90) ∨ (97 ≤ c.toNat ∧ c.toNat ≤ 122) := by
    rcases Bool.or_eq_true_iff.mp h with hupper | hlower
    · exact Or.inl (of_decide_eq_true hupper)
    · obtain ⟨hleast, hgreatest⟩ := Bool.and_eq_true_iff.mp hlower
      exact Or.inr ⟨of_decide_eq_true hleast, of_decide_eq_true hgreatest⟩
  simp only [isBlank, inRanges, blankRanges, List.any_cons, List.any_nil, Bool.or_false,
    Bool.or_eq_false_iff, Bool.and_eq_false_iff, decide_eq_false_iff_not]
  omega

/-- The names of the vocabulary consist of letters. -/
theorem vocabulary_isAlpha : (Token.vocabulary.all fun name =>
    !name.toList.isEmpty && name.toList.all Char.isAlpha) = true := by
  decide +kernel

section Vocabulary

variable {name : String} (h : name ∈ Token.vocabulary)

include h

theorem ne_nil_and_isAlpha_of_mem_vocabulary :
    name.toList ≠ [] ∧ ∀ c ∈ name.toList, c.isAlpha = true := by
  have hletters := List.all_eq_true.mp vocabulary_isAlpha name h
  rwa [Bool.and_eq_true, Bool.not_eq_true', List.isEmpty_eq_false_iff,
    List.all_eq_true] at hletters

theorem isBlank_of_mem_vocabulary : ∀ c ∈ name.toList, isBlank c = false :=
  fun c hc => isBlank_of_isAlpha ((ne_nil_and_isAlpha_of_mem_vocabulary h).2 c hc)

theorem words_of_mem_vocabulary : words name = [name] :=
  words_eq_singleton (ne_nil_and_isAlpha_of_mem_vocabulary h).1 (isBlank_of_mem_vocabulary h)

end Vocabulary

end TreeNotation.Text
