import TreeNotation.Proofs.Writing.Attribute

/-!
# Reading Bracketed Lists

The attributes in brackets are found by their spaces and quotes: a space outside of quotes stands
between two of them, and the first equals sign of each stands between its name and its value.

- **Items**: `items` takes a text apart at its spaces outside of quotes, and `items_append` says
  that it leaves together what `isItem` accepts;
- **Attributes**: `readAttribute_attributeText`, for one name and its value;
- **Lists**: `readAttributeList_attributeList`, and `attributeList_decodable` for two lists.
-/

namespace TreeNotation.Writing

/-! ## Section 1: Items -/

/-- The stretches between the spaces outside of quotes; `quoted` says that a quote is open. -/
def items : Bool → List Char → List (List Char)
  | _, [] => [[]]
  | quoted, c :: cs =>
    if c = ' ' ∧ quoted = false then [] :: items false cs
    else (items (quoted != (c == '"')) cs).modifyHead (c :: ·)

/-- Whether a text has no space outside of quotes and leaves no quote open. -/
def isItem : Bool → List Char → Bool
  | quoted, [] => !quoted
  | quoted, c :: cs => (quoted || c != ' ') && isItem (quoted != (c == '"')) cs

/-- The stretch that a text is in goes on behind it. -/
theorem items_append {quoted : Bool} {us : List Char} (h : isItem quoted us = true)
    (cs : List Char) : items quoted (us ++ cs) = (items false cs).modifyHead (us ++ ·) := by
  induction us generalizing quoted with
  | nil =>
    rw [isItem, Bool.not_eq_true'] at h
    rw [h, List.nil_append]
    cases items false cs <;> rfl
  | cons c us ih =>
    rw [isItem, Bool.and_eq_true] at h
    obtain ⟨hinside, hrest⟩ := h
    have hstay : ¬ (c = ' ' ∧ quoted = false) := by
      rintro ⟨rfl, rfl⟩
      cases hinside
    rw [List.cons_append, items, if_neg hstay, ih hrest, List.modifyHead_modifyHead]
    rfl

theorem isItem_append_of_plain {us : List Char} (h : ∀ c ∈ us, c ≠ ' ' ∧ c ≠ '"')
    (cs : List Char) : isItem false (us ++ cs) = isItem false cs := by
  induction us with
  | nil => rfl
  | cons c us ih =>
    obtain ⟨hspace, hquote⟩ := h c List.mem_cons_self
    rw [List.cons_append, isItem, bne_iff_ne.mpr hspace, beq_false_of_ne hquote]
    exact ih fun d hd => h d (List.mem_cons_of_mem c hd)

theorem isItem_append_of_quoted {us : List Char} (h : '"' ∉ us) (cs : List Char) :
    isItem true (us ++ '"' :: cs) = isItem false cs := by
  induction us with
  | nil => rfl
  | cons c us ih =>
    have hquote : c ≠ '"' := fun heq => h (heq ▸ List.mem_cons_self)
    rw [List.cons_append, isItem, beq_false_of_ne hquote]
    exact ih fun hmem => h (List.mem_cons_of_mem c hmem)

/-- Items with a space before each of them, behind whatever comes first. -/
theorem items_flatMap {α : Type} {text : α → List Char} {as : List α}
    (h : ∀ a ∈ as, isItem false (text a) = true) :
    items false (as.flatMap fun a => ' ' :: text a) = [] :: as.map text := by
  induction as with
  | nil => rfl
  | cons a as ih =>
    have hlater := ih fun b hb => h b (List.mem_cons_of_mem a hb)
    rw [List.flatMap_cons, List.cons_append, items, if_pos ⟨rfl, rfl⟩,
      items_append (h a List.mem_cons_self), hlater, List.modifyHead_cons, List.append_nil,
      List.map_cons]

/-! ## Section 2: Attributes -/

/-- A name without the characters that end it or open a value, and a value without quotes. -/
structure Listable (a : String × String) : Prop where
  name_plain : ∀ c ∈ a.1.toList, c ≠ ' ' ∧ c ≠ '=' ∧ c ≠ '"'
  value_plain : '"' ∉ a.2.toList

/-- The value that stands behind a name. -/
def readValue : List Char → List Char
  | '=' :: '"' :: cs => cs.dropLast
  | '=' :: cs => cs
  | _ => []

/-- The name and the value of an item. -/
def readAttribute (item : List Char) : String × String :=
  (String.ofList (item.takeWhile (· != '=')),
    String.ofList (readValue (item.dropWhile (· != '='))))

theorem isItem_valueChars {value : String} (h : '"' ∉ value.toList) :
    isItem false (valueChars value) = true := by
  rcases valueChars_cases value with hquoted | ⟨-, hnone⟩ | ⟨hspace, -, hplain⟩
  · rw [hquoted]
    exact isItem_append_of_quoted h []
  · rw [hnone]
    rfl
  · have hchars : ∀ c ∈ value.toList, c ≠ ' ' ∧ c ≠ '"' := by
      intro c hc
      exact ⟨fun heq => hspace (heq ▸ hc), fun heq => h (heq ▸ hc)⟩
    rw [hplain, ← List.append_nil value.toList]
    exact isItem_append_of_plain hchars []

theorem readValue_valueChars {value : String} (h : '"' ∉ value.toList) :
    readValue (valueChars value) = value.toList := by
  rcases valueChars_cases value with hquoted | ⟨hempty, hnone⟩ | ⟨-, -, hplain⟩
  · rw [hquoted, readValue, List.dropLast_concat]
  · rw [hnone, hempty]
    rfl
  · rw [hplain]
    -- A value without quotes does not begin like one in quotes.
    unfold readValue
    split
    next cs heq =>
      rw [(List.cons.inj heq).2] at h
      exact absurd List.mem_cons_self h
    next heq => exact (List.cons.inj heq).2.symm
    next hother => exact absurd rfl (hother _)

/-- Behind a name there is nothing, or an equals sign. -/
theorem takeWhile_valueChars (value : String) :
    (valueChars value).takeWhile (· != '=') = [] ∧
      (valueChars value).dropWhile (· != '=') = valueChars value := by
  rcases valueChars_cases value with hquoted | ⟨-, hnone⟩ | ⟨-, -, hplain⟩
  · rw [hquoted]
    exact ⟨rfl, rfl⟩
  · rw [hnone]
    exact ⟨rfl, rfl⟩
  · rw [hplain]
    exact ⟨rfl, rfl⟩

section Attribute

variable {a : String × String}

theorem isItem_attributeText (h : Listable a) :
    isItem false (attributeText a.1 a.2).toList = true := by
  have hname : ∀ c ∈ a.1.toList, c ≠ ' ' ∧ c ≠ '"' := fun c hc =>
    ⟨(h.name_plain c hc).1, (h.name_plain c hc).2.2⟩
  rw [toList_attributeText, isItem_append_of_plain hname]
  exact isItem_valueChars h.value_plain

/-- An attribute can be read off its item. -/
theorem readAttribute_attributeText (h : Listable a) :
    readAttribute (attributeText a.1 a.2).toList = a := by
  have hname : ∀ c ∈ a.1.toList, (c != '=') = true := fun c hc =>
    bne_iff_ne.mpr (h.name_plain c hc).2.1
  obtain ⟨htake, hdrop⟩ := takeWhile_valueChars a.2
  rw [readAttribute, toList_attributeText, List.takeWhile_append_of_pos hname,
    List.dropWhile_append_of_pos hname, htake, hdrop, readValue_valueChars h.value_plain,
    List.append_nil, String.ofList_toList, String.ofList_toList]

end Attribute

/-! ## Section 3: Lists -/

/-- The attributes of a list in brackets. -/
def readAttributeList (text : String) : List (String × String) :=
  match text.toList with
  | '[' :: cs => (items false cs.dropLast).map readAttribute
  | _ => []

/-- Attributes in brackets are read back as they were. -/
theorem readAttributeList_attributeList {as : List (String × String)}
    (has : ∀ a ∈ as, Listable a) : readAttributeList (attributeList as) = as := by
  by_cases hempty : as = []
  · rw [hempty]
    rfl
  · obtain ⟨inner, hlist, hrow⟩ := toList_attributeList hempty
    have hitems : items false inner = as.map fun a => (attributeText a.1 a.2).toList := by
      -- One more space before the first item is one more stretch before it.
      have hsplit := items_flatMap fun a ha => isItem_attributeText (has a ha)
      rw [← hrow, items, if_pos ⟨rfl, rfl⟩] at hsplit
      exact (List.cons.inj hsplit).2
    unfold readAttributeList
    rw [hlist]
    show (items false (inner ++ [']']).dropLast).map readAttribute = as
    rw [List.dropLast_concat, hitems, List.map_map, List.map_congr_left (g := id), List.map_id]
    exact fun a ha => readAttribute_attributeText (has a ha)

theorem attributeList_injective {as bs : List (String × String)} (has : ∀ a ∈ as, Listable a)
    (hbs : ∀ b ∈ bs, Listable b) (h : attributeList as = attributeList bs) : as = bs := by
  rw [← readAttributeList_attributeList has, h, readAttributeList_attributeList hbs]

/-- Lists in brackets can be told apart: the attributes are read off the text, so two lists of
attributes with the same text are the same. Names hold no space, equals sign or quote, and values
hold no quote; anything else may stand in them, and a value may be empty. -/
theorem attributeList_decodable {as bs : List (String × String)} (has : ∀ a ∈ as, Listable a)
    (hbs : ∀ b ∈ bs, Listable b) :
    readAttributeList (attributeList as) = as ∧ (attributeList as = attributeList bs ↔ as = bs) :=
  ⟨readAttributeList_attributeList has, attributeList_injective has hbs, fun h => h ▸ rfl⟩

/-- A value in quotes that looks like the end of the list and another attribute, and a list that has
this other attribute. -/
theorem value_like_attribute_decodable :
    let as := [("title", "a] b="), ("c", "")]
    let bs := [("title", "a]"), ("b", "c")]
    ((∀ a ∈ as, Listable a) ∧ ∀ b ∈ bs, Listable b) ∧
      attributeList as = "[title=\"a] b=\" c]" ∧ attributeList bs = "[title=a] b=c]" ∧
      readAttributeList (attributeList as) = as ∧ attributeList as ≠ attributeList bs := by
  intro as bs
  have has : ∀ a ∈ as, Listable a := by
    intro a ha
    simp only [as, List.mem_cons, List.not_mem_nil, or_false] at ha
    rcases ha with rfl | rfl <;> exact ⟨by simp, by simp⟩
  have hbs : ∀ b ∈ bs, Listable b := by
    intro b hb
    simp only [bs, List.mem_cons, List.not_mem_nil, or_false] at hb
    rcases hb with rfl | rfl <;> exact ⟨by simp, by simp⟩
  obtain ⟨hread, hsame⟩ := attributeList_decodable has hbs
  exact ⟨⟨has, hbs⟩, by decide, by decide, hread, fun h => absurd (hsame.mp h) (by decide)⟩

/-- With quotes in values, two lists may have one text. -/
example : attributeList [("a", "\"b"), ("c", "\"")] = attributeList [("a", "b c=")] := by
  decide

end TreeNotation.Writing
