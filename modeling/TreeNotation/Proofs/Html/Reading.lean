import TreeNotation.Proofs.Html.Named
import TreeNotation.Proofs.Text.Escaping
import TreeNotation.Proofs.Text.Words
import TreeNotation.Proofs.Writing.Brackets
import TreeNotation.Proofs.Writing.Nest

/-!
# Reading HTML Nodes Back

What the notation shows of a node can be read off its text, if names and values do not hold the
signs of the notation.

- **Readings**: `Content.reading` is what the notation shows of a node, `Content.Plain` asks for
  plain names and values;
- **Characters**: `isElementChar_of_mem_plain`; the text of an element holds no sign that may follow
  it;
- **Elements**: `reading_eq_of_plain`, from the text of an element to its reading.
-/

namespace TreeNotation.Html

open Text (Ends append_inj_of_ends ends_cons)
open Writing

/-! ## Section 1: Readings -/

/-- What the notation shows of a node. -/
inductive Reading where
  /-- A text with each run of blanks as one space. -/
  | text (collapsed : List Char)
  /-- An element with its tag, its identifier unless that is empty, its class names, and its other
  attributes. -/
  | element (tag : String) (id : Option String) (classNames : List String)
      (others : List (String × String))

/-- What the notation shows of a node. -/
def Content.reading : Content → Reading
  | .text payload => .text (Text.collapse payload.toList)
  | .element tag attributes =>
    .element tag (nonempty? attributes "id") (classNames attributes) (listed attributes)

/-- The characters of attribute names: ASCII letters and digits, hyphens and underscores. -/
def isNameChar (c : Char) : Bool := c.isAlphanum || c == '-' || c == '_'

/-- A text has no braces; an element has a tag of ASCII letters and digits, and attributes with
plain names and values. -/
def Content.Plain : Content → Prop
  | .text payload => '\x7b' ∉ payload.toList ∧ '\x7d' ∉ payload.toList
  | .element tag attributes =>
    (tag ≠ "" ∧ ∀ c ∈ tag.toList, c.isAlphanum = true) ∧
      ∀ a ∈ attributes.entries, (a.1 ≠ "" ∧ ∀ c ∈ a.1.toList, isNameChar c = true) ∧
        ∀ c ∈ a.2.toList, isNameChar c = true ∨ c = ' '

/-- What the notation shows of a node. -/
def Entry.reading (entry : Entry) : Reading := entry.content.reading

/-! ## Section 2: Characters -/

theorem own_default (content : Content) : own {} content = pure (plain {} content) :=
  own_spelledOut {} content

/-- The characters of the text of an element. -/
def isElementChar (c : Char) : Bool :=
  isNameChar c || ['#', '.', '[', ']', '"', '=', ' '].contains c

theorem isElementChar_of_isSign {c : Char} (h : isSign c = true) : isElementChar c = false := by
  simp only [isSign, endsHead, Bool.or_eq_true, beq_iff_eq] at h
  rcases h with (((rfl | rfl) | rfl) | rfl) | rfl <;> rfl

/-- The signs that end a tag. -/
def endsTag (c : Char) : Bool := c == '#' || beginsPart c

section Element

variable {tag tag' : String} {attributes attributes' : Attributes}

theorem toList_plain (tag : String) (attributes : Attributes) :
    (plain {} (.element tag attributes)).toList =
      tag.toList ++ ((idPart attributes).toList ++ ((classPart (classNames attributes)).toList ++
        (attributeList (listed attributes)).toList)) := by
  have hlisted : bracketed {} attributes = listed attributes := by
    unfold bracketed
    simp
  rw [plain, counted]
  simp [hlisted]

theorem isNameChar_of_mem_id (h : (Content.element tag attributes).Plain) {id : String}
    (hid : nonempty? attributes "id" = some id) :
    ∀ c ∈ id.toList, isNameChar c = true ∨ c = ' ' := by
  have hmem := OrderedMap.get?_eq_some_iff.mp (Option.filter_eq_some_iff.mp hid).1
  exact (h.2 _ hmem).2

theorem isNameChar_of_mem_class (h : (Content.element tag attributes).Plain) {name : String}
    (hname : name ∈ classNames attributes) :
    ∀ c ∈ name.toList, isNameChar c = true ∨ c = ' ' := by
  unfold classNames at hname
  split at hname
  next list hlist =>
    intro c hc
    exact (h.2 _ (OrderedMap.get?_eq_some_iff.mp hlist)).2 c (Text.mem_of_mem_words hname c hc)
  next => cases hname

theorem listable_of_mem_listed (h : (Content.element tag attributes).Plain)
    {a : String × String} (ha : a ∈ listed attributes) : Listable a := by
  obtain ⟨⟨-, hname⟩, hvalue⟩ := h.2 a (List.mem_filter.mp ha).1
  -- None of the three characters is one of a name.
  have hne : ∀ c ∈ a.1.toList, ∀ d, isNameChar d = false → c ≠ d := by
    rintro c hc d hd rfl
    rw [hname c hc] at hd
    cases hd
  constructor
  · exact fun c hc => ⟨hne c hc ' ' rfl, hne c hc '=' rfl, hne c hc '"' rfl⟩
  · intro hquote
    rcases hvalue '"' hquote with hplain | hspace
    · cases hplain
    · cases hspace

theorem isElementChar_of_isNameChar {c : Char} (h : isNameChar c = true ∨ c = ' ') :
    isElementChar c = true := by
  unfold isElementChar
  rcases h with h | rfl
  · rw [h, Bool.true_or]
  · rfl

theorem beginsPart_of_isNameChar {c : Char} (h : isNameChar c = true ∨ c = ' ') :
    beginsPart c = false := by
  rw [Bool.eq_false_iff]
  intro hpart
  simp only [beginsPart, Bool.or_eq_true, beq_iff_eq] at hpart
  rcases hpart with rfl | rfl
  · simp [isNameChar] at h
  · simp [isNameChar] at h

/-- The text of an attribute in brackets holds no signs. -/
theorem isElementChar_of_mem_attributeText {name value : String}
    (hname : ∀ c ∈ name.toList, isNameChar c = true)
    (hvalue : ∀ c ∈ value.toList, isNameChar c = true ∨ c = ' ') :
    ∀ c ∈ (attributeText name value).toList, isElementChar c = true := by
  intro c hc
  rw [toList_attributeText, List.mem_append] at hc
  rcases hc with hc | hc
  · exact isElementChar_of_isNameChar (.inl (hname c hc))
  · rcases mem_valueChars hc with rfl | rfl | hc
    · rfl
    · rfl
    · exact isElementChar_of_isNameChar (hvalue c hc)

/-- The attributes in brackets hold no signs. -/
theorem isElementChar_of_mem_attributeList (h : (Content.element tag attributes).Plain) :
    ∀ c ∈ (attributeList (listed attributes)).toList, isElementChar c = true := by
  intro c hc
  by_cases hnone : listed attributes = []
  · rw [hnone] at hc
    cases hc
  · obtain ⟨inner, hinner, hrow⟩ := toList_attributeList hnone
    simp only [hinner, List.mem_cons, List.mem_append, List.not_mem_nil, or_false] at hc
    rcases hc with rfl | hc | rfl
    · rfl
    · have hmem := List.mem_cons_of_mem ' ' hc
      rw [hrow, List.mem_flatMap] at hmem
      obtain ⟨a, ha, hmem⟩ := hmem
      rcases List.mem_cons.mp hmem with rfl | hmem
      · rfl
      · obtain ⟨⟨-, hname⟩, hvalue⟩ := h.2 a (List.mem_filter.mp ha).1
        exact isElementChar_of_mem_attributeText hname hvalue c hmem
    · rfl

/-- The text of an element holds no signs. -/
theorem isElementChar_of_mem_plain (h : (Content.element tag attributes).Plain) :
    ∀ c ∈ (plain {} (.element tag attributes)).toList, isElementChar c = true := by
  intro c hc
  simp only [toList_plain, List.mem_append] at hc
  rcases hc with hc | hc | hc | hc
  · refine isElementChar_of_isNameChar (.inl ?_)
    unfold isNameChar
    rw [h.1.2 c hc]
    rfl
  · unfold idPart at hc
    split at hc
    next id hid =>
      rw [String.toList_append] at hc
      rcases List.mem_append.mp hc with hc | hc
      · obtain rfl := List.mem_singleton.mp hc
        rfl
      · exact isElementChar_of_isNameChar (isNameChar_of_mem_id h hid c hc)
    next => cases hc
  · rw [toList_classPart, List.mem_flatMap] at hc
    obtain ⟨name, hname, hc⟩ := hc
    rcases List.mem_cons.mp hc with rfl | hc
    · rfl
    · exact isElementChar_of_isNameChar (isNameChar_of_mem_class h hname c hc)
  · exact isElementChar_of_mem_attributeList h c hc

/-! ## Section 3: Elements -/

theorem ends_attributeList (attributes : List (String × String)) :
    Ends (· == '[') (attributeList attributes).toList := by
  by_cases hnone : attributes = []
  · rw [hnone]
    trivial
  · obtain ⟨inner, hinner, -⟩ := toList_attributeList hnone
    rw [hinner]
    rfl

theorem ends_classPart (names : List String) {rs : List Char} (hrs : Ends (· == '[') rs) :
    Ends beginsPart ((classPart names).toList ++ rs) := by
  rw [toList_classPart]
  cases names with
  | nil =>
    refine Ends.mono hrs ?_
    intro c hc
    simp only [beginsPart, hc, Bool.or_true]
  | cons first rest => rfl

theorem ends_idPart (attributes : Attributes) {rs : List Char} (hrs : Ends beginsPart rs) :
    Ends endsTag ((idPart attributes).toList ++ rs) := by
  unfold idPart
  split
  · rw [String.toList_append]
    exact ends_cons rfl _
  · refine Ends.mono hrs ?_
    intro c hc
    simp only [endsTag, hc, Bool.or_true]

/-- The reading of an element is determined by its text. -/
theorem reading_eq_of_plain (h : (Content.element tag attributes).Plain)
    (h' : (Content.element tag' attributes').Plain)
    (htext : plain {} (.element tag attributes) = plain {} (.element tag' attributes')) :
    (Content.element tag attributes).reading = (Content.element tag' attributes').reading := by
  have hchars := congrArg String.toList htext
  rw [toList_plain, toList_plain] at hchars
  have htag : ∀ {c : Char}, c.isAlphanum = true → endsTag c = false := by
    intro c hc
    have hname : isNameChar c = true := by rw [isNameChar, hc]; rfl
    rw [endsTag, beginsPart_of_isNameChar (.inl hname), Bool.or_false]
    exact beq_false_of_ne fun heq => by rw [heq] at hc; cases hc
  have hbracket := ends_attributeList (listed attributes)
  have hbracket' := ends_attributeList (listed attributes')
  have hclass := ends_classPart (classNames attributes) hbracket
  have hclass' := ends_classPart (classNames attributes') hbracket'
  -- One part after the other is taken off the front.
  obtain ⟨htags, hchars⟩ := append_inj_of_ends (fun c hc => htag (h.1.2 c hc))
    (fun c hc => htag (h'.1.2 c hc)) (ends_idPart attributes hclass)
    (ends_idPart attributes' hclass') hchars
  obtain ⟨hids, hchars⟩ := idPart_inj
    (fun id hid c hc => beginsPart_of_isNameChar (isNameChar_of_mem_id h hid c hc))
    (fun id hid c hc => beginsPart_of_isNameChar (isNameChar_of_mem_id h' hid c hc)) hclass hclass'
    hchars
  obtain ⟨hnames, hchars⟩ := classPart_inj
    (fun name hname c hc => beginsPart_of_isNameChar (isNameChar_of_mem_class h hname c hc))
    (fun name hname c hc => beginsPart_of_isNameChar (isNameChar_of_mem_class h' hname c hc))
    hbracket hbracket' hchars
  have hothers := attributeList_injective (fun a ha => listable_of_mem_listed h ha)
    (fun a ha => listable_of_mem_listed h' ha) (String.toList_inj.mp hchars)
  rw [Content.reading, Content.reading, String.toList_inj.mp htags, hids, hnames, hothers]

end Element

end TreeNotation.Html
