import TreeNotation.Proofs.Text.Delimited
import TreeNotation.Writing.Attribute

/-!
# Reading Attributes Back

The identifier and the class names of an element can be read off its text, in front of its other
attributes.

- **Brackets**: `toList_attributeText` and `toList_attributeList`, the characters of an attribute and
  of a list of them;
- **Parts**: `idPart_inj` and `classPart_inj`, in front of the parts that may follow.
-/

namespace TreeNotation.Writing

open Text (Ends Reads append_inj_of_ends cons_intercalate)

/-! ## Section 1: Brackets -/

/-- What is written behind the name of an attribute. -/
def valueChars (value : String) : List Char :=
  if ' ' ∈ value.toList then '=' :: '"' :: (value.toList ++ ['"'])
  else if value.toList = [] then []
  else '=' :: value.toList

theorem toList_attributeText (name value : String) :
    (attributeText name value).toList = name.toList ++ valueChars value := by
  unfold attributeText valueChars
  split
  · simp
  · split <;> simp_all

/-- A value is in quotes, left out, or written as it is. -/
theorem valueChars_cases (value : String) :
    (valueChars value = '=' :: '"' :: (value.toList ++ ['"'])) ∨
      (value.toList = [] ∧ valueChars value = []) ∨
      (' ' ∉ value.toList ∧ value.toList ≠ [] ∧ valueChars value = '=' :: value.toList) := by
  unfold valueChars
  by_cases hspace : ' ' ∈ value.toList
  · exact .inl (if_pos hspace)
  · rw [if_neg hspace]
    by_cases hempty : value.toList = []
    · exact .inr (.inl ⟨hempty, if_pos hempty⟩)
    · exact .inr (.inr ⟨hspace, hempty, if_neg hempty⟩)

theorem mem_valueChars {value : String} {c : Char} (h : c ∈ valueChars value) :
    c = '=' ∨ c = '"' ∨ c ∈ value.toList := by
  rcases valueChars_cases value with hquoted | ⟨-, hnone⟩ | ⟨-, -, hplain⟩
  · simp only [hquoted, List.mem_cons, List.mem_append, List.not_mem_nil, or_false] at h
    rcases h with hequals | hquote | hvalue | hquote
    · exact .inl hequals
    · exact .inr (.inl hquote)
    · exact .inr (.inr hvalue)
    · exact .inr (.inl hquote)
  · rw [hnone] at h
    cases h
  · rw [hplain] at h
    exact (List.mem_cons.mp h).imp_right .inr

/-- The attributes in brackets without the brackets, behind one more space. -/
theorem toList_attributeList {attributes : List (String × String)} (h : attributes ≠ []) :
    ∃ inner, (attributeList attributes).toList = '[' :: (inner ++ [']']) ∧
      ' ' :: inner = attributes.flatMap fun a => ' ' :: (attributeText a.1 a.2).toList := by
  refine ⟨(" ".intercalate (attributes.map fun a => attributeText a.1 a.2)).toList, ?_, ?_⟩
  · unfold attributeList
    cases attributes with
    | nil => exact absurd rfl h
    | cons first rest => simp
  · rw [String.toList_intercalate]
    show ' ' :: [' '].intercalate _ = _
    rw [cons_intercalate ' ' (by simpa using h), List.map_map, List.flatMap_map]
    rfl

/-! ## Section 2: Identifiers and class names -/

/-- A part that may follow an identifier begins with a dot or a bracket. -/
def beginsPart (c : Char) : Bool := c == '.' || c == '['

/-- The identifier can be read back in front of the parts that may follow. -/
theorem idPart_inj {attributes attributes' : Attributes}
    (hplain : ∀ id, nonempty? attributes "id" = some id → ∀ c ∈ id.toList, beginsPart c = false)
    (hplain' : ∀ id, nonempty? attributes' "id" = some id → ∀ c ∈ id.toList, beginsPart c = false)
    {rs ss : List Char} (hrs : Ends beginsPart rs) (hss : Ends beginsPart ss)
    (h : (idPart attributes).toList ++ rs = (idPart attributes').toList ++ ss) :
    nonempty? attributes "id" = nonempty? attributes' "id" ∧ rs = ss := by
  unfold idPart at h
  cases hid : nonempty? attributes "id" with
  | none =>
    cases hid' : nonempty? attributes' "id" with
    | none => simpa [hid, hid'] using h
    | some id' =>
      simp [hid, hid'] at h
      rw [h] at hrs
      cases hrs
  | some id =>
    cases hid' : nonempty? attributes' "id" with
    | none =>
      simp [hid, hid'] at h
      rw [← h] at hss
      cases hss
    | some id' =>
      simp [hid, hid'] at h
      obtain ⟨hids, hrest⟩ := append_inj_of_ends (hplain id hid) (hplain' id' hid') hrs hss h
      exact ⟨by rw [String.toList_inj.mp hids], hrest⟩

/-- A dot stands before each class name. -/
theorem toList_classPart (names : List String) :
    (classPart names).toList = names.flatMap fun name => '.' :: name.toList := by
  unfold classPart
  cases names with
  | nil => rfl
  | cons first rest =>
    rw [String.toList_append, String.toList_intercalate]
    show '.' :: ['.'].intercalate _ = _
    rw [cons_intercalate '.' (by simp), List.flatMap_map]

/-- Class names can be read back in front of a bracket. -/
theorem classPart_inj {names names' : List String}
    (hplain : ∀ name ∈ names, ∀ c ∈ name.toList, beginsPart c = false)
    (hplain' : ∀ name ∈ names', ∀ c ∈ name.toList, beginsPart c = false) {rs ss : List Char}
    (hrs : Ends (· == '[') rs) (hss : Ends (· == '[') ss)
    (h : (classPart names).toList ++ rs = (classPart names').toList ++ ss) :
    names = names' ∧ rs = ss := by
  have hreads : ∀ name ∈ names, Reads beginsPart
      (fun name : String => ∀ c ∈ name.toList, beginsPart c = false) String.toList name := by
    intro name hname name' ts us hname' hts hus heq
    obtain ⟨hnames, hrest⟩ := append_inj_of_ends (hplain name hname) hname' hts hus heq
    exact ⟨String.toList_inj.mp hnames, hrest⟩
  have hbracket : ∀ {ts : List Char}, Ends (· == '[') ts →
      Ends beginsPart ts ∧ ts.head? ≠ some '.' := by
    intro ts hts
    cases ts with
    | nil => exact ⟨trivial, by simp⟩
    | cons c ts =>
      obtain rfl : c = '[' := by simpa [Ends] using hts
      exact ⟨rfl, by simp⟩
  rw [toList_classPart, toList_classPart] at h
  exact Reads.flatMap rfl hreads hplain' (hbracket hrs).1 (hbracket hss).1 (hbracket hrs).2
    (hbracket hss).2 h

end TreeNotation.Writing
