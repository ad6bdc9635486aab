import TreeNotation.Proofs.Text.Occurrence
import TreeNotation.Proofs.Text.Words
import TreeNotation.Proofs.Writing.Attribute
import TreeNotation.Proofs.Writing.Rendering

/-!
# A Word before a Brace

Where a word with an opening brace behind it occurs in a notation. It occurs where a text of a node
holds it, and it may come about where the text of a node ends in the word and another text follows
in braces. Nothing else that is written between the texts of nodes can bring it about.

- **Elements**: `infix_element_iff`, for the name and the attributes of an element, and
  `suffix_element_iff`, for what its text ends in;
- **Layouts**: `infix_join_iff` and `infix_assemble_iff`;
- **Dialects**: `compositional_occurs` and `occursAt_convertWith`.
-/

namespace TreeNotation.Writing

open Text (concat_infix_append_cons_iff exists_infix_words_iff infix_append_cons_iff
  infix_append_of_forall infix_append_of_head? infix_cons_of_not_mem infix_flatMap_cons_iff
  not_infix_of_not_mem suffix_append_cons_iff)

/-- The text is not empty and consists of letters. -/
structure IsWord (word : List Char) : Prop where
  ne_nil : word ≠ []
  isAlpha : ∀ c ∈ word, c.isAlpha = true

variable {word : List Char}

theorem IsWord.not_mem (hword : IsWord word) {c : Char} (hc : c.isAlpha = false) : c ∉ word := by
  intro hmem
  rw [hword.isAlpha c hmem] at hc
  cases hc

/-- A word with an opening brace behind it. -/
def opening (word : List Char) : List Char := word ++ ['\x7b']

theorem opening_ne_nil (word : List Char) : opening word ≠ [] := by simp [opening]

theorem not_opening_of_not_mem {cs : List Char} (h : '\x7b' ∉ cs) : ¬ opening word <:+: cs :=
  not_infix_of_not_mem (by simp [opening]) h

theorem IsWord.not_mem_opening (hword : IsWord word) {c : Char} (hc : c.isAlpha = false)
    (hbrace : c ≠ '\x7b') : c ∉ opening word := by
  rw [opening, List.mem_append, not_or]
  exact ⟨hword.not_mem hc, by simpa using hbrace⟩

theorem IsWord.isBlank_of_mem_opening (hword : IsWord word) :
    ∀ c ∈ opening word, Text.isBlank c = false := by
  intro c hc
  rcases List.mem_append.mp hc with hc | hc
  · exact Text.isBlank_of_isAlpha (hword.isAlpha c hc)
  · rw [List.mem_singleton.mp hc]
    rfl

theorem IsWord.isMark_of_mem_opening (hword : IsWord word) :
    ∀ c ∈ opening word, Text.isMark c = false := by
  intro c hc
  rw [Bool.eq_false_iff]
  intro hmark
  simp only [Text.isMark, Bool.or_eq_true, beq_iff_eq] at hmark
  rcases hmark with (rfl | rfl) | rfl <;> exact hword.not_mem_opening rfl (by decide) hc

theorem IsWord.not_suffix_of_last (hword : IsWord word) {c : Char} (hc : c.isAlpha = false)
    (cs : List Char) : ¬ word <:+ cs ++ [c] := by
  rw [suffix_append_cons_iff (hword.not_mem hc), List.suffix_nil]
  exact hword.ne_nil

/-- Between two texts, of which the second one is in braces, the word and the brace come about if
the first one ends in the word. -/
theorem infix_append_braced_iff (hword : IsWord word) {own lead : List Char}
    (hlead : ∃ rest, lead = '\x7b' :: rest) :
    opening word <:+: own ++ lead ↔
      opening word <:+: own ∨ word <:+ own ∨ opening word <:+: lead := by
  obtain ⟨rest, rfl⟩ := hlead
  have hbrace : '\x7b' ∉ word := hword.not_mem rfl
  have hrest : opening word <:+: [] ++ '\x7b' :: rest ↔ opening word <:+: rest := by
    unfold opening
    rw [concat_infix_append_cons_iff hbrace, List.suffix_nil, or_iff_right hword.ne_nil]
    exact or_iff_right (not_opening_of_not_mem (by simp))
  rw [List.nil_append] at hrest
  rw [hrest]
  exact concat_infix_append_cons_iff hbrace

/-- The word and the brace occur in a payload in braces, or in what is written before it, or the
word comes before the brace. -/
theorem infix_braced_iff (hword : IsWord word) (label payload : String) :
    opening word <:+: (braced label payload).toList ↔
      opening word <:+: label.toList ∨ word <:+ label.toList ∨
        opening word <:+: payload.toList := by
  have hchars : (braced label payload).toList =
      label.toList ++ '\x7b' :: (payload.toList ++ ['\x7d']) := by
    simp [braced]
  have hnil : ¬ opening word <:+: [] := not_opening_of_not_mem (by simp)
  have hclosing : '\x7d' ∉ opening word := hword.not_mem_opening rfl (by decide)
  have hpayload : opening word <:+: payload.toList ++ ['\x7d'] ↔
      opening word <:+: payload.toList := by
    rw [infix_append_cons_iff hclosing, or_iff_left hnil]
  rw [hchars, ← hpayload]
  exact concat_infix_append_cons_iff (hword.not_mem rfl)

theorem IsWord.not_suffix_braced (hword : IsWord word) (label payload : String) :
    ¬ word <:+ (braced label payload).toList := by
  unfold braced
  rw [String.toList_append]
  exact hword.not_suffix_of_last (c := '\x7d') rfl _

/-! ## Section 1: Elements -/

section Elements

variable {attributes : Attributes}

/-- What the text of an element ends with, given its name: the last class name, or the identifier,
or the name itself; nothing if attributes in brackets come last. -/
def closing? (name : String) (attributes : Attributes) : Option String :=
  if (listed attributes).isEmpty then
    some ((classNames attributes).getLast?.getD ((nonempty? attributes "id").getD name))
  else none

theorem head?_idPart : ∀ c ∈ (idPart attributes).toList.head?, c = '#' := by
  unfold idPart
  split <;> simp

theorem head?_classPart (names : List String) :
    ∀ c ∈ (classPart names).toList.head?, c = '.' := by
  rw [toList_classPart]
  cases names <;> simp

theorem head?_attributeList (pairs : List (String × String)) :
    ∀ c ∈ (attributeList pairs).toList.head?, c = '[' := by
  unfold attributeList
  split <;> simp

variable (hword : IsWord word)

include hword

theorem infix_idPart_iff : opening word <:+: (idPart attributes).toList ↔
    ∃ id, attributes.get? "id" = some id ∧ opening word <:+: id.toList := by
  have hempty : ¬ opening word <:+: "".toList := not_opening_of_not_mem (by simp)
  unfold idPart nonempty?
  cases hget : attributes.get? "id" with
  | none => simpa using hempty
  | some id =>
    by_cases hid : id = ""
    · simp [Option.filter, hid]
    · have hsharp : '#' ∉ opening word := hword.not_mem_opening rfl (by decide)
      simp [Option.filter, hid, infix_cons_of_not_mem hsharp]

theorem infix_classPart_iff : opening word <:+: (classPart (classNames attributes)).toList ↔
    ∃ list, attributes.get? "class" = some list ∧ opening word <:+: list.toList := by
  have hdot : '.' ∉ opening word := hword.not_mem_opening rfl (by decide)
  rw [toList_classPart, infix_flatMap_cons_iff (opening_ne_nil word) hdot, classNames]
  cases attributes.get? "class" with
  | none => simp
  | some list => simpa using exists_infix_words_iff (opening_ne_nil word) hword.isBlank_of_mem_opening

theorem infix_attributeText_iff {name value : String} :
    opening word <:+: (attributeText name value).toList ↔
      opening word <:+: name.toList ∨ opening word <:+: value.toList := by
  have hequals : '=' ∉ opening word := hword.not_mem_opening rfl (by decide)
  have hquote : '"' ∉ opening word := hword.not_mem_opening rfl (by decide)
  have hnil : ¬ opening word <:+: [] := not_opening_of_not_mem (by simp)
  rw [toList_attributeText]
  rcases valueChars_cases value with hvalue | ⟨hempty, hvalue⟩ | ⟨-, -, hvalue⟩
  · rw [hvalue, infix_append_cons_iff hequals, infix_cons_of_not_mem hquote,
      infix_append_cons_iff hquote, or_iff_left hnil]
  · rw [hvalue, hempty, List.append_nil, or_iff_left hnil]
  · rw [hvalue, infix_append_cons_iff hequals]

theorem infix_attributeList_iff (pairs : List (String × String)) :
    opening word <:+: (attributeList pairs).toList ↔
      ∃ a ∈ pairs, opening word <:+: a.1.toList ∨ opening word <:+: a.2.toList := by
  have hnil : ¬ opening word <:+: [] := not_opening_of_not_mem (by simp)
  by_cases hpairs : pairs = []
  · simpa [hpairs, attributeList] using hnil
  · have hspace : ' ' ∉ opening word := hword.not_mem_opening rfl (by decide)
    obtain ⟨inner, hinner, hrow⟩ := toList_attributeList hpairs
    rw [hinner, infix_cons_of_not_mem (hword.not_mem_opening rfl (by decide)),
      infix_append_cons_iff (hword.not_mem_opening rfl (by decide)), or_iff_left hnil,
      ← infix_cons_of_not_mem hspace, hrow, infix_flatMap_cons_iff (opening_ne_nil word) hspace]
    simp only [infix_attributeText_iff hword]

/-- The word and the brace occur in the text of an element if and only if they do in what is written
before its attributes or in one of these. -/
theorem infix_element_iff (front : String) : opening word <:+:
    (front ++ idPart attributes ++ classPart (classNames attributes) ++
      attributeList (listed attributes)).toList ↔
    opening word <:+: front.toList ∨
      ∃ a ∈ attributes.entries, opening word <:+: a.1.toList ∨ opening word <:+: a.2.toList := by
  have hsign : ∀ {cs : List Char} {c : Char}, (∀ d ∈ cs.head?, d = c) → c.isAlpha = false →
      c ≠ '\x7b' → ∀ d ∈ cs.head?, d ∉ opening word := by
    intro cs c hcs hc hbrace d hd
    rw [hcs d hd]
    exact hword.not_mem_opening hc hbrace
  rw [String.toList_append, String.toList_append, String.toList_append,
    infix_append_of_head? (hsign (head?_attributeList _) rfl (by decide)),
    infix_append_of_head? (hsign (head?_classPart _) rfl (by decide)),
    infix_append_of_head? (hsign head?_idPart rfl (by decide)), infix_idPart_iff hword,
    infix_classPart_iff hword, infix_attributeList_iff hword, or_assoc, or_assoc]
  refine or_congr_right ⟨?_, ?_⟩
  · rintro (⟨id, hid, hoccurs⟩ | ⟨list, hlist, hoccurs⟩ | ⟨a, ha, hoccurs⟩)
    · exact ⟨_, OrderedMap.get?_eq_some_iff.mp hid, .inr hoccurs⟩
    · exact ⟨_, OrderedMap.get?_eq_some_iff.mp hlist, .inr hoccurs⟩
    · exact ⟨a, (List.mem_filter.mp ha).1, hoccurs⟩
  · rintro ⟨⟨name, value⟩, ha, hoccurs⟩
    by_cases hid : name = "id"
    · subst hid
      have hvalue := hoccurs.resolve_left (not_opening_of_not_mem (by simp))
      exact .inl ⟨value, OrderedMap.get?_eq_some_iff.mpr ha, hvalue⟩
    · by_cases hclass : name = "class"
      · subst hclass
        have hvalue := hoccurs.resolve_left (not_opening_of_not_mem (by simp))
        exact .inr (.inl ⟨value, OrderedMap.get?_eq_some_iff.mpr ha, hvalue⟩)
      · exact .inr (.inr ⟨(name, value), List.mem_filter.mpr ⟨ha, by simp [hid, hclass]⟩, hoccurs⟩)

/-- The text of an element ends in the word if and only if it ends with something that does. -/
theorem suffix_element_iff (front : String) : word <:+
    (front ++ idPart attributes ++ classPart (classNames attributes) ++
      attributeList (listed attributes)).toList ↔
    ∃ last ∈ closing? front attributes, word <:+ last.toList := by
  unfold closing?
  by_cases hlisted : listed attributes = []
  · have hnone : attributeList (listed attributes) = "" := by
      rw [hlisted]
      rfl
    rw [hnone, hlisted, if_pos List.isEmpty_nil, String.append_empty]
    rcases List.eq_nil_or_concat (classNames attributes) with hclasses | ⟨names, last, hclasses⟩
    · have hdots : classPart (classNames attributes) = "" := by
        rw [hclasses]
        rfl
      rw [hdots, hclasses, String.append_empty]
      unfold idPart
      cases nonempty? attributes "id" with
      | none => simp
      | some id => simp [suffix_append_cons_iff (hword.not_mem (c := '#') rfl)]
    · rw [String.toList_append, toList_classPart, hclasses, List.concat_eq_append,
        List.flatMap_append, List.flatMap_singleton, ← List.append_assoc,
        suffix_append_cons_iff (hword.not_mem rfl)]
      simp
  · obtain ⟨inner, hinner, -⟩ := toList_attributeList hlisted
    have hlast : ∀ cs : List Char, ¬ word <:+ cs ++ '[' :: (inner ++ [']']) := by
      intro cs
      rw [← List.cons_append, ← List.append_assoc]
      exact hword.not_suffix_of_last rfl _
    rw [String.toList_append, hinner, if_neg (by simpa using hlisted)]
    exact iff_of_false (hlast _) (by simp)

end Elements

/-! ## Section 2: Layouts -/

namespace Layout

theorem brk_not_isAlpha (layout : Layout) : ∀ c ∈ layout.brk, c.isAlpha = false ∧ c ≠ '\x7b' := by
  cases layout with
  | line => simp [brk]
  | indented width =>
    intro c hc
    obtain rfl := List.mem_singleton.mp hc
    decide

theorem margin_eq_space (layout : Layout) (level : Nat) :
    ∀ c ∈ (layout.margin level).toList, c = ' ' := by
  cases layout with
  | line => simp [margin]
  | indented width => simp [margin]

theorem head?_group (layout : Layout) (parts : List String) :
    ∀ c ∈ (layout.group parts).toList.head?, c = '>' := by
  unfold group
  split
  · simp
  · rw [String.toList_append, layout.toList_descend]
    simp

variable (hword : IsWord word)

include hword

theorem infix_brk_append_iff (layout : Layout) {cs : List Char} :
    opening word <:+: layout.brk ++ cs ↔ opening word <:+: cs :=
  infix_append_of_forall fun c hc =>
    hword.not_mem_opening (layout.brk_not_isAlpha c hc).1 (layout.brk_not_isAlpha c hc).2

/-- Side by side, the word and the brace occur in one of the notations. -/
theorem infix_join_iff (layout : Layout) (parts : List String) :
    opening word <:+: (layout.join parts).toList ↔
      ∃ part ∈ parts, opening word <:+: part.toList := by
  have hplus : '+' ∉ opening word := hword.not_mem_opening rfl (by decide)
  have hrow : ∀ row : List String, opening word <:+: (layout.sibling.intercalate row).toList ↔
      ∃ part ∈ row, opening word <:+: part.toList := by
    intro row
    induction row with
    | nil => simpa using opening_ne_nil word
    | cons first rest ih =>
      by_cases hrest : rest = []
      · simp [hrest]
      · rw [String.intercalate_cons_of_ne_nil hrest, String.toList_append, String.toList_append,
          layout.toList_sibling, List.append_assoc, List.cons_append, infix_append_cons_iff hplus,
          infix_brk_append_iff hword, ih, List.exists_mem_cons_iff]
  -- What is left out is empty, so there is no occurrence in it.
  have htraces : (∃ part ∈ traces parts, opening word <:+: part.toList) ↔
      ∃ part ∈ parts, opening word <:+: part.toList := by
    constructor
    · rintro ⟨part, hpart, hoccurs⟩
      exact ⟨part, (List.mem_filter.mp hpart).1, hoccurs⟩
    · rintro ⟨part, hpart, hoccurs⟩
      refine ⟨part, List.mem_filter.mpr ⟨hpart, ?_⟩, hoccurs⟩
      have hne : part ≠ "" := by
        rintro rfl
        exact not_opening_of_not_mem (by simp) hoccurs
      simpa using hne
  exact (hrow (traces parts)).trans htraces

theorem infix_group_iff (layout : Layout) (parts : List String) :
    opening word <:+: (layout.group parts).toList ↔
      ∃ part ∈ parts, opening word <:+: part.toList := by
  rw [← infix_join_iff hword layout]
  have hdown : '>' ∉ opening word := hword.not_mem_opening rfl (by decide)
  unfold group
  split
  case isTrue hnone =>
    have hjoin : layout.join parts = "" := by
      have htraces : traces parts = [] := by
        rw [traces, List.filter_eq_nil_iff]
        intro part hpart
        simpa using List.all_eq_true.mp hnone part hpart
      rw [← join_traces, htraces]
      rfl
    rw [hjoin]
  case isFalse =>
    rw [String.toList_append, layout.toList_descend, List.cons_append,
      infix_cons_of_not_mem hdown, infix_brk_append_iff hword]

end Layout

/-! ## Section 3: Dialects -/

namespace Dialect

open Token (Gives Ledger Supply)

variable {α κ : Type} {d : Dialect α κ} {f : Forest α} {here closes : α → Prop}

/-- A node with what is written directly after it and below it: the word and the brace occur in the
line of the node, or in what is below. -/
theorem infix_assemble_iff (hword : IsWord word) (id : NodeId) (level : Nat) (own lead : String)
    (parts : List String) :
    opening word <:+: (d.assemble id level own lead (d.layout.group parts)).toList ↔
      opening word <:+: own.toList ++ lead.toList ∨
        ∃ part ∈ parts, opening word <:+: part.toList := by
  have hbody : opening word <:+: (own ++ lead ++ d.layout.group parts).toList ↔
      opening word <:+: own.toList ++ lead.toList ∨
        ∃ part ∈ parts, opening word <:+: part.toList := by
    have hdown : ∀ c ∈ (d.layout.group parts).toList.head?, c ∉ opening word := by
      intro c hc
      rw [d.layout.head?_group parts c hc]
      exact hword.not_mem_opening rfl (by decide)
    rw [String.toList_append, infix_append_of_head? hdown, Layout.infix_group_iff hword,
      String.toList_append]
  have hmargin : ∀ c ∈ (d.layout.margin level).toList, c ∉ opening word := by
    intro c hc
    rw [d.layout.margin_eq_space level c hc]
    exact hword.not_mem_opening rfl (by decide)
  unfold assemble
  rw [String.toList_append, infix_append_of_forall hmargin, ← hbody]
  split
  case isTrue =>
    have hnil : ¬ opening word <:+: [] := not_opening_of_not_mem (by simp)
    have hopen : '(' ∉ opening word := hword.not_mem_opening rfl (by decide)
    have hclose : ')' ∉ opening word := hword.not_mem_opening rfl (by decide)
    have hchars : ∀ body : String, ("(" ++ body ++ ")").toList = '(' :: (body.toList ++ [')']) := by
      simp
    rw [hchars, infix_cons_of_not_mem hopen, infix_append_cons_iff hclose, or_iff_left hnil]
  case isFalse => rfl

/-- The first child of a node is plain text, which is written directly after it. -/
def Leads (d : Dialect α κ) (f : Forest α) (id : NodeId) : Prop :=
  ∃ first ∈ (f.children id).head?, ∃ label, f.label? first = some label ∧ d.inlines label = true

/-- The word and the brace occur in the text of a node with the label if `here` is true of it, and
the text ends in the word if `closes` is. Plain text is in braces. -/
structure Spells (d : Dialect α κ) (word : List Char) (here closes : α → Prop) (label : α)
    (own : String) : Prop where
  occurs_iff : opening word <:+: own.toList ↔ here label
  closes_iff : word <:+ own.toList ↔ closes label
  of_inlines : d.inlines label = true → ∃ rest, own.toList = '\x7b' :: rest

/-- The word and the brace come about at a node: in its own text, or where that ends in the word and
plain text comes directly after it. -/
def ComesAbout (d : Dialect α κ) (f : Forest α) (here closes : α → Prop) (node : NodeId × α) :
    Prop :=
  here node.2 ∨ closes node.2 ∧ d.Leads f node.1

/-- The word and the brace occur in a notation if and only if they come about at a node of a
list. -/
def OccursAt (d : Dialect α κ) (f : Forest α) (word : List Char) (here closes : α → Prop)
    (nodes : List (NodeId × α)) (text : String) : Prop :=
  opening word <:+: text.toList ↔ ∃ node ∈ nodes, d.ComesAbout f here closes node

theorem exists_occurs_iff {trees : List (Tree α)} {parts : List String}
    (h : List.Forall₂ (fun tree text => IsTreeOf f tree →
      d.OccursAt f word here closes (d.written tree) text) trees parts)
    (htrees : ∀ tree ∈ trees, IsTreeOf f tree) :
    (∃ part ∈ parts, opening word <:+: part.toList) ↔
      ∃ node ∈ d.writtenEach trees, d.ComesAbout f here closes node := by
  induction h with
  | nil => simp [writtenEach]
  | @cons first part trees parts hfirst _ ih =>
    have hpart : opening word <:+: part.toList ↔ _ := hfirst (htrees first List.mem_cons_self)
    rw [List.exists_mem_cons_iff, ih fun tree htree => htrees tree (List.mem_cons_of_mem _ htree),
      hpart, writtenEach]
    simp only [List.mem_append, or_and_right, exists_or]

theorem leads_iff {id : NodeId} {label : α} {children : List (Tree α)}
    (htree : IsTreeOf f (.node id label children)) :
    d.Leads f id ↔ ∃ first ∈ children.head?, d.inlines first.label = true := by
  obtain ⟨⟨-, hchildren⟩, hinside⟩ := htree.at_node
  unfold Leads
  rw [hchildren, List.head?_map]
  cases children with
  | nil => simp
  | cons first rest =>
    obtain ⟨firstId, firstLabel, below⟩ := first
    have hlabel : f.label? firstId = some firstLabel := (hinside _ List.mem_cons_self).at_node.1.1
    simp [Tree.id, Tree.label, hlabel]

theorem occursAt_node (hword : IsWord word)
    (hlead : ∀ label, d.inlines label = true → ¬ closes label) {id : NodeId} {label : α}
    {children : List (Tree α)} (htree : IsTreeOf f (.node id label children)) (level : Nat)
    {own : String} (hown : d.Spells word here closes label own) {below : String × List String}
    (hbelow : d.WrittenBelow (fun _ => d.Spells word here closes)
      (fun tree text => IsTreeOf f tree →
        d.OccursAt f word here closes (d.written tree) text) children below) :
    d.OccursAt f word here closes ((id, label) :: d.writtenBelow children)
      (d.assemble id level own below.1 (d.layout.group below.2)) := by
  have hinside := htree.at_node.2
  unfold OccursAt
  rw [infix_assemble_iff hword, List.exists_mem_cons_iff, ComesAbout, leads_iff htree]
  cases hbelow with
  | nil => simp [writtenBelow, hown.occurs_iff]
  | @text first rest lead parts hinlines hfirst hrest =>
    have hself : d.ComesAbout f here closes (first.id, first.label) ↔ here first.label :=
      or_iff_left fun h => hlead _ hinlines h.1
    have hrow := exists_occurs_iff hrest fun tree hmem => hinside tree (List.mem_cons_of_mem _ hmem)
    -- The text of the node and the one after it meet.
    rw [infix_append_braced_iff hword (hfirst.of_inlines hinlines), hown.occurs_iff,
      hown.closes_iff, hfirst.occurs_iff, hrow, writtenBelow_cons_of_inlines rest hinlines,
      List.exists_mem_cons_iff, hself]
    simp [hinlines, or_assoc]
  | @row first rest part parts hinlines hfirst hrest =>
    have hpart : opening word <:+: part.toList ↔ _ := hfirst (hinside first List.mem_cons_self)
    have hrow := exists_occurs_iff hrest fun tree hmem => hinside tree (List.mem_cons_of_mem _ hmem)
    rw [String.toList_empty, List.append_nil, hown.occurs_iff, List.exists_mem_cons_iff, hpart,
      hrow, writtenBelow_cons_of_not_inlines rest hinlines]
    simp [hinlines, or_and_right, exists_or]

theorem compositional_occurs (hword : IsWord word)
    (hlead : ∀ label, d.inlines label = true → ¬ closes label) :
    d.Compositional (fun _ => d.Spells word here closes) fun tree text => IsTreeOf f tree →
      d.OccursAt f word here closes (d.written tree) text where
  skipped := by
    rintro ⟨id, label, children⟩ hskips _
    have hnone : d.written (.node id label children) = [] := by rw [written]; exact if_pos hskips
    rw [OccursAt, hnone]
    simpa using opening_ne_nil word
  node {id label children own below} level hskips hown hbelow htree := by
    have hwritten : d.written (.node id label children) =
        (id, label) :: d.writtenBelow children := by
      rw [written, if_neg (by simp [hskips])]
    rw [hwritten]
    exact occursAt_node hword hlead htree level hown hbelow

/-- In a conversion that succeeds, the word and the brace occur if and only if they come about at a
node that is written. -/
theorem occursAt_convertWith {P : Ledger κ → Prop} (hf : f.WellFormed) (hword : IsWord word)
    (hlead : ∀ label, d.inlines label = true → ¬ closes label) {a : Supply}
    (hP : P (Ledger.ofSupply a))
    (hown : ∀ id label, f.label? id = some label →
      Gives P (d.Spells word here closes label) (d.own id label)) {μ : Type}
    {tables : Ledger κ → μ} {result : Conversion μ}
    (hresult : d.convertWith tables a f = .ok result) :
    d.OccursAt f word here closes (d.writtenEach f.trees) result.text := by
  obtain ⟨parts, hparts, htext⟩ :=
    (compositional_occurs (f := f) hword hlead).of_convertWith hf hP hown hresult
  unfold OccursAt
  rw [htext, Layout.infix_join_iff hword, exists_occurs_iff hparts fun _ => isTreeOf_of_mem_trees]

end Dialect

end TreeNotation.Writing
