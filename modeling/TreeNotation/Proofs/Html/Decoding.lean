import TreeNotation.Proofs.Forest.Correspondence
import TreeNotation.Proofs.Html.Grouping
import TreeNotation.Proofs.Html.Reading

/-!
# Reading HTML Documents Back

The notation of a document whose texts are first children only determines its tree, up to what the
notation does not show of single nodes.

- **Nodes**: `isElement_of_mem_groupIds`; only elements have a line of their own;
- **Sketches**: `settled_of_drawn` and `readable_nest`; the nest of a document can be read back;
- **Documents**: `exists_nest`, `Matched` for nodes at the same place of the same nest, and
  `sameTrees_of_text_eq`.
-/

namespace TreeNotation.Html

open Text (Ends append_inj_of_ends)
open Token (Ledger Supply)
open Writing

variable {doc : Document}

/-! ## Section 1: Nodes -/

/-- The document has plain nodes, and its texts are first children without children. -/
structure Document.Decodable (doc : Document) : Prop where
  plain : ∀ id entry, doc.label? id = some entry → entry.content.Plain
  first_child : ∀ id entry payload, doc.label? id = some entry → entry.content = .text payload →
    ∃ parent, doc.isElement parent = true ∧ (doc.children parent).head? = some id
  childless : ∀ id entry payload, doc.label? id = some entry → entry.content = .text payload →
    doc.children id = []

theorem Document.Decodable.tagged (h : doc.Decodable) : doc.Tagged := by
  intro id entry tag attributes hentry hcontent
  have hplain := h.plain id entry hentry
  rw [hcontent] at hplain
  exact hplain.1.1

theorem Document.exists_element {id : NodeId} (h : doc.isElement id = true) :
    ∃ entry tag attributes, doc.label? id = some entry ∧
      entry.content = .element tag attributes := by
  unfold Document.isElement at h
  obtain ⟨entry, hentry, helement⟩ := (Option.any_eq_true _ _).mp h
  cases hcontent : entry.content with
  | text payload => rw [hcontent] at helement; cases helement
  | element tag attributes => exact ⟨entry, tag, attributes, hentry, hcontent⟩

theorem Document.exists_text {id : NodeId} {entry : Entry} (hentry : doc.label? id = some entry)
    (h : doc.isElement id = false) : ∃ payload, entry.content = .text payload := by
  unfold Document.isElement at h
  rw [hentry] at h
  cases hcontent : entry.content with
  | text payload => exact ⟨payload, rfl⟩
  | element tag attributes => rw [Option.any_some, hcontent] at h; cases h

theorem Document.exists_entry {id : NodeId} (h : id < doc.size) :
    ∃ entry, doc.label? id = some entry := by
  obtain ⟨node, hnode⟩ := Option.isSome_iff_exists.mp (Forest.isSome_node?_iff.mpr h)
  refine ⟨node.label, ?_⟩
  rw [Forest.label?, hnode, Option.map_some]

/-- With the default configuration no node is left out. -/
theorem shows_default {id : NodeId} (h : id < doc.size) : (dialect {} doc).shows doc id = true := by
  obtain ⟨entry, hentry⟩ := Document.exists_entry h
  rw [Dialect.shows, hentry, Option.any_some]
  show (!skips {} entry.content) = true
  cases entry.content <;> rfl

theorem filter_shows_default {ids : List NodeId} (h : ∀ id ∈ ids, id < doc.size) :
    ids.filter ((dialect {} doc).shows doc) = ids :=
  List.filter_eq_self.mpr fun id hid => shows_default (h id hid)

/-- Only first children are texts. -/
theorem isElement_of_head?_ne (hplain : doc.Decodable) {id : NodeId} (hid : id < doc.size)
    (h : ∀ parent, (doc.children parent).head? ≠ some id) : doc.isElement id = true := by
  by_contra htext
  rw [Bool.not_eq_true] at htext
  obtain ⟨entry, hentry⟩ := Document.exists_entry hid
  obtain ⟨payload, hcontent⟩ := Document.exists_text hentry htext
  obtain ⟨parent, -, hfirst⟩ := hplain.first_child id entry payload hentry hcontent
  exact h parent hfirst

theorem inlines_of_not_isElement {id : NodeId} (hid : id < doc.size)
    (h : doc.isElement id = false) : (doc.label? id).any (dialect {} doc).inlines = true := by
  obtain ⟨entry, hentry⟩ := Document.exists_entry hid
  obtain ⟨payload, hcontent⟩ := Document.exists_text hentry h
  rw [hentry, Option.any_some]
  show entry.content.isText = true
  rw [hcontent]
  rfl

/-- A root has no parent that it could be the first child of. -/
theorem isElement_of_root (hdoc : doc.Reachable) (hplain : doc.Decodable) {root : NodeId}
    (h : root ∈ doc.rootIds) : doc.isElement root = true := by
  have hroot := Forest.WellFormed.mem_rootIds.mp h
  refine isElement_of_head?_ne hplain (hdoc.wellFormed.lt_size_of_root root hroot) ?_
  intro parent hfirst
  have hparent := (hdoc.wellFormed.mem_children_iff parent root).mp (List.mem_of_mem_head? hfirst)
  rw [hdoc.wellFormed.parent?_root root hroot] at hparent
  cases hparent

/-- A text is written into the line above, so what is written one by one is an element. -/
theorem isElement_of_mem_groupIds (hdoc : doc.Reachable) (hplain : doc.Decodable)
    {parent id : NodeId} (h : id ∈ (dialect {} doc).groupIds doc (doc.children parent)) :
    doc.isElement id = true := by
  have hchild := (Dialect.mem_of_mem_groupIds h).1
  have hid := hdoc.wellFormed.child_lt_size hchild
  by_contra htext
  refine htext (isElement_of_head?_ne hplain hid ?_)
  intro other hfirst
  -- A node has one parent, so it comes first below this one, and no second time.
  have hother := (hdoc.wellFormed.mem_children_iff other id).mp (List.mem_of_mem_head? hfirst)
  rw [(hdoc.wellFormed.mem_children_iff parent id).mp hchild, Option.some.injEq] at hother
  subst hother
  obtain ⟨rest, hrest⟩ := List.head?_eq_some_iff.mp hfirst
  have hnodup := hdoc.wellFormed.nodup_children parent
  rw [hrest, List.nodup_cons] at hnodup
  rw [hrest, Dialect.groupIds,
    if_pos (inlines_of_not_isElement hid (Bool.not_eq_true _ ▸ htext))] at h
  exact hnodup.1 (List.mem_filter.mp h).1

/-! ## Section 2: Sketches -/

/-- There are several if there is another one. -/
theorem one_lt_length_iff {ids : List NodeId} (h : ids.Nodup) {id : NodeId} (hid : id ∈ ids) :
    1 < ids.length ↔ ∃ other ∈ ids, other ≠ id := by
  have hne := h.ne_singleton_iff id
  rw [or_iff_right (List.ne_nil_of_mem hid)] at hne
  rw [← hne]
  constructor
  · rintro hlt rfl
    exact Nat.lt_irrefl 1 hlt
  · intro hids
    have hpos := List.length_pos_of_mem hid
    by_contra hlt
    obtain ⟨other, hother⟩ := List.length_eq_one_iff.mp (by omega : ids.length = 1)
    rw [hother, List.mem_singleton] at hid
    exact hids (hid ▸ hother)

section Sketches

variable {s : Sketch}

theorem eq_plain_of_own {content : Content} {before after : Ledger Slot} {text : String}
    (h : own {} content before = .ok text after) : text = plain {} content := by
  rw [own_default] at h
  exact (EStateM.Result.ok.inj h).1.symm

/-- The text of an element in a sketch. -/
theorem own_eq_of_drawn (hs : (dialect {} doc).Drawn doc s) {entry : Entry}
    (hentry : doc.label? s.id = some entry) : s.own = plain {} entry.content := by
  obtain ⟨other, before, after, hother, -, hown⟩ := hs.exists_label
  obtain rfl := Option.some.inj (hentry.symm.trans hother)
  exact eq_plain_of_own hown

/-- Either there is no text in the line of a node, or it is the one of its first child. -/
theorem lead_cases (hdoc : doc.Reachable) (hs : (dialect {} doc).Drawn doc s) :
    (s.lead = "" ∧ doc.children s.id = s.group.map Sketch.id) ∨
      ∃ first entry payload, doc.children s.id = first :: s.group.map Sketch.id ∧
        doc.label? first = some entry ∧ entry.content = .text payload ∧
        s.lead = braced "" (Text.escapeText payload) := by
  have hlt : ∀ id ∈ doc.children s.id, id < doc.size := fun id hid =>
    hdoc.wellFormed.child_lt_size hid
  have hlead := hs.lead_eq
  have hgroup := hs.group_eq
  cases hchildren : doc.children s.id with
  | nil =>
    rw [hchildren] at hlead hgroup
    exact .inl ⟨hlead, hgroup.symm⟩
  | cons first rest =>
    rw [hchildren] at hlead hgroup hlt
    rw [Dialect.HasLead] at hlead
    rw [Dialect.groupIds] at hgroup
    split at hlead
    case isTrue hinlines =>
      rw [if_pos hinlines, filter_shows_default fun id hid => hlt id (List.mem_cons_of_mem _ hid)]
        at hgroup
      obtain ⟨entry, before, after, hentry, hown⟩ := hlead
      rw [hentry, Option.any_some] at hinlines
      have hplain := eq_plain_of_own hown
      cases hcontent : entry.content with
      | text payload =>
        rw [hcontent] at hplain
        exact .inr ⟨first, entry, payload, by rw [hgroup], hentry, hcontent, hplain⟩
      | element tag attributes =>
        have hisText : entry.content.isText = true := hinlines
        rw [hcontent] at hisText
        cases hisText
    case isFalse hinlines =>
      rw [if_neg hinlines, filter_shows_default hlt] at hgroup
      exact .inl ⟨hlead, hgroup.symm⟩

theorem isElement_of_mem_group (hdoc : doc.Reachable) (hplain : doc.Decodable)
    (hs : (dialect {} doc).Drawn doc s) {part : Sketch} (hpart : part ∈ s.group) :
    doc.isElement part.id = true := by
  apply isElement_of_mem_groupIds hdoc hplain
  rw [← hs.group_eq]
  exact List.mem_map_of_mem hpart

/-- In a group, the members are put in parentheses if there are several. -/
theorem settled_of_drawn (hdoc : doc.Reachable) (hplain : doc.Decodable)
    (hs : s.Everywhere ((dialect {} doc).Drawn doc)) : s.Everywhere Sketch.Settled := by
  refine hs.imp ?_
  intro s hs hinside
  refine ⟨own_ne_empty_of_drawn hplain.tagged hs, ?_⟩
  intro part hpart
  have hnodup : (s.group.map Sketch.id).Nodup := by
    rw [hs.group_eq]
    exact Dialect.nodup_groupIds (hdoc.wellFormed.nodup_children s.id)
  have hmem := List.mem_map_of_mem (f := Sketch.id) hpart
  have helements : ∀ other ∈ s.group, doc.isElement other.id = true := fun other hother =>
    isElement_of_mem_group hdoc hplain hs hother
  have hseveral := one_lt_length_iff hnodup hmem
  rw [List.length_map] at hseveral
  rw [Bool.eq_iff_iff, enclosed_iff hdoc hs hpart (hinside part hpart).inside.1, decide_eq_true_iff,
    hseveral]
  constructor
  · intro h
    obtain ⟨other, hother, hne, -⟩ := h
    exact ⟨other.id, List.mem_map_of_mem hother, hne⟩
  · intro h
    obtain ⟨id, hid, hne⟩ := h
    obtain ⟨other, hother, rfl⟩ := List.mem_map.mp hid
    exact ⟨other, hother, hne, helements other hother⟩

/-- The text of an element and the one after it are told apart by the brace. -/
theorem isHead_of_drawn (hdoc : doc.Reachable) (hplain : doc.Decodable)
    (hs : (dialect {} doc).Drawn doc s) (helement : doc.isElement s.id = true) :
    (∀ c ∈ s.own.toList, isSign c = false) ∧ IsPayload s.lead.toList := by
  obtain ⟨entry, tag, attributes, hentry, hcontent⟩ := Document.exists_element helement
  have hentryPlain := hplain.plain s.id entry hentry
  rw [hcontent] at hentryPlain
  constructor
  · intro c hc
    rw [own_eq_of_drawn hs hentry, hcontent] at hc
    have hchar := isElementChar_of_mem_plain hentryPlain c hc
    rw [Bool.eq_false_iff]
    intro hsign
    rw [isElementChar_of_isSign hsign] at hchar
    cases hchar
  · rcases lead_cases hdoc hs with ⟨hnone, -⟩ | ⟨first, other, payload, -, hother, htext, hlead⟩
    · rw [hnone]
      exact .inl rfl
    · rw [hlead]
      refine .inr ⟨(Text.escapeText payload).toList, ?_, ?_⟩
      · simp [braced]
      · intro hbrace
        have hpayload := hplain.plain first other hother
        rw [htext] at hpayload
        rcases Text.mem_escapeText hbrace with hbrace | hslash | hspace
        · exact hpayload.2 hbrace
        · cases hslash
        · cases hspace

/-- The nest of an element can be read back. -/
theorem readable_nest (hdoc : doc.Reachable) (hplain : doc.Decodable)
    (hs : s.Everywhere ((dialect {} doc).Drawn doc)) (helement : doc.isElement s.id = true) :
    s.nest.Readable := by
  -- The induction is on the parts of the sketch, all of which are of elements.
  induction hs with
  | @node s here inside ih =>
    rw [Sketch.nest_eq]
    refine .node ?_ ?_
    · obtain ⟨hown, hlead⟩ := isHead_of_drawn hdoc hplain here helement
      refine ⟨s.own.toList, s.lead.toList, String.toList_append, ?_, hown, hlead⟩
      intro hnil
      exact own_ne_empty_of_drawn hplain.tagged here (String.toList_eq_nil_iff.mp hnil)
    · intro member hmember
      obtain ⟨part, hpart, rfl⟩ := List.mem_map.mp hmember
      exact ih part hpart (isElement_of_mem_group hdoc hplain here hpart)

end Sketches

/-! ## Section 3: Documents -/

/-- The notation of a document with one root is a nest. -/
theorem exists_nest (hdoc : doc.Reachable) (hplain : doc.Decodable) {root : NodeId}
    (hroot : doc.rootIds = [root]) {supply : Supply} {result : Conversion Tables}
    (h : convert {} supply doc = .ok result) :
    ∃ s : Sketch, s.id = root ∧ s.Everywhere ((dialect {} doc).Drawn doc) ∧
      result.text.toList = s.nest.chars false := by
  obtain ⟨row, hrow, htext⟩ := Dialect.exists_sketches hdoc.wellFormed h
  obtain ⟨hids, hdrawn⟩ := Dialect.drawnRow_sketches hdoc.wellFormed hrow
  have hmem : root ∈ doc.rootIds := by
    rw [hroot]
    exact List.mem_singleton_self root
  have hroots := Forest.WellFormed.mem_rootIds.mp hmem
  rw [filter_shows_default fun id hid => hdoc.wellFormed.lt_size_of_root id
    (Forest.WellFormed.mem_rootIds.mp hid), hroot] at hids
  obtain ⟨s, rfl, hid⟩ := List.map_eq_singleton_iff.mp hids
  have hs := hdrawn s (List.mem_singleton_self s)
  refine ⟨s, hid, hs, ?_⟩
  have henclosed : s.enclosed = false := by
    rw [hs.inside.1.enclosed_eq, hid]
    exact not_encloses_of_root hdoc (hdoc.wellFormed.parent?_root root hroots)
  have hne : s.text .line 0 ≠ "" :=
    Sketch.text_ne_empty (own_ne_empty_of_drawn hplain.tagged hs.inside.1)
  rw [← henclosed, ← Sketch.toList_text_line (settled_of_drawn hdoc hplain hs) 0, htext]
  congr 1
  show Layout.line.join [s.text .line 0] = _
  rw [Layout.join, List.filter_cons_of_pos (by simpa using hne)]
  simp

/-- Elements at the same place of the same nest, and the texts in their lines. -/
inductive Matched (P Q : Document) : NodeId → NodeId → Prop where
  | element {s s' : Sketch} (hs : s.Everywhere ((dialect {} P).Drawn P))
      (hs' : s'.Everywhere ((dialect {} Q).Drawn Q)) (helement : P.isElement s.id = true)
      (helement' : Q.isElement s'.id = true) (hnest : s.nest = s'.nest) : Matched P Q s.id s'.id
  | text {a b : NodeId} {x y : Entry} {payload payload' : String} (hx : P.label? a = some x)
      (hy : Q.label? b = some y) (htext : x.content = .text payload)
      (htext' : y.content = .text payload')
      (hcollapse : Text.collapse payload.toList = Text.collapse payload'.toList) : Matched P Q a b

section Matching

variable {P Q : Document} {s s' : Sketch}

/-- Sketches with equal nests have equal parts. -/
theorem parts_eq_of_nest_eq (hP : P.Reachable) (hQ : Q.Reachable) (hplainP : P.Decodable)
    (hplainQ : Q.Decodable) (hs : (dialect {} P).Drawn P s) (hs' : (dialect {} Q).Drawn Q s')
    (helement : P.isElement s.id = true) (helement' : Q.isElement s'.id = true)
    (h : s.nest = s'.nest) :
    s.own = s'.own ∧ s.lead = s'.lead ∧ s.group.map Sketch.nest = s'.group.map Sketch.nest := by
  obtain ⟨hown, hlead⟩ := isHead_of_drawn hP hplainP hs helement
  obtain ⟨hown', hlead'⟩ := isHead_of_drawn hQ hplainQ hs' helement'
  rw [Sketch.nest_eq, Sketch.nest_eq, Nest.node.injEq, String.toList_append,
    String.toList_append] at h
  -- Nothing follows the payload.
  have hends : ∀ {tail : List Char}, IsPayload tail → Ends isSign tail := by
    intro tail htail
    rw [← List.append_nil tail]
    exact ends_payload htail trivial
  obtain ⟨howns, hleads⟩ := append_inj_of_ends hown hown' (hends hlead) (hends hlead') h.1
  exact ⟨String.toList_inj.mp howns, String.toList_inj.mp hleads, h.2⟩

theorem reading_eq_of_own (hplainP : P.Decodable) (hplainQ : Q.Decodable)
    (hs : (dialect {} P).Drawn P s) (hs' : (dialect {} Q).Drawn Q s')
    (helement : P.isElement s.id = true) (helement' : Q.isElement s'.id = true)
    (h : s.own = s'.own) :
    (P.label? s.id).map Entry.reading = (Q.label? s'.id).map Entry.reading := by
  obtain ⟨x, tag, attributes, hx, hcontent⟩ := Document.exists_element helement
  obtain ⟨y, tag', attributes', hy, hcontent'⟩ := Document.exists_element helement'
  have hplain := hplainP.plain s.id x hx
  have hplain' := hplainQ.plain s'.id y hy
  rw [own_eq_of_drawn hs hx, own_eq_of_drawn hs' hy, hcontent, hcontent'] at h
  rw [hcontent] at hplain
  rw [hcontent'] at hplain'
  rw [hx, hy, Option.map_some, Option.map_some, Entry.reading, Entry.reading, hcontent, hcontent',
    reading_eq_of_plain hplain hplain' h]

/-- The members of equal groups match one by one. -/
theorem forall₂_matched {row row' : List Sketch}
    (hrow : ∀ part ∈ row, part.Everywhere ((dialect {} P).Drawn P) ∧ P.isElement part.id = true)
    (hrow' : ∀ part ∈ row', part.Everywhere ((dialect {} Q).Drawn Q) ∧ Q.isElement part.id = true)
    (h : row.map Sketch.nest = row'.map Sketch.nest) :
    List.Forall₂ (Matched P Q) (row.map Sketch.id) (row'.map Sketch.id) := by
  induction row generalizing row' with
  | nil =>
    obtain rfl := List.map_eq_nil_iff.mp h.symm
    exact .nil
  | cons part rest ih =>
    cases row' with
    | nil => cases h
    | cons part' rest' =>
      rw [List.map_cons, List.map_cons, List.cons.injEq] at h
      obtain ⟨hpart, helement⟩ := hrow part List.mem_cons_self
      obtain ⟨hpart', helement'⟩ := hrow' part' List.mem_cons_self
      refine .cons (.element hpart hpart' helement helement' h.1) ?_
      exact ih (fun other hother => hrow other (List.mem_cons_of_mem part hother))
        (fun other hother => hrow' other (List.mem_cons_of_mem part' hother)) h.2

/-- Elements with equal nests have matching children, a text in the line included. -/
theorem children_matched (hP : P.Reachable) (hQ : Q.Reachable) (hplainP : P.Decodable)
    (hplainQ : Q.Decodable) (hs : s.Everywhere ((dialect {} P).Drawn P))
    (hs' : s'.Everywhere ((dialect {} Q).Drawn Q)) (hlead : s.lead = s'.lead)
    (hgroup : s.group.map Sketch.nest = s'.group.map Sketch.nest) :
    List.Forall₂ (Matched P Q) (P.children s.id) (Q.children s'.id) := by
  have hrows := forall₂_matched
    (fun part hpart => ⟨hs.inside.2 part hpart,
      isElement_of_mem_group hP hplainP hs.inside.1 hpart⟩)
    (fun part hpart => ⟨hs'.inside.2 part hpart,
      isElement_of_mem_group hQ hplainQ hs'.inside.1 hpart⟩) hgroup
  have hbraced : ∀ payload, braced "" payload ≠ "" := by
    intro payload
    simp [braced]
  rcases lead_cases hP hs.inside.1 with ⟨hnone, hids⟩ |
    ⟨first, x, payload, hids, hx, htext, hbraces⟩
  · rcases lead_cases hQ hs'.inside.1 with ⟨hnone', hids'⟩ | ⟨_, _, payload', _, _, _, hbraces'⟩
    · rw [hids, hids']
      exact hrows
    · rw [hnone, hbraces'] at hlead
      exact absurd hlead.symm (hbraced _)
  · rcases lead_cases hQ hs'.inside.1 with ⟨hnone', -⟩ |
      ⟨first', y, payload', hids', hy, htext', hbraces'⟩
    · rw [hnone', hbraces] at hlead
      exact absurd hlead (hbraced _)
    · rw [hids, hids']
      refine .cons (.text hx hy htext htext' ?_) hrows
      apply Text.collapse_eq_of_escapeText_eq
      rw [hbraces, hbraces'] at hlead
      simpa [braced] using hlead

/-- Two documents with one root each, made of plain elements with texts as first children only, have
the same tree if they have the same notation: up to the layout of blanks in texts and class lists,
empty identifiers and blank class lists, and the places of the two among the other attributes. -/
theorem sameTrees_of_text_eq (hP : P.Reachable) (hQ : Q.Reachable) (hplainP : P.Decodable)
    (hplainQ : Q.Decodable) {a b : NodeId} (hrootP : P.rootIds = [a]) (hrootQ : Q.rootIds = [b])
    {supply supply' : Supply} {result result' : Conversion Tables}
    (h : convert {} supply P = .ok result) (h' : convert {} supply' Q = .ok result')
    (htext : result.text = result'.text) : P.SameTrees Entry.reading Q := by
  obtain ⟨s, rfl, hs, hnest⟩ := exists_nest hP hplainP hrootP h
  obtain ⟨s', rfl, hs', hnest'⟩ := exists_nest hQ hplainQ hrootQ h'
  have helement := isElement_of_root hP hplainP (hrootP ▸ List.mem_singleton_self s.id)
  have helement' := isElement_of_root hQ hplainQ (hrootQ ▸ List.mem_singleton_self s'.id)
  have hsame : s.nest = s'.nest := by
    apply Nest.chars_injective (readable_nest hP hplainP hs helement)
      (readable_nest hQ hplainQ hs' helement')
    rw [← hnest, ← hnest', htext]
  refine ⟨Matched P Q, ?_, ?_, ?_⟩
  · rw [hrootP, hrootQ]
    exact .cons (.element hs hs' helement helement' hsame) .nil
  · intro a b hab
    cases hab with
    | element hs hs' helement helement' hnest =>
      obtain ⟨hown, -, -⟩ := parts_eq_of_nest_eq hP hQ hplainP hplainQ hs.inside.1 hs'.inside.1
        helement helement' hnest
      exact reading_eq_of_own hplainP hplainQ hs.inside.1 hs'.inside.1 helement helement' hown
    | text hx hy htext htext' hcollapse =>
      rw [hx, hy, Option.map_some, Option.map_some, Entry.reading, Entry.reading, htext, htext',
        Content.reading, Content.reading, hcollapse]
  · intro a b hab
    cases hab with
    | element hs hs' helement helement' hnest =>
      obtain ⟨-, hlead, hgroup⟩ := parts_eq_of_nest_eq hP hQ hplainP hplainQ hs.inside.1
        hs'.inside.1 helement helement' hnest
      exact children_matched hP hQ hplainP hplainQ hs hs' hlead hgroup
    | text hx hy htext htext' hcollapse =>
      rw [hplainP.childless _ _ _ hx htext, hplainQ.childless _ _ _ hy htext']
      exact .nil

end Matching

/-- A paragraph with a text and a bold element, with its attributes in one order and in another one,
and with the blanks laid out in two ways. -/
theorem sameTrees_of_paragraph :
    let P : Document := List.foldl Document.perform Forest.empty
      [.addRootElement "p" (.ofList [("id", "x"), ("class", "a  b"), ("title", "t")]),
        .addText "one  two", .addElement "b" .empty, .attach 1 0, .attach 2 0]
    let Q : Document := List.foldl Document.perform Forest.empty
      [.addRootElement "p" (.ofList [("class", " a b"), ("title", "t"), ("id", "x")]),
        .addElement "b" (.ofList [("id", ""), ("class", " ")]), .addText "one two", .attach 2 0,
        .attach 1 0]
    (P.Reachable ∧ P.Decodable ∧ P.rootIds = [0]) ∧ (Q.Reachable ∧ Q.Decodable ∧ Q.rootIds = [0]) ∧
      (∃ result result', convert {} .standard P = .ok result ∧
        convert {} .standard Q = .ok result' ∧ result.text = "p#x.a.b[title=t]\x7bone two\x7d>b" ∧
        result.text = result'.text) ∧ P.SameTrees Entry.reading Q := by
  intro P Q
  have hrootP : P.rootIds = [0] := Forest.rootIds_of_roots rfl
  have hrootQ : Q.rootIds = [0] := Forest.rootIds_of_roots rfl
  have hP : P.Reachable := ⟨Forest.empty, _, rfl, rfl⟩
  have hQ : Q.Reachable := ⟨Forest.empty, _, rfl, rfl⟩
  have hplainP : P.Decodable := by
    have hp : (Content.element "p"
        (.ofList [("id", "x"), ("class", "a  b"), ("title", "t")])).Plain := by
      rw [Content.Plain, OrderedMap.entries_ofList (by decide)]
      simp [isNameChar]
    have htext : (Content.text "one  two").Plain := by simp [Content.Plain]
    have hb : (Content.element "b" .empty).Plain := by simp [Content.Plain, OrderedMap.empty]
    refine ⟨?_, ?_, ?_⟩
    · intro id entry hentry
      rcases id with _ | _ | _ | id
      · cases hentry; exact hp
      · cases hentry; exact htext
      · cases hentry; exact hb
      · cases hentry
    · intro id entry payload hentry hcontent
      rcases id with _ | _ | _ | id
      · cases hentry; cases hcontent
      · exact ⟨0, rfl, rfl⟩
      · cases hentry; cases hcontent
      · cases hentry
    · intro id entry payload hentry hcontent
      rcases id with _ | _ | _ | id
      · cases hentry; cases hcontent
      · rfl
      · cases hentry; cases hcontent
      · cases hentry
  have hplainQ : Q.Decodable := by
    have hp : (Content.element "p"
        (.ofList [("class", " a b"), ("title", "t"), ("id", "x")])).Plain := by
      rw [Content.Plain, OrderedMap.entries_ofList (by decide)]
      simp [isNameChar]
    have hb : (Content.element "b" (.ofList [("id", ""), ("class", " ")])).Plain := by
      rw [Content.Plain, OrderedMap.entries_ofList (by decide)]
      simp [isNameChar]
    have htext : (Content.text "one two").Plain := by simp [Content.Plain]
    refine ⟨?_, ?_, ?_⟩
    · intro id entry hentry
      rcases id with _ | _ | _ | id
      · cases hentry; exact hp
      · cases hentry; exact hb
      · cases hentry; exact htext
      · cases hentry
    · intro id entry payload hentry hcontent
      rcases id with _ | _ | _ | id
      · cases hentry; cases hcontent
      · cases hentry; cases hcontent
      · exact ⟨0, rfl, rfl⟩
      · cases hentry
    · intro id entry payload hentry hcontent
      rcases id with _ | _ | _ | id
      · cases hentry; cases hcontent
      · cases hentry; cases hcontent
      · rfl
      · cases hentry
  have hresultP : ∃ result, convert {} .standard P = .ok result ∧
      result.text = "p#x.a.b[title=t]\x7bone two\x7d>b" := by
    unfold convert Dialect.convertWith Dialect.convert
    rw [hrootP]
    exact ⟨_, rfl, rfl⟩
  have hresultQ : ∃ result, convert {} .standard Q = .ok result ∧
      result.text = "p#x.a.b[title=t]\x7bone two\x7d>b" := by
    unfold convert Dialect.convertWith Dialect.convert
    rw [hrootQ]
    exact ⟨_, rfl, rfl⟩
  obtain ⟨result, hresult, htext⟩ := hresultP
  obtain ⟨result', hresult', htext'⟩ := hresultQ
  have hsame := htext.trans htext'.symm
  exact ⟨⟨hP, hplainP, hrootP⟩, ⟨hQ, hplainQ, hrootQ⟩,
    ⟨result, result', hresult, hresult', htext, hsame⟩,
    sameTrees_of_text_eq hP hQ hplainP hplainQ hrootP hrootQ hresult hresult' hsame⟩

end TreeNotation.Html
