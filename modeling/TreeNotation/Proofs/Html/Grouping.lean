import TreeNotation.Proofs.Html.Counts
import TreeNotation.Proofs.Writing.Sketch

/-!
# Parentheses in HTML Notation

A node with a group below it is put in parentheses if elements are written beside it, so that what
follows it cannot be taken for a part of its group. Texts beside it do not count, and neither do
further roots beside a root.

- **Counts**: `encloses_iff`, which elements are looked at;
- **Notation**: `Sketch.text_of_enclosed`, where the parentheses stand;
- **Documents**: `enclosed_iff_element_beside`.
-/

namespace TreeNotation

open Token (Ledger Supply bind_eq_ok_iff)
open Writing

/-! ## Section 1: Notation in parentheses -/

/-- A node with a group is written in parentheses if it is to be enclosed. -/
theorem Writing.Sketch.text_of_enclosed {layout : Layout} {s : Sketch}
    (henclosed : s.enclosed = true) (hgroup : s.group ≠ [])
    (hown : ∀ part ∈ s.group, part.own ≠ "") (level : Nat) :
    s.text layout level = layout.margin level ++ ("(" ++ (s.own ++ s.lead ++
      layout.group (Sketch.texts layout (level + 1) s.group)) ++ ")") := by
  obtain ⟨id, own, lead, enclosed, group⟩ := s
  simp only [Sketch.own, Sketch.lead, Sketch.enclosed, Sketch.group] at *
  obtain ⟨part, hpart⟩ := List.exists_mem_of_ne_nil group hgroup
  -- The first line of the group is not empty, as one of its parts is not.
  have hwritten : ((Sketch.texts layout (level + 1) group).all String.isEmpty) = false := by
    rw [Sketch.texts_eq_map, List.all_eq_false]
    refine ⟨_, List.mem_map_of_mem hpart, ?_⟩
    simpa using Sketch.text_ne_empty (hown part hpart)
  have hne : (layout.group (Sketch.texts layout (level + 1) group)).isEmpty = false := by
    unfold Layout.group
    rw [hwritten]
    cases layout <;> simp [Layout.descend]
  rw [Sketch.text]
  simp only [hne, henclosed, Bool.not_false, Bool.and_self, if_true]

namespace Html

variable {config : Config} {doc : Document}

/-! ## Section 2: Elements beside a node -/

theorem own_ne_empty {options : HtmlOptions} {content : Content}
    (htag : ∀ tag attributes, content = .element tag attributes → tag ≠ "")
    {before after : Ledger Slot} {text : String}
    (h : own options content before = .ok text after) : text ≠ "" := by
  cases content with
  | text payload => cases h; simp [braced]
  | element tag attributes =>
    obtain ⟨classes, mid, -, h⟩ := bind_eq_ok_iff.mp h
    obtain ⟨linked, later, -, h⟩ := bind_eq_ok_iff.mp h
    obtain ⟨shown, last, -, h⟩ := bind_eq_ok_iff.mp h
    cases h
    simp [htag tag attributes rfl]

theorem isWritten_eq (config : Config) (doc : Document) (id : NodeId) :
    isWritten config.html doc id = (doc.isElement id && (dialect config doc).shows doc id) := by
  unfold isWritten Document.isElement Dialect.shows
  cases doc.label? id <;> rfl

theorem not_inlines_of_isElement {id : NodeId} (h : doc.isElement id = true) :
    (doc.label? id).any (dialect config doc).inlines = false := by
  unfold Document.isElement at h
  cases hlabel : doc.label? id with
  | none => rfl
  | some entry =>
    rw [hlabel, Option.any_some, Bool.not_eq_true'] at h
    exact h

/-- A node is enclosed if its parent has another child that is an element and is written. -/
theorem encloses_iff (hdoc : doc.Reachable) {parent id : NodeId}
    (hparent : doc.parent? id = some parent) :
    (dialect config doc).encloses id = true ↔
      ∃ other ∈ doc.children parent, other ≠ id ∧ isWritten config.html doc other = true := by
  have hcount : writtenSiblings config.html doc id =
      (doc.children parent).countP fun other => other ≠ id && isWritten config.html doc other := by
    rw [Document.writtenSiblings_eq hdoc.wellFormed hdoc.counted, Document.countP_ne_and
      (hdoc.wellFormed.nodup_children parent)
      ((hdoc.wellFormed.mem_children_iff parent id).mpr hparent)]
    unfold Document.countBeside
    rw [hparent]
  show decide (0 < writtenSiblings config.html doc id) = true ↔ _
  rw [decide_eq_true_iff, hcount, List.countP_pos_iff]
  simp

theorem not_encloses_of_root (hdoc : doc.Reachable) {id : NodeId}
    (hparent : doc.parent? id = none) : (dialect config doc).encloses id = false := by
  show decide (0 < writtenSiblings config.html doc id) = false
  rw [Document.writtenSiblings_eq hdoc.wellFormed hdoc.counted]
  unfold Document.countBeside
  rw [hparent]
  rfl

/-- No element of the document has an empty tag. -/
def Document.Tagged (doc : Document) : Prop :=
  ∀ id entry tag attributes, doc.label? id = some entry →
    entry.content = .element tag attributes → tag ≠ ""

/-- A sketch in a document whose tags are not empty begins with a text of its own. -/
theorem own_ne_empty_of_drawn (htags : doc.Tagged) {s : Sketch}
    (hs : (dialect config doc).Drawn doc s) : s.own ≠ "" := by
  obtain ⟨entry, before, after, hlabel, -, hown⟩ := hs.exists_label
  exact own_ne_empty (fun tag attributes => htags s.id entry tag attributes hlabel) hown

/-- The elements that are written beside a node are those with a sketch beside its sketch. -/
theorem enclosed_iff (hdoc : doc.Reachable) {s part : Sketch}
    (hs : (dialect config doc).Drawn doc s) (hpart : part ∈ s.group)
    (hdrawn : (dialect config doc).Drawn doc part) :
    part.enclosed = true ↔
      ∃ other ∈ s.group, other.id ≠ part.id ∧ doc.isElement other.id = true := by
  have hmem : ∀ other ∈ s.group,
      other.id ∈ (dialect config doc).groupIds doc (doc.children s.id) := by
    intro other hother
    rw [← hs.group_eq]
    exact List.mem_map_of_mem hother
  have hparent : doc.parent? part.id = some s.id :=
    (hdoc.wellFormed.mem_children_iff s.id part.id).mp
      (Dialect.mem_of_mem_groupIds (hmem part hpart)).1
  rw [hdrawn.enclosed_eq, encloses_iff hdoc hparent]
  constructor
  · intro h
    obtain ⟨id, hid, hne, hwritten⟩ := h
    rw [isWritten_eq, Bool.and_eq_true] at hwritten
    -- An element is not written into the line above, so it has a sketch of its own.
    have hsketch : id ∈ s.group.map Sketch.id := by
      rw [hs.group_eq]
      apply Dialect.mem_groupIds hid hwritten.2
      exact not_inlines_of_isElement hwritten.1
    obtain ⟨other, hother, rfl⟩ := List.mem_map.mp hsketch
    exact ⟨other, hother, hne, hwritten.1⟩
  · intro h
    obtain ⟨other, hother, hne, helement⟩ := h
    obtain ⟨hchild, hshows⟩ := Dialect.mem_of_mem_groupIds (hmem other hother)
    refine ⟨other.id, hchild, hne, ?_⟩
    rw [isWritten_eq, helement, hshows]
    rfl

/-! ## Section 3: Documents -/

/-- In the notation of a document whose tags are not empty, the nodes below one node stand side by
side, and one of them that has a group of its own is put in parentheses exactly if another one is an
element. Roots are not put in parentheses. -/
theorem enclosed_iff_element_beside (hdoc : doc.Reachable) (htags : doc.Tagged)
    {supply : Supply} {result : Conversion Tables}
    (h : convert config supply doc = .ok result) :
    ∃ roots, (dialect config doc).sketches supply doc = .ok roots ∧
      result.text = config.layout.join (Sketch.texts config.layout 0 roots) ∧
      ∀ root ∈ roots, root.enclosed = false ∧ root.Everywhere fun s =>
        s.group.map Sketch.id = (dialect config doc).groupIds doc (doc.children s.id) ∧
        ∀ part ∈ s.group, part.group ≠ [] →
          (part.enclosed = true ↔
            ∃ other ∈ s.group, other.id ≠ part.id ∧ doc.isElement other.id = true) ∧
          (part.enclosed = true → ∀ level, part.text config.layout level =
            config.layout.margin level ++ ("(" ++ (part.own ++ part.lead ++
              config.layout.group (Sketch.texts config.layout (level + 1) part.group)) ++ ")")) := by
  obtain ⟨roots, hroots, htext⟩ := Dialect.exists_sketches hdoc.wellFormed h
  obtain ⟨hids, hdrawn⟩ := Dialect.drawnRow_sketches hdoc.wellFormed hroots
  refine ⟨roots, hroots, htext, ?_⟩
  intro root hroot
  have hwritten := hdrawn root hroot
  constructor
  · -- A root has no parent, and so no elements beside it.
    rw [hwritten.inside.1.enclosed_eq]
    apply not_encloses_of_root hdoc
    have hid : root.id ∈ doc.rootIds.filter ((dialect config doc).shows doc) := by
      rw [← hids]
      exact List.mem_map_of_mem hroot
    exact hdoc.wellFormed.parent?_root root.id
      (Forest.WellFormed.mem_rootIds.mp (List.mem_filter.mp hid).1)
  · refine hwritten.imp ?_
    intro s hs hinside
    refine ⟨hs.group_eq, ?_⟩
    intro part hpart hgroup
    refine ⟨enclosed_iff hdoc hs hpart (hinside part hpart).inside.1, ?_⟩
    intro henclosed
    apply Sketch.text_of_enclosed henclosed hgroup
    intro inner hinner
    exact own_ne_empty_of_drawn htags ((hinside part hpart).inside.2 inner hinner).inside.1

/-- A paragraph with a bold element around an italic one, and an underlined element beside it. -/
theorem enclosed_beside_underlined :
    let doc : Document := List.foldl Document.perform Forest.empty
      [.addRootElement "p" OrderedMap.empty, .addElement "b" OrderedMap.empty,
        .addElement "i" OrderedMap.empty, .addElement "u" OrderedMap.empty, .attach 1 0,
        .attach 2 1, .attach 3 0]
    doc.Reachable ∧ doc.Tagged ∧
      ∃ result, convert {} .standard doc = .ok result ∧ result.text = "p>(b>i)+u" ∧
        ∃ roots, (dialect {} doc).sketches .standard doc = .ok roots ∧
          result.text = Layout.line.join (Sketch.texts .line 0 roots) := by
  intro doc
  have hroots : doc.rootIds = [0] := Forest.rootIds_of_roots rfl
  have hdoc : doc.Reachable := ⟨Forest.empty, _, rfl, rfl⟩
  have htags : doc.Tagged := by
    intro id entry tag attributes hentry hcontent
    match id with
    | 0 | 1 | 2 | 3 => cases hentry; cases hcontent; decide
    | id + 4 => cases hentry
  have hresult : ∃ result, convert {} .standard doc = .ok result ∧ result.text = "p>(b>i)+u" := by
    unfold convert Dialect.convertWith Dialect.convert
    rw [hroots]
    exact ⟨_, rfl, rfl⟩
  obtain ⟨result, hresult, htext⟩ := hresult
  obtain ⟨roots, hsketches, hjoin, -⟩ := enclosed_iff_element_beside hdoc htags hresult
  exact ⟨hdoc, htags, result, hresult, htext, roots, hsketches, hjoin⟩

/-- In a row without ambiguity, every node with a group is enclosed if something follows it. -/
def Unambiguous (row : List Sketch) : Prop :=
  ∀ before s next after, row = before ++ s :: next :: after → s.group ≠ [] → s.enclosed = true

/-- The notation `p>b>i+{tail}` of a paragraph and the notation `a>b+c` of two roots do not tell
where what follows the plus belongs. -/
theorem ambiguous_before_text_and_root :
    let P : Document := List.foldl Document.perform Forest.empty
      [.addRootElement "p" OrderedMap.empty, .addElement "b" OrderedMap.empty,
        .addElement "i" OrderedMap.empty, .addText "tail", .attach 1 0, .attach 2 1, .attach 3 0]
    let Q : Document := List.foldl Document.perform Forest.empty
      [.addRootElement "a" OrderedMap.empty, .addElement "b" OrderedMap.empty,
        .addRootElement "c" OrderedMap.empty, .attach 1 0]
    (P.Reachable ∧ P.Tagged ∧
      (convert {} .standard P).map Conversion.text = .ok "p>b>i+{tail}" ∧
      ∃ roots, (dialect {} P).sketches .standard P = .ok roots ∧
        ¬ ∀ root ∈ roots, root.Everywhere fun s => Unambiguous s.group) ∧
    (Q.Reachable ∧ Q.Tagged ∧
      (convert {} .standard Q).map Conversion.text = .ok "a>b+c" ∧
      ∃ roots, (dialect {} Q).sketches .standard Q = .ok roots ∧ ¬ Unambiguous roots) := by
  intro P Q
  constructor
  · have hroots : P.rootIds = [0] := Forest.rootIds_of_roots rfl
    refine ⟨⟨Forest.empty, _, rfl, rfl⟩, ?_, ?_, ?_⟩
    · intro id entry tag attributes hentry hcontent
      match id with
      | 0 | 1 | 2 => cases hentry; cases hcontent; decide
      | 3 => cases hentry; cases hcontent
      | id + 4 => cases hentry
    · unfold convert Dialect.convertWith Dialect.convert
      rw [hroots]
      rfl
    · refine ⟨[.node 0 "p" "" false
        [.node 1 "b" "" false [.node 2 "i" "" false []], .node 3 "{tail}" "" true []]], ?_, ?_⟩
      · unfold Dialect.sketches Forest.trees
        rw [hroots]
        rfl
      · -- The text counts the element beside it, and the element does not count the text.
        intro h
        have hrow := (h _ List.mem_cons_self).inside.1 [] _ _ [] rfl (by decide)
        cases hrow
  · have hroots : Q.rootIds = [0, 2] := by
      apply List.mergeSort_of_pairwise
      decide
    refine ⟨⟨Forest.empty, _, rfl, rfl⟩, ?_, ?_, ?_⟩
    · intro id entry tag attributes hentry hcontent
      match id with
      | 0 | 1 | 2 => cases hentry; cases hcontent; decide
      | id + 3 => cases hentry
    · unfold convert Dialect.convertWith Dialect.convert
      rw [hroots]
      rfl
    · refine ⟨[.node 0 "a" "" false [.node 1 "b" "" false []], .node 2 "c" "" false []], ?_, ?_⟩
      · unfold Dialect.sketches Forest.trees
        rw [hroots]
        rfl
      · intro h
        have hrow := h [] _ _ [] rfl (by decide)
        cases hrow

end Html

end TreeNotation
