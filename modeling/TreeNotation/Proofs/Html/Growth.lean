import TreeNotation.Html.Document
import TreeNotation.Proofs.Forest.Relabelling

/-!
# Growing HTML Documents

An HTML document grows as the forest of its contents does: sibling links and element counts follow
the forest, they do not lead it.

- **Runs**: `Operation`, `perform`, and `Reachable` for what operations lead to;
- **Contents**: `contents_perform`, and `Reachable.wellFormed` from it;
- **Invariants**: `Reachable.invariant`, with `of_settled` for what an attached node leaves stale.
-/

namespace TreeNotation.Html

open Writing (Attributes)

/-- An operation on a document, with any numbers as operands. -/
inductive Operation where
  | addElement (tag : String) (attributes : Attributes)
  | addRootElement (tag : String) (attributes : Attributes)
  | addText (text : String)
  | markRoot (id : NodeId)
  | attach (child parent : NodeId)

/-- What an operation does to the forest of contents. -/
def Operation.bare : Operation → Forest.Operation Content
  | .addElement tag attributes => .push (Document.elementContent tag attributes)
  | .addRootElement tag attributes => .pushRoot (Document.elementContent tag attributes)
  | .addText text => .push (.text (Text.trim text))
  | .markRoot id => .markRoot id
  | .attach child parent => .attach child parent

namespace Document

/-! ## Section 1: Operations one after the other -/

/-- The document that an operation leaves, whether it is refused or not. -/
def perform (doc : Document) : Operation → Document
  | .addElement tag attributes => (doc.addElement tag attributes).2
  | .addRootElement tag attributes => (doc.addRootElement tag attributes).2
  | .addText text => (doc.addText text).2
  | .markRoot id => (Forest.registration id).after doc
  | .attach child parent => (attachment child parent).after doc

/-- The documents that operations lead to from the empty one. -/
def Reachable : Document → Prop := ReachedFrom (fun doc => doc = Forest.empty) perform

/-! ## Section 2: The forest of contents -/

/-- The forest without sibling links and counts. -/
def contents (doc : Document) : Forest Content := doc.relabel Entry.content

theorem label?_modifyEntry (doc : Document) (id other : NodeId) (change : Entry → Entry) :
    (doc.modifyEntry id change).label? other =
      if id = other then (doc.label? other).map change else doc.label? other := by
  unfold modifyEntry Forest.label?
  rw [Forest.node?_modify]
  split
  case isTrue => cases doc.node? other <;> rfl
  case isFalse => rfl

/-- What is read off the entry of a node, after an entry has been changed. -/
theorem map_label?_modifyEntry {β : Type} (view : Entry → β) (doc : Document) (id other : NodeId)
    (change : Entry → Entry) :
    ((doc.modifyEntry id change).label? other).map view =
      if id = other then (doc.label? other).map fun entry => view (change entry)
      else (doc.label? other).map view := by
  rw [label?_modifyEntry]
  split
  case isTrue => rw [Option.map_map]; rfl
  case isFalse => rfl

theorem contents_modifyEntry (doc : Document) (id : NodeId) {change : Entry → Entry}
    (h : ∀ entry, (change entry).content = entry.content) :
    (doc.modifyEntry id change).contents = doc.contents := by
  refine Forest.ext_node? ?_ rfl rfl
  intro other
  unfold contents modifyEntry
  rw [Forest.node?_relabel, Forest.node?_relabel, Forest.node?_modify]
  split
  case isTrue =>
    cases doc.node? other with
    | none => rfl
    | some node => simp [Node.relabel, h]
  case isFalse => rfl

theorem contents_relink (doc : Document) (parent : NodeId) :
    (doc.relink parent).contents = doc.contents := by
  -- Links are set one node after the other; then the count is put in.
  have hlinks : ∀ (places : List (NodeId × Option NodeId × Option NodeId)) (doc : Document),
      contents (places.foldl link doc) = doc.contents := by
    intro places
    induction places with
    | nil => intro doc; rfl
    | cons place places ih =>
      intro doc
      rw [List.foldl_cons, ih]
      exact contents_modifyEntry doc place.1 fun _ => rfl
  unfold relink
  rw [contents_modifyEntry]
  · exact hlinks _ doc
  · intro entry; rfl

theorem children_contents (doc : Document) (id : NodeId) :
    doc.contents.children id = doc.children id := Forest.children_relabel doc id

theorem isElement_eq (doc : Document) (id : NodeId) :
    doc.isElement id = (doc.contents.label? id).any fun content => !content.isText := by
  unfold isElement contents
  rw [Forest.label?_relabel]
  cases doc.label? id <;> rfl

/-- The document with the links and counts of the node that a child has left and of its new parent
brought up to date. -/
def settled (attached : Document) (parent : NodeId) (left : Option NodeId) : Document :=
  (left.elim attached attached.relink).relink parent

theorem attach_eq (doc : Document) (child parent : NodeId) :
    doc.attach child parent =
      (Forest.attach doc child parent).map fun result => settled result.2 parent result.1 := by
  unfold attach Forest.attach Attempt.outcome
  simp only [attachment, bind, EStateM.bind]
  cases Forest.attachment child parent doc with
  | error e after => rfl
  | ok left after => cases left <;> rfl

/-- Links and counts are brought up to date once nothing can be refused any more. -/
theorem clean_attachment (child parent : NodeId) : (attachment child parent).Clean := by
  refine (Forest.clean_attachment child parent).bind fun left attached => ?_
  cases left <;> exact ⟨_, _, rfl⟩

/-- A node that is not attached leaves the document as it is. -/
theorem perform_attach_eq (doc : Document) (child parent : NodeId) :
    doc.perform (.attach child parent) =
      match doc.attach child parent with
      | .ok after => after
      | .error _ => doc := by
  rw [perform, (clean_attachment child parent).after_eq, attach]
  cases (attachment child parent).outcome doc <;> rfl

theorem contents_settled (attached : Document) (parent : NodeId) (left : Option NodeId) :
    (settled attached parent left).contents = attached.contents := by
  unfold settled
  cases left with
  | none => exact contents_relink attached parent
  | some old => exact (contents_relink _ parent).trans (contents_relink attached old)

/-- The contents grow as any forest does. -/
theorem contents_perform (doc : Document) (op : Operation) :
    (doc.perform op).contents = doc.contents.perform op.bare := by
  cases op with
  | addElement tag attributes => exact (Forest.push_relabel doc _).symm
  | addRootElement tag attributes => exact (Forest.pushRoot_relabel doc _).symm
  | addText text => exact (Forest.push_relabel doc _).symm
  | markRoot id => exact (Forest.perform_markRoot_relabel doc id).symm
  | attach child parent =>
    -- The links and counts that follow are no contents.
    have hattach := Forest.attach_relabel (g := Entry.content) doc child parent
    rw [perform_attach_eq, attach_eq, Operation.bare, Forest.perform_attach_eq, contents, contents,
      hattach]
    cases Forest.attach doc child parent with
    | error e => rfl
    | ok result => exact contents_settled result.2 parent result.1

theorem contents_foldl_perform (doc : Document) (ops : List Operation) :
    contents (ops.foldl perform doc) = doc.contents.performAll (ops.map Operation.bare) := by
  induction ops generalizing doc with
  | nil => rfl
  | cons op ops ih =>
    rw [List.foldl_cons, ih, contents_perform]
    rfl

theorem wellFormed_perform {doc : Document} (h : Forest.WellFormed doc) (op : Operation) :
    Forest.WellFormed (doc.perform op) := by
  have hcontents : (doc.perform op).contents.WellFormed := by
    rw [contents_perform]
    exact (Forest.wellFormed_relabel_iff.mpr h).perform op.bare
  exact Forest.wellFormed_relabel_iff.mp hcontents

theorem Reachable.wellFormed {doc : Document} (h : doc.Reachable) : Forest.WellFormed doc := by
  apply ReachedFrom.induction ?_ ?_ h
  · intro doc hdoc
    rw [hdoc]; exact Forest.WellFormed.empty
  · intro doc op hdoc
    exact wellFormed_perform hdoc op

/-! ## Section 3: Invariants -/

theorem wellFormed_relink {doc : Document} (h : Forest.WellFormed doc) (parent : NodeId) :
    Forest.WellFormed (doc.relink parent) := by
  have hcontents : (doc.relink parent).contents.WellFormed := by
    rw [contents_relink]
    exact Forest.wellFormed_relabel_iff.mpr h
  exact Forest.wellFormed_relabel_iff.mp hcontents

/-- What new nodes and attached ones leave true, whatever the roots are, is true of all documents
that operations lead to. -/
theorem Reachable.invariant {P : Document → Prop} (hempty : P Forest.empty)
    (hpush : ∀ doc content, Forest.WellFormed doc → P doc →
      P (Forest.push doc (.ofContent content)).2)
    (hroots : ∀ (doc : Document) roots, P doc → P { doc with roots := roots })
    (hattach : ∀ (doc : Document) child parent left attached, Forest.WellFormed doc → P doc →
      Forest.attach doc child parent = .ok (left, attached) → P (settled attached parent left))
    {doc : Document} (h : doc.Reachable) : P doc := by
  -- The invariant alone may not be kept: a new node has to be unknown to all lists.
  have hboth : Forest.WellFormed doc ∧ P doc := by
    apply ReachedFrom.induction (P := fun doc => Forest.WellFormed doc ∧ P doc) ?_ ?_ h
    · intro doc hdoc
      rw [hdoc]; exact ⟨Forest.WellFormed.empty, hempty⟩
    · intro doc op hboth
      obtain ⟨hdoc, hP⟩ := hboth
      refine ⟨wellFormed_perform hdoc op, ?_⟩
      cases op with
      | addElement tag attributes => exact hpush doc _ hdoc hP
      | addRootElement tag attributes =>
        exact hroots _ _ (hpush doc (elementContent tag attributes) hdoc hP)
      | addText text => exact hpush doc _ hdoc hP
      | markRoot id =>
        -- Marking a root is the operation on forests, and it touches no node.
        show P (Forest.perform doc (.markRoot id))
        rcases Forest.perform_markRoot doc id with hsame | ⟨hmarked, -⟩
        · rw [hsame]; exact hP
        · rw [hmarked]; exact hroots doc _ hP
      | attach child parent =>
        rw [perform_attach_eq, attach_eq]
        cases hresult : Forest.attach doc child parent with
        | error e => exact hP
        | ok result => exact hattach doc child parent result.1 result.2 hdoc hP hresult
  exact hboth.2

/-- What relinking a node makes right of it is right of all nodes once the two nodes have been
relinked that an attached node has left and joined. -/
theorem of_settled {P : (NodeId → Prop) → Document → Prop}
    (hmono : ∀ {stale stale' doc}, (∀ id, stale id → stale' id) → P stale doc → P stale' doc)
    (hrelink : ∀ {stale} {doc : Document} parent, Forest.WellFormed doc → P stale doc →
      P (fun id => stale id ∧ id ≠ parent) (doc.relink parent))
    {doc attached : Document} {child parent : NodeId} {left : Option NodeId}
    (hdoc : Forest.WellFormed doc)
    (hattach : Forest.attach doc child parent = .ok (left, attached))
    (h : P (fun id => doc.parent? child = some id ∨ id = parent) attached) :
    P (fun _ => False) (settled attached parent left) := by
  obtain ⟨-, -, -, hleft, -⟩ := Forest.attach_eq_ok_iff.mp hattach
  have hwell : Forest.WellFormed attached := by
    have hperform : Forest.perform doc (.attach child parent) = attached := by
      rw [Forest.perform_attach_eq, hattach]
    exact hperform ▸ hdoc.perform (.attach child parent)
  -- Other than the new parent, only the node that the child has left can be stale.
  have hstale : ∀ id, doc.parent? child = some id ∨ id = parent → id ≠ parent →
      left = some id := by
    intro id hid hne
    rw [hleft, hid.resolve_right hne]
    simp [Option.filter, hne]
  unfold settled
  cases left with
  | none =>
    -- One node was stale, and it has been relinked.
    apply hmono ?_ (hrelink parent hwell h)
    intro id hid
    cases hstale id hid.1 hid.2
  | some old =>
    -- Both nodes that were stale have been relinked.
    apply hmono ?_ (hrelink parent (wellFormed_relink hwell old) (hrelink old hwell h))
    intro id hid
    obtain ⟨⟨hid, hneold⟩, hne⟩ := hid
    cases hstale id hid hne
    exact hneold rfl

end Document

end TreeNotation.Html
