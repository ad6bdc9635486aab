import TreeNotation.Proofs.Forest.Attaching
import TreeNotation.Proofs.Html.Links
import TreeNotation.Proofs.Json.Growth
import TreeNotation.Proofs.Xml.Growth

/-!
# Attaching in Any Format

Documents of all formats attach nodes by the one rule of forests. An HTML document brings links and
counts up to date as well, in the two lists that change and nowhere else.

- **HTML**: `Html.Attaches`, the rule for the contents and a frame for links and counts;
- **Formats**: `attaching_rule`.
-/

namespace TreeNotation

open Forest (Attaching Refused)

/-! ## Section 1: HTML -/

namespace Html.Document

variable {doc : Document} {child parent : NodeId}

/-- What an attempt to attach `child` below `parent` does to a document. -/
structure Attaches (doc : Document) (child parent : NodeId) : Prop where
  contents : Attaching (fun _ => ()) doc.contents child parent
    ((doc.attach child parent).map fun _ => ()) (doc.perform (.attach child parent)).contents
  of_refused : ∀ e, Refused doc.contents child parent e →
    doc.perform (.attach child parent) = doc
  stays : doc.parent? child = some parent → doc.perform (.attach child parent) = doc
  /-- A node is as before if it is neither the child, nor the node that the child leaves or joins,
  nor a child of one of them. -/
  node?_other : ∀ id, id ≠ child →
    (∀ above, above = parent ∨ doc.parent? child = some above →
      id ≠ above ∧ id ∉ doc.children above) →
    (doc.perform (.attach child parent)).node? id = doc.node? id

theorem map_attach (doc : Document) (child parent : NodeId) :
    ((doc.attach child parent).map fun _ => ()) =
      ((Forest.attach doc.contents child parent).map Prod.fst).map fun _ => () := by
  rw [contents, Forest.attach_relabel, attach_eq]
  cases Forest.attach doc child parent <;> rfl

theorem label?_settled_of_notMem {attached : Document} {left : Option NodeId} {id : NodeId}
    (hother : ∀ above, above = parent ∨ left = some above →
      id ≠ above ∧ id ∉ attached.children above) :
    (settled attached parent left).label? id = attached.label? id := by
  obtain ⟨hne, hnot⟩ := hother parent (.inl rfl)
  unfold settled
  cases left with
  | none => exact label?_relink_of_notMem hne hnot
  | some old =>
    -- The node that the child has left is relinked first, which changes no list.
    obtain ⟨hneold, hnotold⟩ := hother old (.inr rfl)
    rw [← children_congr (contents_relink attached old)] at hnot
    exact (label?_relink_of_notMem hne hnot).trans (label?_relink_of_notMem hneold hnotold)

theorem node?_attach_of_notMem (hdoc : Forest.WellFormed doc) {id : NodeId} (hid : id ≠ child)
    (hother : ∀ above, above = parent ∨ doc.parent? child = some above →
      id ≠ above ∧ id ∉ doc.children above) :
    (doc.perform (.attach child parent)).node? id = doc.node? id := by
  rw [perform_attach_eq, attach_eq]
  cases hattach : Forest.attach doc child parent with
  | error e => rfl
  | ok result =>
    obtain ⟨left, attached⟩ := result
    have hg := Forest.attached_of_attach hattach
    obtain ⟨-, -, -, hleft, hmoved⟩ := Forest.attach_eq_ok_iff.mp hattach
    have hold : ∀ above, left = some above → doc.parent? child = some above := by
      intro above habove
      rw [hleft, Option.filter_eq_some_iff] at habove
      exact habove.1
    have hlists : ∀ above, above = parent ∨ left = some above →
        id ≠ above ∧ id ∉ attached.children above := by
      intro above habove
      obtain ⟨hne, hnot⟩ := hother above (habove.imp_right (hold above))
      rw [hdoc.mem_children_attached hg, if_neg hid]
      exact ⟨hne, hnot⟩
    -- Attaching leaves the node as it is, and so does relinking.
    have hattached : attached.node? id = doc.node? id := by
      have hkept : left ≠ some id := fun h => (hlists id (.inr h)).1 rfl
      rw [hmoved, Forest.node?_moved]
      simp only [if_neg hid, if_neg (hlists parent (.inl rfl)).1, if_neg hkept]
      exact Option.map_id'
    exact (node?_congr (contents_settled attached parent left)
      (label?_settled_of_notMem hlists)).trans hattached

theorem Reachable.attaches (hdoc : doc.Reachable) (child parent : NodeId) :
    Attaches doc child parent := by
  have hwell : doc.contents.WellFormed := Forest.wellFormed_relabel_iff.mpr hdoc.wellFormed
  have hrule := (hwell.attaching child parent).map fun _ => ()
  rw [← map_attach] at hrule
  have hafter := contents_perform doc (.attach child parent)
  -- Links and counts are decided by the contents, so what keeps these keeps the document.
  have hsame : doc.contents.perform (.attach child parent) = doc.contents →
      doc.perform (.attach child parent) = doc := fun h =>
    Reachable.eq_of_contents (hdoc.foldl [.attach child parent]) hdoc (hafter.trans h)
  refine ⟨by rwa [hafter], fun e h => hsame (hrule.of_refused e h), fun hparent => hsame ?_, ?_⟩
  · by_cases hrefused : ∃ e, Refused doc.contents child parent e
    · obtain ⟨e, he⟩ := hrefused
      exact hrule.of_refused e he
    · have hcontents : doc.contents.parent? child = some parent := by
        rw [contents, Forest.parent?_relabel, hparent]
      exact (hrule.stays (fun e he => hrefused ⟨e, he⟩) hcontents).2
  · intro id hid hother
    exact node?_attach_of_notMem hdoc.wellFormed hid hother

end Html.Document

/-! ## Section 2: All formats -/

/-- Attaching a node fails exactly if the new parent is missing, or else the node is, or else the
node is its new parent or lies above it, and then nothing changes. Nothing changes either if the
node is there already. Otherwise it leaves the roots and the list that it is in, becomes the last
child of its new parent, and all that is below it moves along; the answer names the parent that it
has left. Documents of all formats attach nodes in this way, and in HTML documents links and counts
change at most in the two lists. -/
theorem attaching_rule :
    (∀ (α : Type) (ops : List (Forest.Operation α)) (child parent : NodeId),
      let f := (Forest.empty : Forest α).performAll ops
      Attaching id f child parent ((f.attach child parent).map Prod.fst)
        (f.perform (.attach child parent))) ∧
    (∀ doc : Html.Document, doc.Reachable → ∀ child parent, doc.Attaches child parent) ∧
    (∀ doc : Xml.Document, doc.Reachable → ∀ child parent,
      Attaching (fun _ => ()) doc child parent ((doc.attach child parent).map fun _ => ())
        (doc.perform (.attach child parent))) ∧
    (∀ doc : Json.Document, doc.Reachable → ∀ child parent,
      Attaching (fun _ => ()) doc child parent ((doc.attach child parent).map fun _ => ())
        (doc.perform (.attach child parent))) := by
  have hforget : ∀ (α : Type) (f : Forest α) (child parent : NodeId),
      (((f.attach child parent).map Prod.snd).map fun _ => ()) =
        ((f.attach child parent).map Prod.fst).map fun _ => () := by
    intro α f child parent
    cases f.attach child parent <;> rfl
  refine ⟨?arenas, ?html, ?xml, ?json⟩
  case arenas =>
    intro α ops child parent f
    exact (Forest.wellFormed_performAll ops).attaching child parent
  case html =>
    intro doc hdoc child parent
    exact hdoc.attaches child parent
  case xml =>
    intro doc hdoc child parent
    rw [Xml.Document.attach, hforget, Xml.Document.perform_eq]
    exact (hdoc.wellFormed.attaching child parent).map _
  case json =>
    intro doc hdoc child parent
    rw [Json.Document.attach, hforget, Json.Document.perform_eq]
    exact (hdoc.wellFormed.attaching child parent).map _

/-- A list item with a word in it: the list cannot be put below the word, and the word can be put
below the list. -/
theorem attaching_of_word :
    let doc : Html.Document := List.foldl Html.Document.perform Forest.empty
      [.addRootElement "ul" .empty, .addElement "li" .empty, .addText "word", .attach 1 0,
        .attach 2 1]
    doc.Reachable ∧ doc.perform (.attach 0 2) = doc ∧
      ((doc.attach 0 2).map fun _ => ()) = .error (.structural 0 (.cycle 2)) ∧
      Forest.Joined doc.contents 2 0 (doc.perform (.attach 2 0)).contents := by
  intro doc
  have hdoc : doc.Reachable := ⟨Forest.empty, _, rfl, rfl⟩
  obtain ⟨-, hhtml, -, -⟩ := attaching_rule
  have hparent : ∀ id, doc.contents.parent? id = doc.parent? id :=
    Forest.parent?_relabel doc
  have hsome : ∀ id, id < 3 → (doc.contents.node? id).isSome := by
    intro id hid
    rw [Forest.isSome_node?_iff, Html.Document.contents, Forest.size_relabel]
    exact hid
  have hitem : doc.contents.ParentOf 0 1 := hparent 1
  have hword : doc.contents.ParentOf 1 2 := hparent 2
  have hrefused : Refused doc.contents 0 2 (.structural 0 (.cycle 2)) :=
    .cycle (hsome 2 (by decide)) (hsome 0 (by decide))
      ((Relation.ReflTransGen.single hitem).tail hword)
  have hallowed : ∀ e, ¬ Refused doc.contents 2 0 e := by
    intro e h
    cases h with
    | missingParent hnone =>
      have hthere := hsome 0 (by decide)
      rw [hnone] at hthere
      cases hthere
    | missingChild _ hnone =>
      have hthere := hsome 2 (by decide)
      rw [hnone] at hthere
      cases hthere
    | cycle _ _ habove =>
      -- The list has no parent, so nothing lies above it.
      rcases Forest.aboveOrSelf_iff.mp habove with heq | ⟨above, htop, -⟩
      · cases heq
      · rw [hparent] at htop
        cases htop
  have hmove : doc.contents.parent? 2 ≠ some 0 := by
    intro h
    rw [hparent] at h
    cases h
  exact ⟨hdoc, (hhtml doc hdoc 0 2).of_refused _ hrefused,
    ((hhtml doc hdoc 0 2).contents.eq_error_iff _).mpr hrefused,
    ((hhtml doc hdoc 2 0).contents.moves hallowed hmove).2⟩

end TreeNotation
