import Mathlib.Data.List.Nodup
import TreeNotation.Html.Dialect
import TreeNotation.Proofs.Html.Growth

/-!
# Element Counts

Every node keeps a count of the elements among its children. Attaching a node makes the counts of
two nodes stale, of the one it leaves and of the one it joins, and both are counted again.

- **Invariant**: `CountedBut stale` says that the counts are right but for stale ones, `Counted`
  that all are right;
- **Steps**: `Counted.attach`, from `CountedBut.relink` and `CountedBut.of_attached`, and
  `Reachable.counted` for all operations;
- **Siblings**: `writtenSiblings_eq`; with right counts, the siblings of a node that are written are
  those that a look at the children of its parent finds, however they are looked up.
-/

namespace TreeNotation.Html.Document

open Forest (Attached)

/-! ## Section 1: Counts -/

/-- The count that the node with number `id` keeps. -/
def elementCount? (doc : Document) (id : NodeId) : Option Nat :=
  (doc.label? id).map Entry.elementChildren

/-- All counts are right, those of `stale` nodes aside. -/
def CountedBut (stale : NodeId → Prop) (doc : Document) : Prop :=
  ∀ id, ¬ stale id → ∀ count, doc.elementCount? id = some count →
    count = (doc.children id).countP doc.isElement

/-- All counts are right. -/
def Counted (doc : Document) : Prop := CountedBut (fun _ => False) doc

theorem elementCount?_modifyEntry (doc : Document) (id other : NodeId) (change : Entry → Entry) :
    (doc.modifyEntry id change).elementCount? other =
      if id = other then (doc.label? other).map fun entry => (change entry).elementChildren
      else doc.elementCount? other :=
  map_label?_modifyEntry Entry.elementChildren doc id other change

theorem elementCount?_relink (doc : Document) (parent id : NodeId) :
    (doc.relink parent).elementCount? id =
      if parent = id then
        (doc.elementCount? id).map fun _ => (doc.children parent).countP doc.isElement
      else doc.elementCount? id := by
  -- Setting sibling links leaves all counts alone, on the children as well.
  have hlinks : ∀ (places : List (NodeId × Option NodeId × Option NodeId)) (doc : Document),
      elementCount? (places.foldl link doc) id = doc.elementCount? id := by
    intro places
    induction places with
    | nil => intro doc; rfl
    | cons place places ih =>
      intro doc
      rw [List.foldl_cons, ih, link, elementCount?_modifyEntry]
      split <;> rfl
  have hlabel : ∀ doc : Document, ∀ count : Nat,
      ((doc.label? id).map fun _ => count) = (doc.elementCount? id).map fun _ => count := by
    intro doc count
    unfold elementCount?
    rw [Option.map_map]; rfl
  unfold relink
  rw [elementCount?_modifyEntry]
  split
  case isTrue => rw [hlabel, hlinks]
  case isFalse => exact hlinks _ doc

/-! ## Section 2: Contents decide what is counted -/

theorem isElement_congr {doc doc' : Document} (h : doc.contents = doc'.contents) :
    doc.isElement = doc'.isElement := by
  funext id
  rw [isElement_eq, isElement_eq, h]

theorem children_congr {doc doc' : Document} (h : doc.contents = doc'.contents) (id : NodeId) :
    doc.children id = doc'.children id := by
  rw [← children_contents, ← children_contents, h]

namespace CountedBut

variable {stale : NodeId → Prop} {doc : Document}

/-- Counting the elements below a node again makes its count right. -/
theorem relink (h : CountedBut stale doc) (parent : NodeId) :
    CountedBut (fun id => stale id ∧ id ≠ parent) (doc.relink parent) := by
  intro id hid count hcount
  rw [children_congr (contents_relink doc parent), isElement_congr (contents_relink doc parent)]
  -- The count of this one node is new, all others are those that were there.
  rw [elementCount?_relink] at hcount
  split at hcount
  case isTrue heq =>
    obtain ⟨_, -, rfl⟩ := Option.map_eq_some_iff.mp hcount
    rw [heq]
  case isFalse hne =>
    exact h id (fun hstale => hid ⟨hstale, fun heq => hne heq.symm⟩) count hcount

theorem mono {stale' : NodeId → Prop} (h : CountedBut stale doc)
    (hle : ∀ id, stale id → stale' id) :
    CountedBut stale' doc :=
  fun id hid => h id fun hstale => hid (hle id hstale)

/-- Attaching a node makes at most the counts of its old parent and of its new one stale. -/
theorem of_attached {attached : Document} {child parent : NodeId} (h : Counted doc)
    (hg : Attached doc child parent attached) :
    CountedBut (fun id => doc.parent? child = some id ∨ id = parent) attached := by
  intro id hid count hcount
  rw [not_or] at hid
  -- Neither of the two lists that change is that of this node.
  have hchildren : attached.children id = doc.children id := by
    rw [hg.children_eq, if_neg hid.2, if_neg hid.1]
  have helement : attached.isElement = doc.isElement := by
    funext other
    unfold isElement
    rw [hg.label?_eq]
  rw [hchildren, helement]
  apply h id not_false count
  unfold elementCount? at hcount ⊢
  rwa [hg.label?_eq] at hcount

end CountedBut

/-! ## Section 3: Every operation keeps the counts right -/

theorem Counted.empty : Counted Forest.empty := by
  intro id _ count hcount
  simp [elementCount?, Forest.label?] at hcount

theorem Counted.push {doc : Document} (h : Counted doc) (hdoc : Forest.WellFormed doc)
    (content : Content) : Counted (Forest.push doc (.ofContent content)).2 := by
  intro id _ count hcount
  rw [Forest.children_push]
  unfold elementCount? Forest.label? at hcount
  rw [Forest.node?_push] at hcount
  split at hcount
  case isTrue hid =>
    -- Nothing is attached to the new node.
    have hnone : doc.children id = [] := by
      unfold Forest.children
      rw [hid, Forest.node?_size]; rfl
    rw [hnone]
    exact (Option.some.inj hcount).symm
  case isFalse =>
    rw [h id not_false count hcount]
    apply List.countP_congr
    intro child hchild
    -- No child has the number of the new node.
    have hne := Nat.ne_of_lt (hdoc.child_lt_size hchild)
    unfold isElement Forest.label?
    rw [Forest.node?_push, if_neg hne]

theorem Counted.attach {doc : Document} (hdoc : Forest.WellFormed doc) (h : Counted doc)
    {child parent : NodeId} {left : Option NodeId} {attached : Document}
    (hattach : Forest.attach doc child parent = .ok (left, attached)) :
    Counted (settled attached parent left) :=
  of_settled (fun hle h => h.mono hle) (fun parent _ h => h.relink parent) hdoc hattach
    (CountedBut.of_attached h (Forest.attached_of_attach hattach))

theorem Reachable.counted {doc : Document} (h : doc.Reachable) : Counted doc := by
  apply h.invariant Counted.empty
  · intro doc content hdoc hcounted
    exact hcounted.push hdoc content
  · intro doc roots hcounted
    exact hcounted
  · intro doc child parent left attached hdoc hcounted hattach
    exact Counted.attach hdoc hcounted hattach

/-! ## Section 4: Elements beside a node -/

/-- How many nodes below the parent of a node pass a test, the node itself aside. -/
def countBeside (doc : Document) (test : NodeId → Bool) (id : NodeId) : Nat :=
  match doc.parent? id with
  | some parent => (doc.children parent).countP test - if test id then 1 else 0
  | none => 0

theorem countP_ne_and {ids : List NodeId} (hnodup : ids.Nodup) {id : NodeId} (hid : id ∈ ids)
    (test : NodeId → Bool) :
    ids.countP (fun other => other ≠ id && test other) =
      ids.countP test - if test id then 1 else 0 := by
  have herase : ids.erase id = ids.filter fun other => other ≠ id := by
    rw [hnodup.erase_eq_filter]
    apply List.filter_congr
    intro other _
    by_cases h : other = id <;> simp [h]
  -- The node itself is counted once, as the list does not repeat it.
  have hsplit : ids.countP test = (ids.erase id).countP test + if test id then 1 else 0 := by
    rw [List.Perm.countP_eq test (List.perm_cons_erase hid), List.countP_cons]
  rw [hsplit, herase, List.countP_filter]
  simp only [Nat.add_sub_cancel]
  apply List.countP_congr
  intro other _
  rw [Bool.and_comm]

/-- The stored count of the parent tells what counting its children would. -/
theorem siblingCount_eq {doc : Document} (hdoc : Forest.WellFormed doc) (hcounted : Counted doc)
    (id : NodeId) : doc.siblingCount id = doc.countBeside doc.isElement id := by
  unfold siblingCount countBeside
  cases hparent : doc.parent? id with
  | none => simp
  | some parent =>
    -- Both look-ups succeed: a node with a parent is there, and so is its parent.
    have hlt := Forest.lt_size_of_parent? hparent
    have hlt' := hdoc.parent_lt_size hparent
    obtain ⟨node, hnode⟩ := Option.isSome_iff_exists.mp (Forest.isSome_node?_iff.mpr hlt)
    obtain ⟨above, habove⟩ := Option.isSome_iff_exists.mp (Forest.isSome_node?_iff.mpr hlt')
    have hlabel : doc.label? id = some node.label := by simp [Forest.label?, hnode]
    have hlabel' : doc.label? parent = some above.label := by simp [Forest.label?, habove]
    have hcount := hcounted parent not_false above.label.elementChildren
      (by simp [elementCount?, hlabel'])
    have helement : doc.isElement id = !node.label.content.isText := by simp [isElement, hlabel]
    simp only [hlabel, hlabel', Option.bind_some, hcount, helement]
    cases node.label.content.isText <;> rfl

/-- The siblings that are written are counted in the same way whether skipped tags matter or not. -/
theorem writtenSiblings_eq {doc : Document} (hdoc : Forest.WellFormed doc) (hcounted : Counted doc)
    (options : HtmlOptions) (id : NodeId) :
    writtenSiblings options doc id = doc.countBeside (isWritten options doc) id := by
  unfold writtenSiblings
  split
  case isTrue =>
    -- The children of the parent are looked at one by one.
    unfold countBeside
    cases hparent : doc.parent? id with
    | none => rfl
    | some parent =>
      exact countP_ne_and (hdoc.nodup_children parent)
        ((hdoc.mem_children_iff parent id).mpr hparent) (isWritten options doc)
  case isFalse hskip =>
    -- No element is skipped, so the stored count of the parent will do.
    have hall : isWritten options doc = doc.isElement := by
      funext other
      have hnone : ∀ content, skips options content = false := by
        intro content
        cases content <;> simp [skips, hskip]
      unfold isWritten isElement
      simp only [hnone, Bool.not_false, Bool.and_true]
    rw [hall]
    exact siblingCount_eq hdoc hcounted id

end TreeNotation.Html.Document
