import TreeNotation.Proofs.Html.Counts

/-!
# Sibling Links

A node knows the siblings next to it, and links are set for a whole list of children at once. A
node that is attached leaves one list and joins another; both are linked again, and no list but
these two has changed.

- **Links**: `links?_relink_of_mem`; linking a list sets the links of its nodes and no others;
- **Invariant**: `LinkedBut stale` says that the links of all nodes are right that are not below
  stale ones, `Linked` that all are right;
- **Steps**: `Linked.attach`, from `LinkedBut.relink` and `LinkedBut.of_attached`, and
  `Reachable.linked` for all operations;
- **Surroundings**: `surroundings_right` puts links and counts together; `Reachable.eq_of_contents`
  says that they are decided by the contents.
-/

namespace TreeNotation.Html.Document

open Forest (Attached)

/-! ## Section 1: Linking a list -/

/-- The links that the node with number `id` keeps. -/
def links? (doc : Document) (id : NodeId) : Option (Option NodeId × Option NodeId) :=
  (doc.label? id).map fun entry => (entry.previous, entry.next)

theorem links?_modifyEntry (doc : Document) (id other : NodeId) (change : Entry → Entry) :
    (doc.modifyEntry id change).links? other =
      if id = other then
        (doc.label? other).map fun entry => ((change entry).previous, (change entry).next)
      else doc.links? other :=
  map_label?_modifyEntry (fun entry => (entry.previous, entry.next)) doc id other change

theorem links?_link (doc : Document) (place : NodeId × Option NodeId × Option NodeId)
    (id : NodeId) :
    (doc.link place).links? id =
      if place.1 = id then (doc.links? id).map fun _ => place.2 else doc.links? id := by
  rw [link, links?_modifyEntry]
  split
  case isTrue => unfold links?; rw [Option.map_map]; rfl
  case isFalse => rfl

/-- Linking a list leaves the nodes alone that are not in it. -/
theorem label?_neighbours_of_notMem {id : NodeId} {ids : List NodeId} (h : id ∉ ids)
    (previous : Option NodeId) (doc : Document) :
    Forest.label? ((neighbours previous ids).foldl link doc) id = doc.label? id := by
  induction ids generalizing previous doc with
  | nil => rfl
  | cons other rest ih =>
    rw [List.mem_cons, not_or] at h
    rw [neighbours, List.foldl_cons, ih h.2, link, label?_modifyEntry, if_neg (Ne.symm h.1)]

theorem links?_neighbours_of_notMem {id : NodeId} {ids : List NodeId} (h : id ∉ ids)
    (previous : Option NodeId) (doc : Document) :
    links? ((neighbours previous ids).foldl link doc) id = doc.links? id := by
  rw [links?, label?_neighbours_of_notMem h, links?]

theorem label?_relink_of_notMem {doc : Document} {parent id : NodeId} (hne : id ≠ parent)
    (h : id ∉ doc.children parent) : (doc.relink parent).label? id = doc.label? id := by
  rw [relink, label?_modifyEntry, if_neg hne.symm]
  exact label?_neighbours_of_notMem h none doc

/-- Linking a list gives a node of it the last node before it and the first one after it. -/
theorem links?_neighbours_of_append {id : NodeId} {before after : List NodeId}
    (hafter : id ∉ after) (hbefore : id ∉ before) (previous : Option NodeId) (doc : Document) :
    links? ((neighbours previous (before ++ id :: after)).foldl link doc) id =
      (doc.links? id).map fun _ => (before.getLast?.or previous, after.head?) := by
  induction before generalizing previous doc with
  | nil =>
    -- The node is linked first, and the nodes after it leave it alone.
    rw [List.nil_append, neighbours, List.foldl_cons, links?_neighbours_of_notMem hafter,
      links?_link, if_pos rfl]
    rfl
  | cons other before ih =>
    rw [List.mem_cons, not_or] at hbefore
    rw [List.cons_append, neighbours, List.foldl_cons, ih hbefore.2, links?_link,
      if_neg (Ne.symm hbefore.1)]
    -- A node that comes before others is not the last of them.
    have hlast : before.getLast?.or (some other) = (other :: before).getLast?.or previous := by
      rw [List.getLast?_cons]
      cases before.getLast? <;> rfl
    rw [hlast]

/-- The count that is put in at the end is no link. -/
theorem links?_relink (doc : Document) (parent id : NodeId) :
    (doc.relink parent).links? id =
      links? ((neighbours none (doc.children parent)).foldl link doc) id := by
  rw [relink, links?_modifyEntry]
  split <;> rfl

theorem links?_relink_of_notMem {doc : Document} {parent id : NodeId}
    (h : id ∉ doc.children parent) : (doc.relink parent).links? id = doc.links? id := by
  rw [links?_relink]
  exact links?_neighbours_of_notMem h none doc

/-- The links are those to the nodes on both sides of `id` in a list. -/
def LinksIn (ids : List NodeId) (id : NodeId) (links : Option NodeId × Option NodeId) : Prop :=
  ∃ before after, ids = before ++ id :: after ∧ links = (before.getLast?, after.head?)

theorem links?_relink_of_mem {doc : Document} {parent id : NodeId}
    (hnodup : (doc.children parent).Nodup) (h : id ∈ doc.children parent) :
    ∀ links, (doc.relink parent).links? id = some links →
      LinksIn (doc.children parent) id links := by
  intro links hlinks
  obtain ⟨before, after, hsplit⟩ := List.append_of_mem h
  rw [hsplit, List.nodup_append] at hnodup
  obtain ⟨-, hcons, hdisjoint⟩ := hnodup
  have hbefore : id ∉ before := fun hid => hdisjoint id hid id List.mem_cons_self rfl
  have hafter : id ∉ after := (List.nodup_cons.mp hcons).1
  rw [links?_relink, hsplit, links?_neighbours_of_append hafter hbefore] at hlinks
  obtain ⟨_, -, hset⟩ := Option.map_eq_some_iff.mp hlinks
  rw [Option.or_none] at hset
  exact ⟨before, after, hsplit, hset.symm⟩

/-! ## Section 2: Right links -/

/-- A node on top has no links, and a node below another one those to its neighbours there, unless
that other one is `stale`. -/
structure LinkedBut (stale : NodeId → Prop) (doc : Document) : Prop where
  alone : ∀ id links, doc.parent? id = none → doc.links? id = some links → links = (none, none)
  beside : ∀ id links parent, doc.parent? id = some parent → ¬ stale parent →
    doc.links? id = some links → LinksIn (doc.children parent) id links

/-- All links are right. -/
def Linked (doc : Document) : Prop := LinkedBut (fun _ => False) doc

theorem parent?_congr {doc doc' : Document} (h : doc.contents = doc'.contents) (id : NodeId) :
    doc.parent? id = doc'.parent? id := by
  have hparent := congrArg (fun f => f.parent? id) h
  simpa only [contents, Forest.parent?_relabel] using hparent

namespace LinkedBut

variable {stale : NodeId → Prop} {doc : Document}

theorem mono {stale' : NodeId → Prop} (h : LinkedBut stale doc)
    (hle : ∀ id, stale id → stale' id) : LinkedBut stale' doc where
  alone := h.alone
  beside id links parent hparent hstale :=
    h.beside id links parent hparent fun hid => hstale (hle parent hid)

/-- Linking the children of a node again makes their links right. -/
theorem relink (hdoc : Forest.WellFormed doc) (h : LinkedBut stale doc) (parent : NodeId) :
    LinkedBut (fun id => stale id ∧ id ≠ parent) (doc.relink parent) where
  alone id links hparent hlinks := by
    rw [parent?_congr (contents_relink doc parent)] at hparent
    -- A node on top is a child of nobody.
    have hmem : id ∉ doc.children parent := by
      rw [hdoc.mem_children_iff, hparent]
      exact nofun
    rw [links?_relink_of_notMem hmem] at hlinks
    exact h.alone id links hparent hlinks
  beside id links other hparent hstale hlinks := by
    rw [parent?_congr (contents_relink doc parent)] at hparent
    rw [children_congr (contents_relink doc parent)]
    have hmem := hdoc.mem_children_iff parent id
    rw [hparent, Option.some.injEq] at hmem
    by_cases hother : other = parent
    · -- The links of these nodes are new.
      rw [hother]
      exact links?_relink_of_mem (hdoc.nodup_children parent) (hmem.mpr hother) links hlinks
    · -- All other links are those that were there.
      rw [links?_relink_of_notMem fun hid => hother (hmem.mp hid)] at hlinks
      exact h.beside id links other hparent (fun hid => hstale ⟨hid, hother⟩) hlinks

/-- Attaching a node makes at most the links below its old parent and below its new one stale. -/
theorem of_attached {attached : Document} {child parent : NodeId} (h : Linked doc)
    (hg : Attached doc child parent attached) :
    LinkedBut (fun id => doc.parent? child = some id ∨ id = parent) attached := by
  have hlinks : ∀ id, attached.links? id = doc.links? id := by
    intro id
    unfold links?
    rw [hg.label?_eq]
  refine ⟨?alone, ?beside⟩
  case alone =>
    intro id links hnone hid
    rw [hg.parent?_eq] at hnone
    split at hnone
    case isTrue => exact nomatch hnone
    case isFalse => exact h.alone id links hnone (hlinks id ▸ hid)
  case beside =>
    intro id links other hother hstale hid
    rw [not_or] at hstale
    rw [hg.parent?_eq] at hother
    split at hother
    case isTrue => exact absurd (Option.some.inj hother).symm hstale.2
    case isFalse =>
      -- Neither of the two lists that change is the one of this node.
      rw [hg.children_eq, if_neg hstale.2, if_neg hstale.1]
      exact h.beside id links other hother not_false (hlinks id ▸ hid)

end LinkedBut

/-! ## Section 3: Every operation keeps the links right -/

theorem Linked.empty : Linked Forest.empty where
  alone id links _ hlinks := by simp [links?, Forest.label?] at hlinks
  beside id links parent hparent := by simp [Forest.parent?] at hparent

theorem Linked.push {doc : Document} (h : Linked doc) (content : Content) :
    Linked (Forest.push doc (.ofContent content)).2 := by
  have hlinks : ∀ id, links? (Forest.push doc (.ofContent content)).2 id =
      if id = doc.size then some (none, none) else doc.links? id := by
    intro id
    unfold links? Forest.label?
    rw [Forest.node?_push]
    split <;> rfl
  refine ⟨?alone, ?beside⟩
  case alone =>
    intro id links hparent hid
    rw [Forest.parent?_push] at hparent
    rw [hlinks] at hid
    split at hid
    case isTrue => exact (Option.some.inj hid).symm
    case isFalse => exact h.alone id links hparent hid
  case beside =>
    intro id links parent hparent hstale hid
    rw [Forest.parent?_push] at hparent
    rw [Forest.children_push]
    -- A node with a parent was there before.
    have hne := Nat.ne_of_lt (Forest.lt_size_of_parent? hparent)
    rw [hlinks, if_neg hne] at hid
    exact h.beside id links parent hparent hstale hid

theorem Linked.attach {doc : Document} (hdoc : Forest.WellFormed doc) (h : Linked doc)
    {child parent : NodeId} {left : Option NodeId} {attached : Document}
    (hattach : Forest.attach doc child parent = .ok (left, attached)) :
    Linked (settled attached parent left) :=
  of_settled (fun hle h => h.mono hle) (fun parent hdoc h => h.relink hdoc parent) hdoc hattach
    (LinkedBut.of_attached h (Forest.attached_of_attach hattach))

theorem Reachable.linked {doc : Document} (h : doc.Reachable) : Linked doc := by
  apply h.invariant Linked.empty
  · intro doc content _ hlinked
    exact hlinked.push content
  · intro doc roots hlinked
    exact ⟨hlinked.alone, hlinked.beside⟩
  · intro doc child parent left attached hdoc hlinked hattach
    exact Linked.attach hdoc hlinked hattach

/-! ## Section 4: Surroundings -/

/-- What a node holds is its content and its surroundings, and its place is one in the forest of
contents. -/
theorem node?_congr {doc doc' : Document} (h : doc.contents = doc'.contents) {id : NodeId}
    (hlabel : doc.label? id = doc'.label? id) : doc.node? id = doc'.node? id := by
  have hnode := congrArg (fun f => f.node? id) h
  simp only [contents, Forest.node?_relabel] at hnode
  unfold Forest.label? at hlabel
  cases hleft : doc.node? id with
  | none =>
    rw [hleft] at hnode
    exact (Option.map_eq_none_iff.mp hnode.symm).symm
  | some node =>
    rw [hleft] at hnode hlabel
    obtain ⟨node', hright, hplace⟩ := Option.map_eq_some_iff.mp hnode.symm
    rw [hright] at hlabel ⊢
    obtain ⟨label, parent, children, sequence⟩ := node
    obtain ⟨label', parent', children', sequence'⟩ := node'
    cases hlabel
    cases hplace
    rfl

/-- What a node keeps about the nodes around it is what the lists of children tell. -/
structure Surrounded (doc : Document) (id : NodeId) (entry : Entry) : Prop where
  alone : doc.parent? id = none → entry.previous = none ∧ entry.next = none
  /-- The node is in the list of its parent once, between its neighbours. -/
  beside : ∀ parent, doc.parent? id = some parent → ∃ before after,
    doc.children parent = before ++ id :: after ∧ id ∉ before ∧ id ∉ after ∧
      entry.previous = before.getLast? ∧ entry.next = after.head?
  counted : entry.elementChildren = (doc.children id).countP doc.isElement

theorem Reachable.surrounded {doc : Document} (h : doc.Reachable) {id : NodeId} {entry : Entry}
    (hentry : doc.label? id = some entry) : Surrounded doc id entry := by
  have hlinks : doc.links? id = some (entry.previous, entry.next) := by
    rw [links?, hentry]; rfl
  refine ⟨?alone, ?beside, ?counted⟩
  case alone =>
    intro hparent
    exact Prod.mk.inj (h.linked.alone id _ hparent hlinks)
  case beside =>
    intro parent hparent
    obtain ⟨before, after, hsplit, heq⟩ := h.linked.beside id _ parent hparent not_false hlinks
    obtain ⟨hprevious, hnext⟩ := Prod.mk.inj heq
    have hnodup := h.wellFormed.nodup_children parent
    rw [hsplit, List.nodup_middle, List.nodup_cons, List.mem_append, not_or] at hnodup
    exact ⟨before, after, hsplit, hnodup.1.1, hnodup.1.2, hprevious, hnext⟩
  case counted =>
    exact h.counted id not_false _ (by rw [elementCount?, hentry]; rfl)

/-- What a document holds beside its contents is decided by them. -/
theorem Reachable.eq_of_contents {doc doc' : Document} (h : doc.Reachable) (h' : doc'.Reachable)
    (hcontents : doc.contents = doc'.contents) : doc = doc' := by
  have hroots : doc.contents.roots = doc'.contents.roots := by rw [hcontents]
  have hcreated : doc.contents.created = doc'.contents.created := by rw [hcontents]
  refine Forest.ext_node? (fun id => node?_congr hcontents ?_) hroots hcreated
  have hlabels := congrArg (fun f => f.label? id) hcontents
  simp only [contents, Forest.label?_relabel] at hlabels
  cases hentry : doc.label? id with
  | none =>
    rw [hentry] at hlabels
    exact (Option.map_eq_none_iff.mp hlabels.symm).symm
  | some entry =>
    rw [hentry] at hlabels
    obtain ⟨entry', hentry', hcontent⟩ := Option.map_eq_some_iff.mp hlabels.symm
    have hs := h.surrounded hentry
    have hs' := h'.surrounded hentry'
    have hcount : entry.elementChildren = entry'.elementChildren := by
      rw [hs.counted, hs'.counted, children_congr hcontents, isElement_congr hcontents]
    have hlinks : entry.previous = entry'.previous ∧ entry.next = entry'.next := by
      have hparents := parent?_congr hcontents id
      cases hparent : doc.parent? id with
      | none =>
        obtain ⟨hprevious, hnext⟩ := hs.alone hparent
        obtain ⟨hprevious', hnext'⟩ := hs'.alone (hparents ▸ hparent)
        exact ⟨hprevious.trans hprevious'.symm, hnext.trans hnext'.symm⟩
      | some parent =>
        -- The node stands at one place in the list of its parent.
        obtain ⟨before, after, hsplit, -, -, hprevious, hnext⟩ := hs.beside parent hparent
        obtain ⟨before', after', hsplit', hbefore', hafter', hprevious', hnext'⟩ :=
          hs'.beside parent (hparents ▸ hparent)
        rw [children_congr hcontents, hsplit',
          List.append_cons_inj_of_notMem hbefore' hafter'] at hsplit
        obtain ⟨rfl, -, rfl⟩ := hsplit
        exact ⟨hprevious.trans hprevious'.symm, hnext.trans hnext'.symm⟩
    obtain ⟨content, previous, next, elementChildren⟩ := entry
    obtain ⟨content', previous', next', elementChildren'⟩ := entry'
    obtain ⟨rfl, rfl⟩ := hlinks
    cases hcount
    cases hcontent
    rw [hentry']

/-- The elements beside a node are counted without it, however the count is arrived at. -/
theorem Reachable.siblingCount_eq_countP {doc : Document} (h : doc.Reachable) (id : NodeId) :
    doc.siblingCount id = (doc.parent? id).elim 0 fun parent =>
      (doc.children parent).countP fun other => other ≠ id && doc.isElement other := by
  rw [siblingCount_eq h.wellFormed h.counted, countBeside]
  cases hparent : doc.parent? id with
  | none => rfl
  | some parent =>
    have hmem := (h.wellFormed.mem_children_iff parent id).mpr hparent
    exact (countP_ne_and (h.wellFormed.nodup_children parent) hmem doc.isElement).symm

/-- Whatever operations lead to a document, refused ones and moves among them: links and counts are
those that the lists of children give. -/
theorem surroundings_right (ops : List Operation) :
    let doc := ops.foldl perform Forest.empty
    (∀ id entry, doc.label? id = some entry → Surrounded doc id entry) ∧
      ∀ id, doc.siblingCount id = (doc.parent? id).elim 0 fun parent =>
        (doc.children parent).countP fun other => other ≠ id && doc.isElement other := by
  have h : Reachable (ops.foldl perform Forest.empty) := ⟨Forest.empty, ops, rfl, rfl⟩
  exact ⟨fun id entry => h.surrounded, h.siblingCount_eq_countP⟩

/-- A child is attached twice, refused as the parent of its own parent, and then moved: its old
neighbours become neighbours of each other. -/
theorem surroundings_of_moved_child :
    let doc := List.foldl perform Forest.empty
      [.addElement "ul" OrderedMap.empty, .addElement "ol" OrderedMap.empty, .addText "a",
        .addElement "li" OrderedMap.empty, .addText "b", .attach 2 0, .attach 3 0, .attach 4 0,
        .attach 3 0, .attach 0 3, .attach 3 1]
    doc.children 0 = [2, 4] ∧ doc.children 1 = [3] ∧
      ∃ entry, doc.label? 4 = some entry ∧ entry.previous = some 2 ∧ Surrounded doc 4 entry :=
  ⟨rfl, rfl, _, rfl, rfl, (surroundings_right _).1 4 _ rfl⟩

end TreeNotation.Html.Document
