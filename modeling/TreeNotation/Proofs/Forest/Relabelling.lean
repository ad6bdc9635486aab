import TreeNotation.Proofs.Forest.WellFormed

/-!
# Relabelling Forests

A forest with other labels has the same shape, and it grows in the same way: operations commute with
relabelling, so what is known of the shape of one forest is known of the other.

- `push_relabel`, `attach_relabel` and their companions: operations commute with relabelling;
- `wellFormed_relabel_iff`: well-formedness does not look at labels.
-/

namespace TreeNotation

/-- The node with its label replaced. -/
def Node.relabel {α β : Type} (g : α → β) (node : Node α) : Node β :=
  ⟨g node.label, node.parent, node.children, node.sequence⟩

namespace Forest

variable {α β : Type} {g : α → β}

/-- The forest with every label replaced. -/
def relabel (g : α → β) (f : Forest α) : Forest β :=
  ⟨f.nodes.map (Node.relabel g), f.roots, f.created⟩

/-! ## Section 1: Look-ups -/

theorem ext_node? {f f' : Forest α} (hnode : ∀ id, f.node? id = f'.node? id)
    (hroots : f.roots = f'.roots) (hcreated : f.created = f'.created) : f = f' := by
  obtain ⟨nodes, roots, created⟩ := f
  obtain ⟨nodes', roots', created'⟩ := f'
  -- Look-ups at all numbers tell all of the nodes.
  have hnodes : nodes = nodes' := Array.ext_getElem? hnode
  cases hnodes
  cases hroots
  cases hcreated
  rfl

@[simp]
theorem node?_relabel (f : Forest α) (id : NodeId) :
    (f.relabel g).node? id = (f.node? id).map (Node.relabel g) := by
  simp [relabel, node?]

@[simp]
theorem size_relabel (f : Forest α) : (f.relabel g).size = f.size := by
  simp [relabel, size]

@[simp]
theorem roots_relabel (f : Forest α) : (f.relabel g).roots = f.roots := rfl

@[simp]
theorem created_relabel (f : Forest α) : (f.relabel g).created = f.created := rfl

@[simp]
theorem label?_relabel (f : Forest α) (id : NodeId) :
    (f.relabel g).label? id = (f.label? id).map g := by
  unfold label?
  rw [node?_relabel]
  cases f.node? id <;> rfl

@[simp]
theorem parent?_relabel (f : Forest α) (id : NodeId) : (f.relabel g).parent? id = f.parent? id := by
  unfold parent?
  rw [node?_relabel]
  cases f.node? id <;> rfl

@[simp]
theorem children_relabel (f : Forest α) (id : NodeId) :
    (f.relabel g).children id = f.children id := by
  unfold children
  rw [node?_relabel]
  cases f.node? id <;> rfl

@[simp]
theorem sequence_relabel (f : Forest α) (id : NodeId) :
    (f.relabel g).sequence id = f.sequence id := by
  unfold sequence
  rw [node?_relabel]
  cases f.node? id <;> rfl

@[simp]
theorem rootIds_relabel (f : Forest α) : (f.relabel g).rootIds = f.rootIds := by
  simp [rootIds]

theorem isAncestorOrSelf_relabel (f : Forest α) (ancestor id : NodeId) :
    (f.relabel g).isAncestorOrSelf ancestor id = f.isAncestorOrSelf ancestor id := by
  -- The search goes along parents only, and a forest has as many nodes as before.
  have hmeets : ∀ steps id, (f.relabel g).meets ancestor steps id = f.meets ancestor steps id := by
    intro steps
    induction steps with
    | zero => intro id; rfl
    | succ steps ih =>
      intro id
      unfold meets
      rw [parent?_relabel]
      cases f.parent? id with
      | none => rfl
      | some parent => simp only [ih]
  unfold isAncestorOrSelf
  rw [size_relabel, hmeets]

/-! ## Section 2: Operations -/

theorem push_relabel (f : Forest α) (label : α) :
    ((f.relabel g).push (g label)).2 = (f.push label).2.relabel g := by
  apply ext_node?
  · intro id
    rw [node?_relabel, node?_push, node?_push, size_relabel, node?_relabel]
    split <;> rfl
  · rfl
  · rfl

theorem pushRoot_relabel (f : Forest α) (label : α) :
    ((f.relabel g).pushRoot (g label)).2 = (f.pushRoot label).2.relabel g := by
  apply ext_node?
  · intro id
    show ((f.relabel g).push (g label)).2.node? id = ((f.push label).2.relabel g).node? id
    rw [push_relabel]
  · show f.roots ++ [(f.relabel g).size] = f.roots ++ [f.size]
    rw [size_relabel]
  · rfl

theorem markRoot_relabel (f : Forest α) (id : NodeId) :
    (f.relabel g).markRoot id = (f.markRoot id).map (relabel g) := by
  rw [markRoot_eq, markRoot_eq, size_relabel, parent?_relabel, roots_relabel]
  split
  case isTrue =>
    split
    case isTrue => rfl
    case isFalse => split <;> rfl
  case isFalse => rfl

theorem perform_markRoot_relabel (f : Forest α) (id : NodeId) :
    (f.relabel g).perform (.markRoot id) = (f.perform (.markRoot id)).relabel g := by
  rw [perform_markRoot_eq, perform_markRoot_eq, markRoot_relabel]
  cases f.markRoot id <;> rfl

theorem moved_relabel (f : Forest α) (child parent : NodeId) (left : Option NodeId) :
    (f.relabel g).moved child parent left = (f.moved child parent left).relabel g := by
  apply ext_node?
  · intro id
    rw [node?_relabel, node?_moved, node?_moved, node?_relabel]
    cases f.node? id <;> rfl
  · cases left <;> rfl
  · cases left <;> rfl

theorem attach_relabel (f : Forest α) (child parent : NodeId) :
    (f.relabel g).attach child parent =
      (f.attach child parent).map fun result => (result.1, result.2.relabel g) := by
  rw [attach_eq, attach_eq]
  -- The checks and the new links look at no label.
  simp only [size_relabel, parent?_relabel, isAncestorOrSelf_relabel, moved_relabel]
  split
  case isTrue =>
    split
    case isTrue => split <;> rfl
    case isFalse => rfl
  case isFalse => rfl

/-! ## Section 3: Well-formedness -/

theorem wellFormed_relabel_iff {f : Forest α} : (f.relabel g).WellFormed ↔ f.WellFormed := by
  have hparents : (f.relabel g).ParentOf = f.ParentOf := by
    funext parent child
    simp only [ParentOf, parent?_relabel]
  have hacyclic : (f.relabel g).Acyclic ↔ f.Acyclic := by
    unfold Acyclic Above
    rw [hparents]
  constructor
  · -- Every field but the one on cycles is rewritten to the other forest.
    intro h
    obtain ⟨hc, hs, hm, hn, ha, hl, hp, hr⟩ := h
    simp only [created_relabel, size_relabel, sequence_relabel, children_relabel, parent?_relabel,
      roots_relabel] at hc hs hm hn hl hp hr
    exact ⟨hc, hs, hm, hn, hacyclic.mp ha, hl, hp, hr⟩
  · intro h
    obtain ⟨hc, hs, hm, hn, ha, hl, hp, hr⟩ := h
    refine ⟨?_, ?_, ?_, ?_, hacyclic.mpr ha, ?_, ?_, ?_⟩ <;>
      simpa only [created_relabel, size_relabel, sequence_relabel, children_relabel,
        parent?_relabel, roots_relabel]

end Forest

end TreeNotation
