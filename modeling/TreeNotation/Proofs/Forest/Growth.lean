import TreeNotation.Forest.Basic

/-!
# Growing Forests

What each operation does to a forest, seen through the look-ups, and forests grown by operations
one after the other.

- **Frames**: `node?_push`, `node?_modify` and the structure `Attached`, which says everything that
  attaching a node does;
- **Refusals**: `clean_registration` and `clean_attachment`, what is refused changes nothing;
- **Runs**: `Operation`, `perform` and `performAll`; `ReachedFrom` is about runs of any steps.
-/

namespace TreeNotation

/-- Steps lead to a state from one that may come first. -/
def ReachedFrom {σ ω : Type} (start : σ → Prop) (step : σ → ω → σ) (state : σ) : Prop :=
  ∃ first ops, start first ∧ state = List.foldl step first ops

theorem ReachedFrom.induction {σ ω : Type} {start : σ → Prop} {step : σ → ω → σ} {P : σ → Prop}
    (hstart : ∀ state, start state → P state) (hstep : ∀ state op, P state → P (step state op))
    {state : σ} (h : ReachedFrom start step state) : P state := by
  obtain ⟨first, ops, hfirst, rfl⟩ := h
  have hP := hstart first hfirst
  clear hfirst
  -- The induction is on the steps; what has been reached so far takes the place of the first
  -- state.
  induction ops generalizing first with
  | nil => exact hP
  | cons op ops ih => exact ih (step first op) (hstep first op hP)

/-- What has been reached may go on with any steps. -/
theorem ReachedFrom.foldl {σ ω : Type} {start : σ → Prop} {step : σ → ω → σ} {state : σ}
    (h : ReachedFrom start step state) (ops : List ω) :
    ReachedFrom start step (ops.foldl step state) := by
  obtain ⟨first, before, hfirst, rfl⟩ := h
  exact ⟨first, before ++ ops, hfirst, List.foldl_append.symm⟩

namespace Forest

variable {α : Type}

/-! ## Looking nodes up -/

theorem isSome_node?_iff {f : Forest α} {id : NodeId} : (f.node? id).isSome ↔ id < f.size := by
  simp [node?, size]

theorem lt_size_of_node? {f : Forest α} {id : NodeId} {node : Node α}
    (h : f.node? id = some node) : id < f.size :=
  isSome_node?_iff.mp (by rw [h]; rfl)

theorem node?_size (f : Forest α) : f.node? f.size = none := by
  simp [node?, size]

theorem lt_size_of_label? {f : Forest α} {id : NodeId} {label : α}
    (h : f.label? id = some label) : id < f.size := by
  obtain ⟨node, hnode, -⟩ := Option.map_eq_some_iff.mp h
  exact lt_size_of_node? hnode

theorem lt_size_of_parent? {f : Forest α} {id parent : NodeId} (h : f.parent? id = some parent) :
    id < f.size := by
  obtain ⟨node, hnode, -⟩ := Option.bind_eq_some_iff.mp h
  exact lt_size_of_node? hnode

theorem lt_size_of_mem_children {f : Forest α} {id child : NodeId} (h : child ∈ f.children id) :
    id < f.size := by
  cases hnode : f.node? id with
  | none => simp [children, hnode] at h
  | some node => exact lt_size_of_node? hnode

@[simp]
theorem node?_empty (id : NodeId) : (empty : Forest α).node? id = none := by
  simp [node?, empty]

@[simp]
theorem size_empty : (empty : Forest α).size = 0 := rfl

/-! ## Changing one node -/

theorem node?_modify (f : Forest α) (id other : NodeId) (change : Node α → Node α) :
    (f.modify id change).node? other =
      if id = other then (f.node? other).map change else f.node? other := by
  simp [node?, modify, Array.getElem?_modify]

@[simp]
theorem size_modify (f : Forest α) (id : NodeId) (change : Node α → Node α) :
    (f.modify id change).size = f.size := by
  simp [size, modify]

/-! ## Creating nodes -/

theorem node?_push (f : Forest α) (label : α) (id : NodeId) :
    (f.push label).2.node? id =
      if id = f.size then some ⟨label, none, [], f.created + 1⟩ else f.node? id :=
  Array.getElem?_push

@[simp]
theorem size_push (f : Forest α) (label : α) : (f.push label).2.size = f.size + 1 := by
  simp [push, size]

theorem label?_push (f : Forest α) (label : α) (id : NodeId) :
    (f.push label).2.label? id = if id = f.size then some label else f.label? id := by
  unfold label?
  rw [node?_push]
  split <;> rfl

theorem parent?_push (f : Forest α) (label : α) (id : NodeId) :
    (f.push label).2.parent? id = f.parent? id := by
  unfold parent?
  rw [node?_push]
  split
  case isTrue h =>
    -- The new number was not in use before.
    rw [h, node?_size]; rfl
  case isFalse => rfl

theorem children_push (f : Forest α) (label : α) (id : NodeId) :
    (f.push label).2.children id = f.children id := by
  unfold children
  rw [node?_push]
  split
  case isTrue h =>
    -- The new node has no children, and its number had none before.
    rw [h, node?_size]; rfl
  case isFalse => rfl

theorem sequence_push_of_lt (f : Forest α) (label : α) {id : NodeId} (h : id < f.size) :
    (f.push label).2.sequence id = f.sequence id := by
  unfold sequence
  rw [node?_push, if_neg (Nat.ne_of_lt h)]

theorem sequence_push_self (f : Forest α) (label : α) :
    (f.push label).2.sequence f.size = f.created + 1 := by
  unfold sequence
  rw [node?_push, if_pos rfl]; rfl

/-! ## Marking roots -/

theorem not_lt_size_of_node? {f : Forest α} {id : NodeId} (h : f.node? id = none) :
    ¬ id < f.size := by
  rw [← isSome_node?_iff, h]
  exact Bool.false_ne_true

/-- A look-up changes nothing, and what comes after it is not done if it fails. -/
theorem lookUp_bind {β : Type} (id : NodeId) (next : Node α → Attempt (Forest α) β)
    (f : Forest α) :
    (lookUp id >>= next) f =
      match f.node? id with
      | some node => next node f
      | none => .error (.structural id .absent) f := by
  simp only [bind, EStateM.bind]
  rw [lookUp, Attempt.get_bind, require]
  cases f.node? id <;> rfl

/-- A missing node is refused before a node with a parent. -/
theorem registration_eq (f : Forest α) (id : NodeId) :
    registration id f =
      if id < f.size then
        if (f.parent? id).isSome then .error (.structural id .parentedRoot) f
        else .ok () (if id ∈ f.roots then f else { f with roots := f.roots ++ [id] })
      else .error (.structural id .absent) f := by
  rw [registration, lookUp_bind]
  cases hnode : f.node? id with
  | none => rw [if_neg (not_lt_size_of_node? hnode)]
  | some node =>
    rw [if_pos (lt_size_of_node? hnode), parent?, hnode, Option.bind_some]
    dsimp only
    split <;> rfl

/-- Whether a node may be a root is looked at before anything is written. -/
theorem clean_registration (id : NodeId) : (registration id : Attempt (Forest α) Unit).Clean := by
  intro f e after h
  rw [registration_eq] at h
  split at h
  · split at h <;> cases h
    rfl
  · cases h
    rfl

theorem markRoot_eq (f : Forest α) (id : NodeId) :
    f.markRoot id =
      if id < f.size then
        if (f.parent? id).isSome then .error (.structural id .parentedRoot)
        else .ok (if id ∈ f.roots then f else { f with roots := f.roots ++ [id] })
      else .error (.structural id .absent) := by
  unfold markRoot Attempt.outcome
  rw [registration_eq]
  by_cases hlt : id < f.size
  · by_cases hparent : (f.parent? id).isSome = true <;> simp only [hlt, hparent, if_true] <;> rfl
  · simp only [hlt, if_false]
    rfl

theorem markRoot_eq_ok_iff {f g : Forest α} {id : NodeId} :
    f.markRoot id = .ok g ↔
      id < f.size ∧ f.parent? id = none ∧
        g = if id ∈ f.roots then f else { f with roots := f.roots ++ [id] } := by
  rw [markRoot_eq]
  by_cases hlt : id < f.size
  · cases hparent : f.parent? id with
    | none => simp [hlt, eq_comm]
    | some parent => simp [hlt]
  · simp [hlt]

/-! ## Attaching nodes -/

/-- What attaching `child` below `parent` makes of a forest. -/
structure Attached (f : Forest α) (child parent : NodeId) (g : Forest α) : Prop where
  size_eq : g.size = f.size
  created_eq : g.created = f.created
  roots_eq : g.roots = f.roots.filter fun id => id ≠ child
  label?_eq : ∀ id, g.label? id = f.label? id
  sequence_eq : ∀ id, g.sequence id = f.sequence id
  parent?_eq : ∀ id, g.parent? id = if id = child then some parent else f.parent? id
  children_eq : ∀ id, g.children id =
    if id = parent then
      if child ∈ f.children id then f.children id else f.children id ++ [child]
    else if f.parent? child = some id then (f.children id).filter fun other => other ≠ child
    else f.children id

/-- The forest without `child` among the roots and among the children of the node it leaves. -/
def parted (f : Forest α) (child : NodeId) (left : Option NodeId) : Forest α :=
  let unrooted := { f with roots := f.roots.filter fun id => id ≠ child }
  match left with
  | some old => unrooted.modify old (Node.dropChild child)
  | none => unrooted

/-- The forest after `child` has left `left` and has been put below `parent`. -/
def moved (f : Forest α) (child parent : NodeId) (left : Option NodeId) : Forest α :=
  ((f.parted child left).modify child fun node => { node with parent := some parent }).modify
    parent (Node.addChild child)

/-- A missing parent is refused before a missing child, and both before a cycle. -/
theorem attachment_eq (f : Forest α) (child parent : NodeId) :
    attachment child parent f =
      let left := (f.parent? child).filter fun old => old ≠ parent
      if parent < f.size then
        if child < f.size then
          if f.isAncestorOrSelf child parent then .error (.structural child (.cycle parent)) f
          else .ok left (f.moved child parent left)
        else .error (.structural child .absent) f
      else .error (.structural parent .absent) f := by
  rw [attachment, lookUp_bind]
  -- The parent is looked up first, so a missing child is told of a parent that is there.
  cases hparent : f.node? parent with
  | none => simp only [if_neg (not_lt_size_of_node? hparent)]
  | some above =>
    simp only [if_pos (lt_size_of_node? hparent)]
    rw [lookUp_bind]
    cases hchild : f.node? child with
    | none => simp only [if_neg (not_lt_size_of_node? hchild)]
    | some node =>
      simp only [if_pos (lt_size_of_node? hchild), parent?, hchild, Option.bind_some]
      rw [Attempt.get_bind]
      split
      case isTrue => rfl
      case isFalse => cases node.parent.filter fun old => old ≠ parent <;> rfl

/-- All reasons to refuse a node are looked for before anything is written. -/
theorem clean_attachment (child parent : NodeId) :
    (attachment child parent : Attempt (Forest α) (Option NodeId)).Clean := by
  intro f e after h
  rw [attachment_eq] at h
  dsimp only at h
  split at h
  · split at h
    · split at h <;> cases h
      rfl
    · cases h
      rfl
  · cases h
    rfl

theorem attach_eq (f : Forest α) (child parent : NodeId) :
    f.attach child parent =
      let left := (f.parent? child).filter fun old => old ≠ parent
      if parent < f.size then
        if child < f.size then
          if f.isAncestorOrSelf child parent then .error (.structural child (.cycle parent))
          else .ok (left, f.moved child parent left)
        else .error (.structural child .absent)
      else .error (.structural parent .absent) := by
  unfold attach Attempt.outcome
  rw [attachment_eq]
  by_cases hparent : parent < f.size
  · by_cases hchild : child < f.size
    · simp only [hparent, hchild, if_true]
      cases f.isAncestorOrSelf child parent <;> rfl
    · simp only [hparent, hchild, if_true, if_false]
  · simp only [hparent, if_false]

theorem attach_eq_ok_iff {f g : Forest α} {child parent : NodeId} {left : Option NodeId} :
    f.attach child parent = .ok (left, g) ↔
      parent < f.size ∧ child < f.size ∧ f.isAncestorOrSelf child parent = false ∧
        left = (f.parent? child).filter (fun old => old ≠ parent) ∧
        g = f.moved child parent left := by
  rw [attach_eq]
  by_cases hparent : parent < f.size
  · by_cases hchild : child < f.size
    · cases hcycle : f.isAncestorOrSelf child parent with
      | true => simp [hparent, hchild]
      | false =>
        simp only [hparent, hchild, if_true, if_false, Bool.false_eq_true, Except.ok.injEq,
          Prod.mk.injEq, true_and]
        constructor
        · intro h
          obtain ⟨rfl, rfl⟩ := h
          exact ⟨rfl, rfl⟩
        · intro h
          obtain ⟨rfl, rfl⟩ := h
          exact ⟨rfl, rfl⟩
    · simp [hparent, hchild]
  · simp [hparent]

theorem node?_parted (f : Forest α) (child id : NodeId) (left : Option NodeId) :
    (f.parted child left).node? id =
      if left = some id then (f.node? id).map (Node.dropChild child) else f.node? id := by
  cases left with
  | none => rfl
  | some old =>
    simp only [parted, node?_modify, Option.some.injEq]
    rfl

theorem addChild_eq (child : NodeId) (node : Node α) :
    node.addChild child =
      { node with
        children :=
          if child ∈ node.children then node.children else node.children ++ [child] } := by
  unfold Node.addChild
  split <;> rfl

theorem node?_moved (f : Forest α) (child parent id : NodeId) (left : Option NodeId) :
    (f.moved child parent left).node? id =
      (f.node? id).map fun node =>
        let kept := if left = some id then node.children.filter fun other => other ≠ child
          else node.children
        { label := node.label
          parent := if id = child then some parent else node.parent
          children :=
            if id = parent then if child ∈ kept then kept else kept ++ [child] else kept
          sequence := node.sequence } := by
  unfold moved
  rw [node?_modify, node?_modify, node?_parted]
  cases f.node? id with
  | none => simp
  | some node =>
    -- Which of the three changes reach the node.
    by_cases hparent : parent = id <;> by_cases hchild : child = id <;>
      by_cases hleft : left = some id <;>
      simp [hparent, hchild, hleft, addChild_eq, Node.dropChild, eq_comm]

theorem attached_of_attach {f g : Forest α} {child parent : NodeId} {left : Option NodeId}
    (h : f.attach child parent = .ok (left, g)) : Attached f child parent g := by
  obtain ⟨hparent, hchild, -, hleft, rfl⟩ := attach_eq_ok_iff.mp h
  have hnode := fun id => node?_moved f child parent id left
  -- The child leaves the list it is in only if that is not the list it joins.
  have hmem : ∀ id, left = some id ↔ f.parent? child = some id ∧ id ≠ parent := by
    intro id
    rw [hleft, Option.filter_eq_some_iff]
    simp
  refine ⟨?_, ?_, ?_, ?_, ?_, ?_, ?_⟩
  · -- Numbers, creation counts and roots: no link is looked at.
    cases left <;> simp only [moved, parted, size_modify] <;> rfl
  · cases left <;> rfl
  · cases left <;> rfl
  · -- Labels and creation counts stay with their nodes.
    intro id
    unfold label?
    rw [hnode]
    cases f.node? id <;> rfl
  · intro id
    unfold sequence
    rw [hnode]
    cases f.node? id <;> rfl
  · -- The child has a new parent, all others keep theirs.
    intro id
    unfold parent?
    rw [hnode]
    cases hid : f.node? id with
    | none =>
      -- A missing node is not the child.
      have hne : id ≠ child := by
        rintro rfl
        rw [← isSome_node?_iff, hid] at hchild
        exact absurd hchild (by simp)
      simp [hne]
    | some node => by_cases hc : id = child <;> simp [hc]
  · -- The child joins one list and leaves another one.
    intro id
    unfold children
    rw [hnode]
    cases hid : f.node? id with
    | none =>
      have hne : id ≠ parent := by
        rintro rfl
        rw [← isSome_node?_iff, hid] at hparent
        exact absurd hparent (by simp)
      simp [hne]
    | some node =>
      by_cases hp : id = parent
      · -- The list that the child joins is not the one it leaves.
        subst hp
        have hl : left ≠ some id := fun hl => ((hmem id).mp hl).2 rfl
        by_cases hm : child ∈ node.children <;> simp [hl, hm]
      · simp only [Option.map_some, Option.elim_some, hp, if_false, hmem, ne_eq, not_false_eq_true,
          and_true]

/-! ## Operations one after the other -/

/-- An operation on a forest, with any numbers as operands. -/
inductive Operation (α : Type) where
  | push (label : α)
  | pushRoot (label : α)
  | markRoot (id : NodeId)
  | attach (child parent : NodeId)

/-- Whether an operation creates a node. -/
def Operation.creates : Operation α → Bool
  | .push _ => true
  | .pushRoot _ => true
  | _ => false

/-- The forest that an operation leaves, whether it is refused or not. -/
def perform (f : Forest α) : Operation α → Forest α
  | .push label => (f.push label).2
  | .pushRoot label => (f.pushRoot label).2
  | .markRoot id => (registration id).after f
  | .attach child parent => (attachment child parent).after f

/-- A refused operation leaves the forest as it is. -/
theorem perform_markRoot_eq (f : Forest α) (id : NodeId) :
    f.perform (.markRoot id) =
      match f.markRoot id with
      | .ok g => g
      | .error _ => f := by
  rw [perform, (clean_registration id).after_eq, markRoot]
  cases (registration id).outcome f <;> rfl

theorem perform_attach_eq (f : Forest α) (child parent : NodeId) :
    f.perform (.attach child parent) =
      match f.attach child parent with
      | .ok (_, g) => g
      | .error _ => f := by
  rw [perform, (clean_attachment child parent).after_eq, attach]
  cases (attachment child parent).outcome f <;> rfl

/-- The forest after operations one after the other. -/
def performAll (f : Forest α) (ops : List (Operation α)) : Forest α := ops.foldl perform f

theorem performAll_append (f : Forest α) (ops later : List (Operation α)) :
    f.performAll (ops ++ later) = (f.performAll ops).performAll later :=
  List.foldl_append

theorem perform_markRoot (f : Forest α) (id : NodeId) :
    f.perform (.markRoot id) = f ∨
      (f.perform (.markRoot id) = { f with roots := f.roots ++ [id] } ∧
        id < f.size ∧ f.parent? id = none ∧ id ∉ f.roots) := by
  cases h : f.markRoot id with
  | error e => left; simp [perform_markRoot_eq, h]
  | ok g =>
    obtain ⟨hlt, hparent, hg⟩ := markRoot_eq_ok_iff.mp h
    -- Marking a root again changes nothing.
    by_cases hmem : id ∈ f.roots
    · left; simp [perform_markRoot_eq, h, hg, hmem]
    · right; simp [perform_markRoot_eq, h, hg, hmem, hlt, hparent]

theorem perform_attach (f : Forest α) (child parent : NodeId) :
    f.perform (.attach child parent) = f ∨
      (Attached f child parent (f.perform (.attach child parent)) ∧
        parent < f.size ∧ child < f.size ∧ f.isAncestorOrSelf child parent = false) := by
  cases h : f.attach child parent with
  | error e =>
    left; simp [perform_attach_eq, h]
  | ok r =>
    obtain ⟨left, g⟩ := r
    right
    obtain ⟨hparent, hchild, hcycle, -, -⟩ := attach_eq_ok_iff.mp h
    simp only [perform_attach_eq, h]
    exact ⟨attached_of_attach h, hparent, hchild, hcycle⟩

/-- A node keeps its label. -/
theorem label?_perform {f : Forest α} {id : NodeId} {label : α} (h : f.label? id = some label)
    (op : Operation α) : (f.perform op).label? id = some label := by
  have hne : id ≠ f.size := Nat.ne_of_lt (lt_size_of_label? h)
  cases op with
  | push other => rw [perform, label?_push, if_neg hne, h]
  | pushRoot other =>
    show (f.push other).2.label? id = some label
    rw [label?_push, if_neg hne, h]
  | markRoot root =>
    rcases perform_markRoot f root with hsame | ⟨hroots, -⟩
    · rw [hsame, h]
    · rw [hroots]; exact h
  | attach child parent =>
    rcases perform_attach f child parent with hsame | ⟨hg, -⟩
    · rw [hsame, h]
    · rw [hg.label?_eq, h]

theorem label?_performAll {f : Forest α} {id : NodeId} {label : α} (h : f.label? id = some label)
    (ops : List (Operation α)) : (f.performAll ops).label? id = some label := by
  -- Operations create nodes and change links, and no label is touched.
  induction ops generalizing f with
  | nil => exact h
  | cons op ops ih => exact ih (label?_perform h op)

/-- A node that an operation creates has its label ever after. -/
theorem label?_of_created (f : Forest α) {label : α} {op : Operation α}
    (hop : op = .push label ∨ op = .pushRoot label) (later : List (Operation α)) :
    ((f.perform op).performAll later).label? f.size = some label := by
  refine label?_performAll ?_ later
  rcases hop with rfl | rfl
  · rw [perform, label?_push, if_pos rfl]
  · show (f.push label).2.label? f.size = some label
    rw [label?_push, if_pos rfl]

end Forest

end TreeNotation
