import Mathlib.Data.List.Nodup
import TreeNotation.Proofs.Forest.Ancestry

/-!
# Well-Formed Forests

The bookkeeping of every forest that operations can grow is that of ordered trees.

- **Invariant**: `WellFormed`, one field for each thing that parents, children, roots and creation
  counts have to agree on;
- **Steps**: one preservation lemma for each operation, and `WellFormed.perform` for all of them;
- **Runs**: `wellFormed_performAll`, and `performAll_ordered_forest`, which adds the order of the
  roots and what stays true of a node once it has been attached.
-/

namespace TreeNotation

namespace Forest

variable {α : Type}

/-! ## Section 1: The invariant -/

/-- Parents and children agree, no node lies above itself, and the roots are nodes on top. -/
structure WellFormed (f : Forest α) : Prop where
  created_eq : f.created = f.size
  /-- Nodes are counted from one in the order of their numbers. -/
  sequence_eq : ∀ id, id < f.size → f.sequence id = id + 1
  mem_children_iff : ∀ parent child, child ∈ f.children parent ↔ f.parent? child = some parent
  nodup_children : ∀ id, (f.children id).Nodup
  acyclic : f.Acyclic
  lt_size_of_root : ∀ root ∈ f.roots, root < f.size
  parent?_root : ∀ root ∈ f.roots, f.parent? root = none
  nodup_roots : f.roots.Nodup

namespace WellFormed

theorem empty : (Forest.empty : Forest α).WellFormed where
  created_eq := rfl
  sequence_eq id h := absurd h (by simp)
  mem_children_iff parent child := by simp [children, parent?]
  nodup_children id := by simp [children]
  acyclic id h := by
    obtain ⟨parent, -, hparent⟩ := Relation.TransGen.tail'_iff.mp h
    simp [ParentOf, parent?] at hparent
  lt_size_of_root root h := by simp [Forest.empty] at h
  parent?_root root h := by simp [Forest.empty] at h
  nodup_roots := List.nodup_nil

theorem parent_lt_size {f : Forest α} (hf : f.WellFormed) {child parent : NodeId}
    (h : f.parent? child = some parent) : parent < f.size :=
  lt_size_of_mem_children ((hf.mem_children_iff parent child).mpr h)

theorem child_lt_size {f : Forest α} (hf : f.WellFormed) {child parent : NodeId}
    (h : child ∈ f.children parent) : child < f.size :=
  lt_size_of_parent? ((hf.mem_children_iff parent child).mp h)

theorem parent?_size {f : Forest α} : f.parent? f.size = none := by
  unfold parent?
  rw [node?_size]; rfl

/-! ## Section 2: Creating and marking -/

theorem push {f : Forest α} (hf : f.WellFormed) (label : α) : (f.push label).2.WellFormed where
  created_eq := by rw [size_push]; exact congrArg (· + 1) hf.created_eq
  sequence_eq id h := by
    rw [size_push] at h
    rcases Nat.lt_succ_iff_lt_or_eq.mp h with hlt | rfl
    · rw [sequence_push_of_lt f label hlt]; exact hf.sequence_eq id hlt
    · -- The new node is counted after all that there are.
      rw [sequence_push_self, hf.created_eq]
  mem_children_iff parent child := by
    rw [children_push, parent?_push]; exact hf.mem_children_iff parent child
  nodup_children id := by rw [children_push]; exact hf.nodup_children id
  acyclic := by
    -- No edge is new, so no cycle can be.
    have hparents : (f.push label).2.ParentOf = f.ParentOf := by
      funext parent child
      simp only [ParentOf, parent?_push]
    unfold Acyclic Above
    rw [hparents]
    exact hf.acyclic
  lt_size_of_root root h := by rw [size_push]; exact Nat.lt_succ_of_lt (hf.lt_size_of_root root h)
  parent?_root root h := by rw [parent?_push]; exact hf.parent?_root root h
  nodup_roots := hf.nodup_roots

/-- A node without a parent may be registered as a root. -/
theorem register {f : Forest α} (hf : f.WellFormed) {id : NodeId} (hlt : id < f.size)
    (hparent : f.parent? id = none) (hnew : id ∉ f.roots) :
    ({ f with roots := f.roots ++ [id] } : Forest α).WellFormed where
  created_eq := hf.created_eq
  sequence_eq := hf.sequence_eq
  mem_children_iff := hf.mem_children_iff
  nodup_children := hf.nodup_children
  acyclic := hf.acyclic
  lt_size_of_root root h := by
    rcases List.mem_append.mp h with hold | hself
    · exact hf.lt_size_of_root root hold
    · rw [List.mem_singleton.mp hself]; exact hlt
  parent?_root root h := by
    rcases List.mem_append.mp h with hold | hself
    · exact hf.parent?_root root hold
    · rw [List.mem_singleton.mp hself]; exact hparent
  nodup_roots := by
    apply List.nodup_append.mpr
    refine ⟨hf.nodup_roots, List.nodup_singleton id, ?_⟩
    rintro root hroot other hother rfl
    exact hnew (List.mem_singleton.mp hother ▸ hroot)

theorem pushRoot {f : Forest α} (hf : f.WellFormed) (label : α) :
    (f.pushRoot label).2.WellFormed := by
  have hlt : f.size < (f.push label).2.size := by rw [size_push]; exact Nat.lt_succ_self _
  refine (hf.push label).register hlt ?_ ?_
  · rw [parent?_push]; exact parent?_size
  · -- The number of the new node was not in use, so it is no root yet.
    intro hroot
    exact Nat.lt_irrefl _ (hf.lt_size_of_root f.size hroot)

/-! ## Section 3: Attaching -/

/-- The children of a node after `child` has been put below `parent`, whatever it was below. -/
theorem mem_children_attached {f g : Forest α} (hf : f.WellFormed) {child parent : NodeId}
    (hg : Attached f child parent g) (id other : NodeId) :
    other ∈ g.children id ↔
      if other = child then id = parent else other ∈ f.children id := by
  have hchild : child ∈ f.children id ↔ f.parent? child = some id := hf.mem_children_iff id child
  rw [hg.children_eq]
  by_cases hid : id = parent
  · -- The list that the child joins, with the child in it or not.
    rw [if_pos hid]
    split
    case isTrue hmem =>
      by_cases hother : other = child
      · rw [hother, if_pos rfl]; exact iff_of_true hmem hid
      · simp [hother]
    case isFalse hmem =>
      by_cases hother : other = child
      · simp [hother, hid]
      · simp [hother]
  · -- Any other list, among them the one that the child leaves.
    rw [if_neg hid]
    split
    case isTrue hparent =>
      by_cases hother : other = child
      · simp [hother, hid]
      · simp [hother]
    case isFalse hparent =>
      -- The child is in no other list than that of its parent.
      by_cases hother : other = child
      · simp [hother, hid, hchild, hparent]
      · simp [hother]

theorem nodup_children_attached {f g : Forest α} (hf : f.WellFormed) {child parent : NodeId}
    (hg : Attached f child parent g) (id : NodeId) : (g.children id).Nodup := by
  have hnodup := hf.nodup_children id
  rw [hg.children_eq]
  split
  case isTrue =>
    split
    case isTrue => exact hnodup
    case isFalse hnew =>
      -- The child is put at the end only if it is not in the list.
      apply List.nodup_append.mpr
      refine ⟨hnodup, List.nodup_singleton child, ?_⟩
      rintro other hother same hsame rfl
      exact hnew (List.mem_singleton.mp hsame ▸ hother)
  case isFalse =>
    split
    case isTrue => exact hnodup.filter _
    case isFalse => exact hnodup

theorem attached {f g : Forest α} (hf : f.WellFormed) {child parent : NodeId}
    (hg : Attached f child parent g) (hcycle : ¬ f.AboveOrSelf child parent) : g.WellFormed where
  created_eq := by rw [hg.created_eq, hg.size_eq]; exact hf.created_eq
  sequence_eq id h := by
    rw [hg.size_eq] at h
    rw [hg.sequence_eq]; exact hf.sequence_eq id h
  mem_children_iff id other := by
    rw [mem_children_attached hf hg, hg.parent?_eq]
    split
    case isTrue => rw [Option.some.injEq]; exact eq_comm
    case isFalse => exact hf.mem_children_iff id other
  nodup_children := nodup_children_attached hf hg
  acyclic := acyclic_of_new_parent hf.acyclic hg.parent?_eq hcycle
  lt_size_of_root root h := by
    rw [hg.roots_eq] at h
    rw [hg.size_eq]; exact hf.lt_size_of_root root (List.mem_filter.mp h).1
  parent?_root root h := by
    rw [hg.roots_eq, List.mem_filter] at h
    -- The child is no root any more, so no root has a new parent.
    have hne : root ≠ child := by simpa using h.2
    rw [hg.parent?_eq, if_neg hne]
    exact hf.parent?_root root h.1
  nodup_roots := by rw [hg.roots_eq]; exact hf.nodup_roots.filter _

/-! ## Section 4: Operations -/

/-- An operation keeps a forest well formed, whether it is refused or not. -/
theorem perform {f : Forest α} (hf : f.WellFormed) (op : Operation α) :
    (f.perform op).WellFormed := by
  cases op with
  | push label => exact hf.push label
  | pushRoot label => exact hf.pushRoot label
  | markRoot id =>
    rcases perform_markRoot f id with hsame | ⟨hroots, hlt, hparent, hnew⟩
    · rw [hsame]; exact hf
    · rw [hroots]; exact hf.register hlt hparent hnew
  | attach child parent =>
    rcases perform_attach f child parent with hsame | ⟨hg, -, -, hcycle⟩
    · rw [hsame]; exact hf
    · -- The search that attaching makes has found no cycle.
      apply hf.attached hg
      intro habove
      rw [(isAncestorOrSelf_iff hf.acyclic).mpr habove] at hcycle
      cases hcycle

theorem performAll {f : Forest α} (hf : f.WellFormed) (ops : List (Operation α)) :
    (f.performAll ops).WellFormed := by
  -- The induction is on the operations; each of them leaves a forest like the one it found.
  induction ops generalizing f with
  | nil => exact hf
  | cons op ops ih => exact ih (hf.perform op)

/-! ## Section 5: The order of the roots -/

theorem mem_rootIds {f : Forest α} {id : NodeId} : id ∈ f.rootIds ↔ id ∈ f.roots :=
  List.mem_mergeSort

theorem pairwise_rootIds {f : Forest α} (hf : f.WellFormed) :
    f.rootIds.Pairwise fun a b => f.sequence a < f.sequence b := by
  -- Sorting gives an order in which equals may tie.
  have hle : f.rootIds.Pairwise fun a b => f.sequence a ≤ f.sequence b := by
    have hsorted : f.rootIds.Pairwise fun a b => decide (f.sequence a ≤ f.sequence b) = true :=
      List.pairwise_mergeSort
        (fun a b c hab hbc => by
          simp only [decide_eq_true_eq] at hab hbc ⊢
          exact Nat.le_trans hab hbc)
        (fun a b => by simpa using Nat.le_total (f.sequence a) (f.sequence b)) f.roots
    exact hsorted.imp fun h => of_decide_eq_true h
  have hnodup : f.rootIds.Nodup := (List.mergeSort_perm f.roots _).nodup_iff.mpr hf.nodup_roots
  -- Different nodes have different counts, so no two of them tie.
  refine (hle.and hnodup).imp_of_mem fun {a b} ha hb h => ?_
  have hseq : ∀ root ∈ f.rootIds, f.sequence root = root + 1 := fun root hroot =>
    hf.sequence_eq root (hf.lt_size_of_root root (mem_rootIds.mp hroot))
  refine Nat.lt_of_le_of_ne h.1 fun heq => h.2 ?_
  rw [hseq a ha, hseq b hb] at heq
  exact Nat.succ.inj heq

end WellFormed

/-- A single root is in order. -/
theorem rootIds_of_roots {f : Forest α} {root : NodeId} (h : f.roots = [root]) :
    f.rootIds = [root] := by
  rw [rootIds, h, List.mergeSort_singleton]

/-! ## Section 6: Runs -/

theorem wellFormed_performAll (ops : List (Operation α)) :
    ((empty : Forest α).performAll ops).WellFormed :=
  WellFormed.empty.performAll ops

theorem size_perform (f : Forest α) (op : Operation α) :
    (f.perform op).size = f.size + if op.creates then 1 else 0 := by
  cases op with
  | push label => exact size_push f label
  | pushRoot label => exact size_push f label
  | markRoot id =>
    rcases perform_markRoot f id with hsame | ⟨hroots, -⟩
    · rw [hsame]; rfl
    · rw [hroots]; rfl
  | attach child parent =>
    rcases perform_attach f child parent with hsame | ⟨hg, -⟩
    · rw [hsame]; rfl
    · rw [hg.size_eq]; rfl

theorem size_performAll (f : Forest α) (ops : List (Operation α)) :
    (f.performAll ops).size = f.size + ops.countP Operation.creates := by
  -- The induction is on the operations, each of which creates one node or none.
  induction ops generalizing f with
  | nil => rfl
  | cons op ops ih =>
    rw [performAll, List.foldl_cons, ← performAll, ih, size_perform, List.countP_cons]
    omega

/-- A node with a parent keeps having one. -/
theorem isSome_parent?_perform {f : Forest α} {id : NodeId} (h : (f.parent? id).isSome)
    (op : Operation α) : ((f.perform op).parent? id).isSome := by
  cases op with
  | push label => exact (parent?_push f label id).symm ▸ h
  | pushRoot label => exact (parent?_push f label id).symm ▸ h
  | markRoot root =>
    rcases perform_markRoot f root with hsame | ⟨hroots, -⟩
    · rw [hsame]; exact h
    · rw [hroots]; exact h
  | attach child parent =>
    rcases perform_attach f child parent with hsame | ⟨hg, -⟩
    · rw [hsame]; exact h
    · rw [hg.parent?_eq]
      split
      case isTrue => rfl
      case isFalse => exact h

theorem isSome_parent?_performAll {f : Forest α} {id : NodeId} (h : (f.parent? id).isSome)
    (ops : List (Operation α)) : ((f.performAll ops).parent? id).isSome := by
  -- No operation takes a parent away without giving another one.
  induction ops generalizing f with
  | nil => exact h
  | cons op ops ih => exact ih (isSome_parent?_perform h op)

/-- However a forest has been grown, it is an ordered forest: its nodes are numbered and counted in
the order of their creation, parents and children agree, no list repeats a node, no node lies above
itself, the roots are different nodes without parents and come in the order of their creation. A
node that has been attached once has a parent ever after, so it is no root any more. -/
theorem performAll_ordered_forest (ops : List (Operation α)) :
    let f := (empty : Forest α).performAll ops
    f.size = ops.countP Operation.creates ∧
    (∀ id, (f.node? id).isSome ↔ id < f.size) ∧
    (∀ id, id < f.size → f.sequence id = id + 1) ∧
    (∀ parent child, child ∈ f.children parent ↔ f.parent? child = some parent) ∧
    (∀ id, (f.children id).Nodup) ∧
    (∀ id, ¬ f.Above id id) ∧
    (∀ root ∈ f.roots, (f.node? root).isSome ∧ f.parent? root = none) ∧
    f.roots.Nodup ∧
    f.rootIds.Perm f.roots ∧
    f.rootIds.Pairwise (fun a b => f.sequence a < f.sequence b) ∧
    ∀ earlier later child parent, ops = earlier ++ .attach child parent :: later →
      (∃ result, ((empty : Forest α).performAll earlier).attach child parent = .ok result) →
      (f.parent? child).isSome ∧ child ∉ f.roots := by
  intro f
  have hf : f.WellFormed := wellFormed_performAll ops
  refine ⟨?_, fun id => isSome_node?_iff, hf.sequence_eq, hf.mem_children_iff, hf.nodup_children,
    hf.acyclic, ?_, hf.nodup_roots, List.mergeSort_perm f.roots _, hf.pairwise_rootIds, ?_⟩
  · have hsize := size_performAll (empty : Forest α) ops
    rwa [size_empty, Nat.zero_add] at hsize
  · intro root hroot
    exact ⟨isSome_node?_iff.mpr (hf.lt_size_of_root root hroot), hf.parent?_root root hroot⟩
  · -- What attaching has given a node, no later operation takes away.
    intro earlier later child parent hops hresult
    obtain ⟨⟨left, g⟩, hattach⟩ := hresult
    have hparent : (f.parent? child).isSome := by
      have hnow : (g.parent? child).isSome := by
        rw [(attached_of_attach hattach).parent?_eq, if_pos rfl]; rfl
      have hlater : f = g.performAll later := by
        simp only [f, hops, performAll_append]
        rw [performAll, List.foldl_cons, ← performAll, perform_attach_eq, hattach]
      rw [hlater]
      exact isSome_parent?_performAll hnow later
    refine ⟨hparent, fun hroot => ?_⟩
    rw [hf.parent?_root child hroot] at hparent
    cases hparent

/-- A root that is attached, moved on and refused as a root again. -/
theorem attached_root_has_parent :
    let ops : List (Operation Unit) :=
      [.pushRoot (), .pushRoot (), .push (), .attach 1 0, .attach 2 1, .attach 0 2, .attach 1 9,
        .attach 2 0, .markRoot 1]
    (((empty : Forest Unit).performAll ops).parent? 1).isSome ∧
      1 ∉ ((empty : Forest Unit).performAll ops).roots := by
  intro ops
  obtain ⟨-, -, -, -, -, -, -, -, -, -, hattached⟩ := performAll_ordered_forest ops
  exact hattached [.pushRoot (), .pushRoot (), .push ()]
    [.attach 2 1, .attach 0 2, .attach 1 9, .attach 2 0, .markRoot 1] 1 0 rfl ⟨_, rfl⟩

end Forest

end TreeNotation
