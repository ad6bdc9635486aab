import Mathlib.Data.List.Forall2
import TreeNotation.Proofs.Forest.WellFormed

/-!
# Forests with the Same Trees

Two forests may hold the same ordered labelled trees under other numbers, beside other nodes that no
root leads to, and after other histories.

- **Statement**: `Paired` matches the roots of two forests, and with any two nodes their labels and
  their children, in order; `SameTrees` says that there is such a matching;
- **Refinement**: in well-formed forests, `Reached` is a matching that agrees on parents too.
-/

namespace TreeNotation

namespace Forest

variable {α β : Type} {look : α → β} {f g : Forest α}

/-! ## Section 1: Matching nodes -/

/-- The roots of two forests match in order, and nodes that match have the same label, as far as
`look` tells, and children that match in order. -/
structure Paired (pairs : NodeId → NodeId → Prop) (look : α → β) (f g : Forest α) : Prop where
  roots : List.Forall₂ pairs f.rootIds g.rootIds
  label_eq : ∀ a b, pairs a b → (f.label? a).map look = (g.label? b).map look
  children : ∀ a b, pairs a b → List.Forall₂ pairs (f.children a) (g.children b)

/-- The forests consist of the same ordered trees, whatever the numbers of their nodes. -/
def SameTrees (look : α → β) (f g : Forest α) : Prop :=
  ∃ pairs, Paired pairs look f g

theorem SameTrees.refl (look : α → β) (f : Forest α) : f.SameTrees look f := by
  refine ⟨fun a b => a = b, List.forall₂_same.mpr fun _ _ => rfl, ?_, ?_⟩
  · intro a b hab
    rw [hab]
  · intro a b hab
    rw [hab]
    exact List.forall₂_same.mpr fun _ _ => rfl

/-- A matching may be given as the list of its pairs. -/
theorem sameTrees_of_pairs (pairs : List (NodeId × NodeId))
    (hroots : List.Forall₂ (fun a b => (a, b) ∈ pairs) f.rootIds g.rootIds)
    (hpairs : ∀ pair ∈ pairs, (f.label? pair.1).map look = (g.label? pair.2).map look ∧
      List.Forall₂ (fun a b => (a, b) ∈ pairs) (f.children pair.1) (g.children pair.2)) :
    f.SameTrees look g :=
  ⟨fun a b => (a, b) ∈ pairs, hroots, fun a b hab => (hpairs (a, b) hab).1,
    fun a b hab => (hpairs (a, b) hab).2⟩

/-- The nodes at the same place below the same root, counted from the left. -/
inductive Reached (f g : Forest α) : NodeId → NodeId → Prop where
  | root {a b : NodeId} (h : (a, b) ∈ f.rootIds.zip g.rootIds) : Reached f g a b
  | child {p q a b : NodeId} (above : Reached f g p q)
      (h : (a, b) ∈ (f.children p).zip (g.children q)) : Reached f g a b

/-! ## Section 2: Nodes at the same place -/

namespace Paired

variable {pairs : NodeId → NodeId → Prop}

theorem of_reached (h : Paired pairs look f g) {a b : NodeId} (hab : Reached f g a b) :
    pairs a b := by
  -- The induction is on the way down to the two nodes.
  induction hab with
  | root hroot => exact (List.forall₂_iff_zip.mp h.roots).2 hroot
  | child _ hchild ih => exact (List.forall₂_iff_zip.mp (h.children _ _ ih)).2 hchild

/-- Nothing is lost by matching only the nodes at the same place. -/
theorem reached (h : Paired pairs look f g) : Paired (Reached f g) look f g where
  roots := List.forall₂_iff_zip.mpr ⟨h.roots.length_eq, fun hroot => .root hroot⟩
  label_eq a b hab := h.label_eq a b (h.of_reached hab)
  children a b hab :=
    List.forall₂_iff_zip.mpr
      ⟨(h.children a b (h.of_reached hab)).length_eq, fun hchild => .child hab hchild⟩

end Paired

namespace Reached

theorem lt_size_left (hf : f.WellFormed) {a b : NodeId} (h : Reached f g a b) : a < f.size := by
  cases h with
  | root hroot =>
    exact hf.lt_size_of_root a (WellFormed.mem_rootIds.mp (List.of_mem_zip hroot).1)
  | child _ hchild => exact hf.child_lt_size (List.of_mem_zip hchild).1

theorem lt_size_right (hg : g.WellFormed) {a b : NodeId} (h : Reached f g a b) : b < g.size := by
  cases h with
  | root hroot =>
    exact hg.lt_size_of_root b (WellFormed.mem_rootIds.mp (List.of_mem_zip hroot).2)
  | child _ hchild => exact hg.child_lt_size (List.of_mem_zip hchild).2

/-- The nodes that two nodes at the same place are attached to are at the same place as well: the
stored links lead back along the way that leads to a node. -/
theorem parents (hf : f.WellFormed) (hg : g.WellFormed) {a b : NodeId} (h : Reached f g a b) :
    (f.parent? a = none ∧ g.parent? b = none) ∨
      ∃ p q, f.parent? a = some p ∧ g.parent? b = some q ∧ Reached f g p q := by
  -- A root is a node on top; any other node has been reached from its parent.
  cases h with
  | root hroot =>
    obtain ⟨ha, hb⟩ := List.of_mem_zip hroot
    exact Or.inl ⟨hf.parent?_root a (WellFormed.mem_rootIds.mp ha),
      hg.parent?_root b (WellFormed.mem_rootIds.mp hb)⟩
  | @child p q _ _ above hchild =>
    obtain ⟨ha, hb⟩ := List.of_mem_zip hchild
    exact Or.inr ⟨p, q, (hf.mem_children_iff p a).mp ha, (hg.mem_children_iff q b).mp hb, above⟩

end Reached

end Forest

end TreeNotation
