import TreeNotation.Proofs.Writing.Indentation

/-!
# From Nodes to Notations

What is true of the notation of a tree is mostly shown from the inside out: from the texts of single
nodes, and from what is known of the notations below a node, to the notation of the node and of all
that is below it.

- **Rows**: `WrittenBelow` says how what is written below a node comes about;
- **Steps**: `Compositional` is one step outwards, and `gives_render` takes all of them;
- **Conversions**: `of_convertWith`.
-/

namespace TreeNotation.Writing.Dialect

open Token (Gives Ledger Supply bind_eq_ok_iff gives_bind gives_pure)

variable {α κ : Type} {d : Dialect α κ} {P : Ledger κ → Prop} {Q : NodeId → α → String → Prop}
  {R : Tree α → String → Prop}

/-- What is written below a node with this row of trees below it: the text directly after the node,
and the other notations one by one. `Q` is true of the texts of nodes and `R` of the notations of
trees. -/
inductive WrittenBelow (d : Dialect α κ) (Q : NodeId → α → String → Prop)
    (R : Tree α → String → Prop) : List (Tree α) → String × List String → Prop where
  | nil : WrittenBelow d Q R [] ("", [])
  /-- The first tree is plain text, of which only the text itself is written. -/
  | text {first : Tree α} {rest : List (Tree α)} {lead : String} {parts : List String}
      (hinlines : d.inlines first.label = true) (hlead : Q first.id first.label lead)
      (hrest : List.Forall₂ R rest parts) : WrittenBelow d Q R (first :: rest) (lead, parts)
  | row {first : Tree α} {rest : List (Tree α)} {part : String} {parts : List String}
      (hinlines : ¬ d.inlines first.label = true) (hfirst : R first part)
      (hrest : List.Forall₂ R rest parts) :
      WrittenBelow d Q R (first :: rest) ("", part :: parts)

/-- `R` is true of the notation of a tree if `Q` is true of the texts of its nodes. -/
structure Compositional (d : Dialect α κ) (Q : NodeId → α → String → Prop)
    (R : Tree α → String → Prop) : Prop where
  skipped : ∀ tree, d.skips tree.label = true → R tree ""
  node : ∀ {id label children own below} (level : Nat), d.skips label = false → Q id label own →
    d.WrittenBelow Q R children below →
      R (.node id label children) (d.assemble id level own below.1 (d.layout.group below.2))

namespace Compositional

mutual

theorem gives_render (h : d.Compositional Q R) (level : Nat) : ∀ tree : Tree α,
    (tree.Everywhere fun id label _ => Gives P (Q id label) (d.own id label)) →
      Gives P (R tree) (d.render level tree)
  | .node id label children, htree => by
    rw [render]
    split
    case isTrue hskips => exact gives_pure (h.skipped _ hskips)
    case isFalse hskips =>
      apply gives_bind htree.at_node.1
      intro own hown
      apply gives_bind (gives_renderBelow h (level + 1) children htree.at_node.2)
      intro below hbelow
      exact gives_pure (h.node level (Bool.eq_false_iff.mpr hskips) hown hbelow)

theorem gives_renderBelow (h : d.Compositional Q R) (level : Nat) : ∀ trees : List (Tree α),
    (∀ tree ∈ trees, tree.Everywhere fun id label _ => Gives P (Q id label) (d.own id label)) →
      Gives P (d.WrittenBelow Q R trees) (d.renderBelow level trees)
  | [], _ => by
    rw [renderBelow]
    exact gives_pure .nil
  | .node id label children :: rest, htrees => by
    have hfirst := htrees _ List.mem_cons_self
    have hrest := gives_renderEach h level rest fun tree htree =>
      htrees tree (List.mem_cons_of_mem _ htree)
    by_cases hinlines : d.inlines label = true
    · rw [renderBelow_of_inlines level id children rest hinlines]
      apply gives_bind hfirst.at_node.1
      intro lead hlead
      apply gives_bind hrest
      intro parts hparts
      exact gives_pure (.text hinlines hlead hparts)
    · rw [renderBelow_of_not_inlines level id children rest hinlines]
      apply gives_bind (gives_render h level _ hfirst)
      intro part hpart
      apply gives_bind hrest
      intro parts hparts
      exact gives_pure (.row hinlines hpart hparts)

theorem gives_renderEach (h : d.Compositional Q R) (level : Nat) : ∀ trees : List (Tree α),
    (∀ tree ∈ trees, tree.Everywhere fun id label _ => Gives P (Q id label) (d.own id label)) →
      Gives P (List.Forall₂ R trees) (d.renderEach level trees)
  | [], _ => by
    rw [renderEach]
    exact gives_pure .nil
  | first :: rest, htrees => by
    rw [renderEach]
    apply gives_bind (gives_render h level first (htrees _ List.mem_cons_self))
    intro part hpart
    apply gives_bind (gives_renderEach h level rest fun tree htree =>
      htrees tree (List.mem_cons_of_mem _ htree))
    intro parts hparts
    exact gives_pure (.cons hpart hparts)

end

/-- If `Q` is true of the texts of nodes, then a conversion that succeeds joins notations of trees
that `R` is true of. -/
theorem of_convertWith (h : d.Compositional Q R) {f : Forest α} (hf : f.WellFormed) {a : Supply}
    (hP : P (Ledger.ofSupply a))
    (hown : ∀ id label, f.label? id = some label → Gives P (Q id label) (d.own id label)) {μ : Type}
    {tables : Ledger κ → μ} {result : Conversion μ}
    (hresult : d.convertWith tables a f = .ok result) :
    ∃ parts, List.Forall₂ R f.trees parts ∧ result.text = d.layout.join parts := by
  obtain ⟨text, after, hrun, rfl⟩ := convertWith_eq_ok_iff.mp hresult
  rw [convert_eq hf] at hrun
  obtain ⟨parts, mid, hparts, hjoin⟩ := bind_eq_ok_iff.mp hrun
  cases hjoin
  refine ⟨parts, (gives_renderEach h 0 f.trees ?_ _ hP parts after hparts).2, rfl⟩
  intro tree htree
  refine Forest.everywhere_of_mem_trees ?_ htree
  intro id node depth children hnode _
  exact hown id node.label (by simp [Forest.label?, hnode])

end Compositional

end TreeNotation.Writing.Dialect
