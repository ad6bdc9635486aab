import TreeNotation.Proofs.Forest.Unfolding
import TreeNotation.Writing.Dialect

/-!
# Writing Matching Forests

What a dialect writes of a forest depends on the labels in it and on the places of the nodes. The
numbers of the nodes show in errors only.

- **Errors**: `Error.withoutNode` forgets which node an error names, `withoutNodes` which nodes the
  errors of a step name; it commutes with the ways to put steps together;
- **Nodes**: `Dialect.AlikeAt` says that two dialects treat two nodes alike;
- **Forests**: `withoutNodes_render`, `withoutNodes_convert` and `mapError_convertWith` lead from
  nodes to trees, to forests and to conversions.
-/

namespace TreeNotation

/-- The error without the number of the node that it names. -/
def Error.withoutNode : Error → Error
  | .structural _ fault => .structural 0 fault
  | e => e

namespace Token

/-! ## Section 1: Steps without the nodes they name -/

variable {κ γ δ : Type}

/-- The step with errors that name no node. -/
def withoutNodes (m : Rendering κ γ) : Rendering κ γ := fun ledger =>
  match m ledger with
  | .ok value after => .ok value after
  | .error e after => .error e.withoutNode after

@[simp]
theorem withoutNodes_pure (value : γ) :
    withoutNodes (pure value : Rendering κ γ) = pure value := rfl

@[simp]
theorem withoutNodes_bind (m : Rendering κ γ) (next : γ → Rendering κ δ) :
    withoutNodes (m >>= next) = withoutNodes m >>= fun value => withoutNodes (next value) := by
  funext ledger
  simp only [withoutNodes, bind, EStateM.bind]
  cases m ledger <;> rfl

/-- Steps that are alike may be made for matching things one after the other. -/
theorem withoutNodes_mapM_congr {ι ι' : Type} {pairs : ι → ι' → Prop} {step : ι → Rendering κ γ}
    {step' : ι' → Rendering κ γ}
    (hstep : ∀ a b, pairs a b → withoutNodes (step a) = withoutNodes (step' b))
    {as : List ι} {bs : List ι'} (h : List.Forall₂ pairs as bs) :
    withoutNodes (as.mapM step) = withoutNodes (bs.mapM step') := by
  -- The induction is on the two lists; a failure ends both runs at the same place.
  induction h with
  | nil => rfl
  | cons hab _ ih =>
    simp only [List.mapM_cons, withoutNodes_bind, hstep _ _ hab, ih]

end Token

namespace Writing.Dialect

open Token

variable {α β κ : Type} {d d' : Dialect α κ}

/-! ## Section 2: Trees -/

/-- Two dialects treat two nodes alike. -/
structure AlikeAt (d d' : Dialect α κ) (a : NodeId) (x : α) (b : NodeId) (y : α) : Prop where
  skips_eq : d.skips x = d'.skips y
  inlines_eq : d.inlines x = d'.inlines y
  own_eq : withoutNodes (d.own a x) = withoutNodes (d'.own b y)
  encloses_eq : d.encloses a = d'.encloses b

theorem assemble_eq (hlayout : d.layout = d'.layout) {a b : NodeId}
    (hencloses : d.encloses a = d'.encloses b) (level : Nat) (own lead group : String) :
    d.assemble a level own lead group = d'.assemble b level own lead group := by
  unfold assemble
  rw [hlayout, hencloses]

mutual

theorem withoutNodes_render (hlayout : d.layout = d'.layout) (level : Nat) :
    ∀ s t : Tree α, s.Alike (AlikeAt d d') t →
      withoutNodes (d.render level s) = withoutNodes (d'.render level t)
  | .node a x ss, .node b y ts, h => by
    unfold Tree.Alike at h
    obtain ⟨hat, hbelow⟩ := h
    -- Both nodes are skipped, or both are written around what is below them.
    rw [render, render, hat.skips_eq]
    split
    case isTrue => rfl
    case isFalse =>
      simp only [withoutNodes_bind, withoutNodes_pure, hat.own_eq, hlayout,
        assemble_eq hlayout hat.encloses_eq,
        withoutNodes_renderBelow hlayout (level + 1) ss ts hbelow]

theorem withoutNodes_renderBelow (hlayout : d.layout = d'.layout) (level : Nat) :
    ∀ ss ts : List (Tree α), Tree.EachAlike (AlikeAt d d') ss ts →
      withoutNodes (d.renderBelow level ss) = withoutNodes (d'.renderBelow level ts)
  | [], [], _ => rfl
  | .node a x ss :: rest, .node b y ts :: rest', h => by
    unfold Tree.EachAlike at h
    obtain ⟨hfirst, hrest⟩ := h
    have hat := hfirst
    unfold Tree.Alike at hat
    simp only [renderBelow, Tree.label, Tree.id, hat.1.inlines_eq]
    -- The first child leads the line if it is a text, otherwise it comes with the others.
    by_cases hinlines : d'.inlines y = true
    · simp only [hinlines, if_true, withoutNodes_bind, withoutNodes_pure, hat.1.own_eq,
        withoutNodes_renderEach hlayout level rest rest' hrest]
    · simp only [hinlines, if_false, Bool.false_eq_true, withoutNodes_bind, withoutNodes_pure,
        withoutNodes_render hlayout level (.node a x ss) (.node b y ts) hfirst,
        withoutNodes_renderEach hlayout level rest rest' hrest]
  | [], _ :: _, h => by unfold Tree.EachAlike at h; exact h.elim
  | _ :: _, [], h => by unfold Tree.EachAlike at h; exact h.elim

theorem withoutNodes_renderEach (hlayout : d.layout = d'.layout) (level : Nat) :
    ∀ ss ts : List (Tree α), Tree.EachAlike (AlikeAt d d') ss ts →
      withoutNodes (d.renderEach level ss) = withoutNodes (d'.renderEach level ts)
  | [], [], _ => rfl
  | s :: ss, t :: ts, h => by
    unfold Tree.EachAlike at h
    obtain ⟨hfirst, hrest⟩ := h
    simp only [renderEach, withoutNodes_bind, withoutNodes_pure,
      withoutNodes_render hlayout level s t hfirst,
      withoutNodes_renderEach hlayout level ss ts hrest]
  | [], _ :: _, h => by unfold Tree.EachAlike at h; exact h.elim
  | _ :: _, [], h => by unfold Tree.EachAlike at h; exact h.elim

end

/-! ## Section 3: Forests -/

section Forests

variable {look : α → β} {f g : Forest α}

theorem withoutNodes_build (hf : f.WellFormed) (hg : g.WellFormed) (h : f.SameTrees look g)
    (hlayout : d.layout = d'.layout)
    (hat : ∀ a b x y, f.Reached g a b → look x = look y → AlikeAt d d' a x b y) {a b : NodeId}
    (hab : f.Reached g a b) (level : Nat) :
    withoutNodes (d.build f a level) = withoutNodes (d'.build g b level) := by
  obtain ⟨pairs, hpairs⟩ := h
  -- Nodes of well-formed forests unfold, so neither build fails for want of a tree.
  obtain ⟨s, hs⟩ := Option.isSome_iff_exists.mp (Forest.isSome_subtree? hf (hab.lt_size_left hf))
  obtain ⟨t, ht⟩ := Option.isSome_iff_exists.mp (Forest.isSome_subtree? hg (hab.lt_size_right hg))
  simp only [build, hs, ht]
  exact withoutNodes_render hlayout level s t (Forest.alike_of_unfold hpairs.reached hat hab hs ht)

theorem withoutNodes_convert (hf : f.WellFormed) (hg : g.WellFormed) (h : f.SameTrees look g)
    (hlayout : d.layout = d'.layout)
    (hat : ∀ a b x y, f.Reached g a b → look x = look y → AlikeAt d d' a x b y) :
    withoutNodes (d.convert f) = withoutNodes (d'.convert g) := by
  have hroots : List.Forall₂ (f.Reached g) f.rootIds g.rootIds := by
    obtain ⟨pairs, hpairs⟩ := h
    exact hpairs.reached.roots
  -- Roots match in order, and so do the trees below them.
  have hbuild : ∀ a b, f.Reached g a b →
      withoutNodes (d.build f a 0) = withoutNodes (d'.build g b 0) :=
    fun _ _ hab => withoutNodes_build hf hg h hlayout hat hab 0
  have hparts := withoutNodes_mapM_congr hbuild hroots
  unfold convert
  simp only [withoutNodes_bind, withoutNodes_pure, hparts, hlayout]

/-- Forests with the same trees have the same conversion, with the same names in it, or fail for the
same reason at nodes of their own. -/
theorem mapError_convertWith (hf : f.WellFormed) (hg : g.WellFormed) (h : f.SameTrees look g)
    (hlayout : d.layout = d'.layout)
    (hat : ∀ a b x y, f.Reached g a b → look x = look y → AlikeAt d d' a x b y) {μ : Type}
    (tables : Ledger κ → μ) (a : Supply) :
    (d.convertWith tables a f).mapError Error.withoutNode =
      (d'.convertWith tables a g).mapError Error.withoutNode := by
  -- Both conversions begin with the same books.
  have hsame := congrFun (withoutNodes_convert hf hg h hlayout hat) (Ledger.ofSupply a)
  simp only [withoutNodes] at hsame
  unfold convertWith
  cases hleft : d.convert f (Ledger.ofSupply a) <;>
    cases hright : d'.convert g (Ledger.ofSupply a) <;>
    simp_all [Except.mapError]

end Forests

end Writing.Dialect

end TreeNotation
