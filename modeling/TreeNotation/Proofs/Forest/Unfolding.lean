import TreeNotation.Forest.Tree
import TreeNotation.Proofs.Forest.Correspondence

/-!
# Unfolding Forests

A node of a well-formed forest unfolds into a tree, and nodes of two forests that match unfold into
trees of the same shape.

- **Totality**: `isSome_subtree?`; a way down repeats no node, so the bound on the depth is enough;
- **Matching**: `Tree.Alike` relates two trees node by node, and `alike_of_unfold` says that the
  trees of matching nodes are related.
-/

namespace TreeNotation

/-! ## Section 1: Trees related node by node -/

mutual

/-- The nodes at the same place are related, with their labels, and there are the same places. -/
def Tree.Alike {α β : Type} (R : NodeId → α → NodeId → β → Prop) : Tree α → Tree β → Prop
  | .node a x ss, .node b y ts => R a x b y ∧ Tree.EachAlike R ss ts

/-- As many trees on both sides, related one by one. -/
def Tree.EachAlike {α β : Type} (R : NodeId → α → NodeId → β → Prop) :
    List (Tree α) → List (Tree β) → Prop
  | [], [] => True
  | s :: ss, t :: ts => Tree.Alike R s t ∧ Tree.EachAlike R ss ts
  | _, _ => False

end

namespace Forest

variable {α β : Type}

/-! ## Section 2: Unfolding a node -/

theorem unfold_succ_eq_some_iff {f : Forest α} {depth : Nat} {id : NodeId} {tree : Tree α} :
    f.unfold (depth + 1) id = some tree ↔
      ∃ node children, f.node? id = some node ∧
        node.children.mapM (f.unfold depth) = some children ∧
        tree = .node id node.label children := by
  simp only [unfold, bind, Option.bind_eq_some_iff, pure, Option.some.injEq]
  constructor
  · intro h
    obtain ⟨node, hnode, children, hchildren, rfl⟩ := h
    exact ⟨node, children, hnode, hchildren, rfl⟩
  · intro h
    obtain ⟨node, children, hnode, hchildren, rfl⟩ := h
    exact ⟨node, hnode, children, hchildren, rfl⟩

theorem mapM_cons_eq_some_iff {γ δ : Type} {g : γ → Option δ} {a : γ} {as : List γ} {bs : List δ} :
    (a :: as).mapM g = some bs ↔
      ∃ b bs', g a = some b ∧ as.mapM g = some bs' ∧ bs = b :: bs' := by
  simp only [List.mapM_cons, bind, Option.bind_eq_some_iff, pure, Option.some.injEq]
  constructor
  · intro h
    obtain ⟨b, hb, bs', hbs, rfl⟩ := h
    exact ⟨b, bs', hb, hbs, rfl⟩
  · intro h
    obtain ⟨b, bs', hb, hbs, rfl⟩ := h
    exact ⟨b, hb, bs', hbs, rfl⟩

/-- The results of a list that is gone through without a failure, item by item. -/
theorem mapM_eq_some_iff_forall₂ {γ δ : Type} {g : γ → Option δ} {as : List γ} {bs : List δ} :
    as.mapM g = some bs ↔ List.Forall₂ (fun a b => g a = some b) as bs := by
  induction as generalizing bs with
  | nil => simp [eq_comm]
  | cons a as ih => simp only [mapM_cons_eq_some_iff, List.forall₂_cons_left_iff, ih]

theorem isSome_mapM {γ δ : Type} {g : γ → Option δ} {as : List γ}
    (h : ∀ a ∈ as, (g a).isSome) : (as.mapM g).isSome := by
  induction as with
  | nil => rfl
  | cons a as ih =>
    -- The first result and those of the others.
    obtain ⟨b, hb⟩ := Option.isSome_iff_exists.mp (h a List.mem_cons_self)
    obtain ⟨bs, hbs⟩ :=
      Option.isSome_iff_exists.mp (ih fun other hother => h other (List.mem_cons_of_mem a hother))
    exact Option.isSome_iff_exists.mpr ⟨b :: bs, mapM_cons_eq_some_iff.mpr ⟨b, bs, hb, hbs, rfl⟩⟩

/-! ## Section 3: Every node unfolds -/

/-- The node `id` unfolds to the depth that the nodes `passed` on the way down to it leave. -/
theorem isSome_unfold {f : Forest α} (hf : f.WellFormed) {depth : Nat} {id : NodeId}
    {passed : List NodeId} (hid : id < f.size) (hnodup : passed.Nodup)
    (habove : ∀ other ∈ passed, f.Above other id) (hlt : ∀ other ∈ passed, other < f.size)
    (hdepth : f.size ≤ depth + passed.length) : (f.unfold depth id).isSome := by
  have hnew : id ∉ passed := fun hmem => hf.acyclic id (habove id hmem)
  have hnodup' : (id :: passed).Nodup := List.nodup_cons.mpr ⟨hnew, hnodup⟩
  have hlt' : ∀ other ∈ id :: passed, other < f.size := by
    intro other hother
    rcases List.mem_cons.mp hother with rfl | hother
    · exact hid
    · exact hlt other hother
  -- The induction is on the depth that is left. All nodes passed lie above this one, and without
  -- cycles none of them comes again, so depth and passed nodes together cover the forest.
  induction depth generalizing id passed with
  | zero =>
    -- More nodes have been passed than there are.
    have := length_le_of_nodup_of_forall_lt hnodup' hlt'
    rw [List.length_cons] at this
    omega
  | succ depth ih =>
    obtain ⟨node, hnode⟩ := Option.isSome_iff_exists.mp (isSome_node?_iff.mpr hid)
    have hchildren : f.children id = node.children := by simp [children, hnode]
    have hbelow : (node.children.mapM (f.unfold depth)).isSome := by
      -- The children are one step further down, and this node is passed as well.
      refine isSome_mapM fun child hchild => ?_
      rw [← hchildren] at hchild
      have hparent : f.ParentOf id child := (hf.mem_children_iff id child).mp hchild
      have habove' : ∀ other ∈ id :: passed, f.Above other child := by
        intro other hother
        rcases List.mem_cons.mp hother with rfl | hother
        · exact Relation.TransGen.single hparent
        · exact (habove other hother).tail hparent
      have hnew' : child ∉ id :: passed := fun hmem => hf.acyclic child (habove' child hmem)
      have hchildlt := hf.child_lt_size hchild
      apply ih hchildlt hnodup' habove' hlt' ?_ hnew' (List.nodup_cons.mpr ⟨hnew', hnodup'⟩) ?_
      · rw [List.length_cons]; omega
      · intro other hother
        rcases List.mem_cons.mp hother with rfl | hother
        · exact hchildlt
        · exact hlt' other hother
    obtain ⟨trees, htrees⟩ := Option.isSome_iff_exists.mp hbelow
    rw [unfold_succ_eq_some_iff.mpr ⟨node, trees, hnode, htrees, rfl⟩]
    rfl

theorem isSome_subtree? {f : Forest α} (hf : f.WellFormed) {id : NodeId} (hid : id < f.size) :
    (f.subtree? id).isSome :=
  isSome_unfold hf hid List.nodup_nil (by simp) (by simp) (Nat.le_add_right f.size 0)

/-! ## Section 4: Matching nodes unfold alike -/

variable {look : α → β} {f g : Forest α} {pairs : NodeId → NodeId → Prop}

theorem eachAlike_of_mapM {γ δ : Type} {R : NodeId → γ → NodeId → δ → Prop}
    {unfoldLeft : NodeId → Option (Tree γ)} {unfoldRight : NodeId → Option (Tree δ)}
    (hone : ∀ a b s t, pairs a b → unfoldLeft a = some s → unfoldRight b = some t → s.Alike R t)
    {as bs : List NodeId} (hpairs : List.Forall₂ pairs as bs) {ss : List (Tree γ)}
    {ts : List (Tree δ)} (hss : as.mapM unfoldLeft = some ss)
    (hts : bs.mapM unfoldRight = some ts) :
    Tree.EachAlike R ss ts := by
  -- The induction is on the two lists, which match node by node.
  induction hpairs generalizing ss ts with
  | nil =>
    rw [List.mapM_nil] at hss hts
    cases hss
    cases hts
    unfold Tree.EachAlike
    trivial
  | cons hab _ ih =>
    obtain ⟨s, ss, hs, hrest, rfl⟩ := mapM_cons_eq_some_iff.mp hss
    obtain ⟨t, ts, ht, hrest', rfl⟩ := mapM_cons_eq_some_iff.mp hts
    unfold Tree.EachAlike
    exact ⟨hone _ _ s t hab hs ht, ih hrest hrest'⟩

/-- What matching nodes with labels that look the same have in common, the trees of matching nodes
have in common node by node. -/
theorem alike_of_unfold (h : Paired pairs look f g) {R : NodeId → α → NodeId → α → Prop}
    (hR : ∀ a b x y, pairs a b → look x = look y → R a x b y) {m n : Nat} {a b : NodeId}
    {s t : Tree α} (hab : pairs a b) (hs : f.unfold m a = some s) (ht : g.unfold n b = some t) :
    s.Alike R t := by
  -- The induction is on the depth on the left. The one on the right is its own, as the forests
  -- may be of different sizes.
  induction m generalizing n a b s t with
  | zero => cases hs
  | succ m ih =>
    cases n with
    | zero => cases ht
    | succ n =>
      obtain ⟨node, ss, hnode, hss, rfl⟩ := unfold_succ_eq_some_iff.mp hs
      obtain ⟨node', ts, hnode', hts, rfl⟩ := unfold_succ_eq_some_iff.mp ht
      have hlabel := h.label_eq a b hab
      have hchildren := h.children a b hab
      simp only [label?, children, hnode, hnode', Option.map_some, Option.some.injEq,
        Option.elim_some] at hlabel hchildren
      have hbelow : ∀ a b s t, pairs a b → f.unfold m a = some s → g.unfold n b = some t →
          s.Alike R t := fun _ _ _ _ hab hs ht => ih hab hs ht
      unfold Tree.Alike
      exact ⟨hR a b _ _ hab hlabel, eachAlike_of_mapM hbelow hchildren hss hts⟩

end Forest

end TreeNotation
