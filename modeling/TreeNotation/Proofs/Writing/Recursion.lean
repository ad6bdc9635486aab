import TreeNotation.Proofs.Forest.Outline
import TreeNotation.Writing.Dialect

/-!
# Writing by Recursion

`Dialect.build` unfolds a node into its tree and writes the tree. The same text comes from a
recursion over the numbers of the nodes, with one call for each child. Nothing in a number says that
such a recursion ends, as children may be any nodes; in a well-formed forest it does, since no call
is made for a node that another call is still at work on.

- **Recursion**: `Dialect.enter`, with a bound on the calls made inside each other, and with a list
  of the nodes that it comes to;
- **Simulation**: `Follows` says that the recursion does what a step of a conversion does, and
  `follows_enter` that it does what writing a tree does;
- **End**: `Dialect.EndsBelow`, and `Dialect.endsBelow` for well-formed forests.
-/

namespace TreeNotation.Writing

open Token (Ledger Rendering)

/-! ## Section 1: Traces -/

/-- Why a recursion is broken off. -/
inductive Break where
  /-- A step has failed. -/
  | failed (e : Error)
  /-- A call has been made inside of more calls than there may be. -/
  | tooDeep

/-- The books of a conversion, and the nodes that it has come to so far. -/
structure Trace (κ : Type) where
  ledger : Ledger κ
  visited : List NodeId

/-- A step of a traced recursion. -/
abbrev Tracing (κ : Type) := EStateM Break (Trace κ)

/-- The result of a step of a conversion, with the nodes that have been come to. -/
def traced {κ β : Type} (visited : List NodeId) :
    EStateM.Result Error (Ledger κ) β → EStateM.Result Break (Trace κ) β
  | .ok b ledger => .ok b ⟨ledger, visited⟩
  | .error e ledger => .error (.failed e) ⟨ledger, visited⟩

namespace Tracing

variable {κ β : Type}

/-- A step of a conversion, which comes to no node. -/
def step (y : Rendering κ β) : Tracing κ β := fun trace => traced trace.visited (y trace.ledger)

/-- Comes to a node. -/
def visit (id : NodeId) : Tracing κ Unit :=
  modify fun trace => { trace with visited := trace.visited ++ [id] }

end Tracing

/-! ## Section 2: The recursion -/

namespace Dialect

variable {α κ : Type}

/-- The children of a node one after the other: the text written directly after the node, if the
first child is plain text, and what the calls for the others give. -/
def enterBelow (d : Dialect α κ) (f : Forest α) (call : NodeId → Tracing κ String) :
    List NodeId → Tracing κ (String × List String)
  | [] => pure ("", [])
  | first :: rest =>
    match (f.label? first).filter d.inlines with
    | some label => do
      Tracing.visit first
      let lead ← Tracing.step (d.own first label)
      let parts ← rest.mapM call
      return (lead, parts)
    | none => do
      let parts ← (first :: rest).mapM call
      return ("", parts)

/-- The node with number `id` at a level, together with the nodes below it, by a call for each of
its children. It is broken off if more than `room` calls are made inside each other, this one
included. -/
def enter (d : Dialect α κ) (f : Forest α) : Nat → NodeId → Nat → Tracing κ String
  | 0, _, _ => throw .tooDeep
  | room + 1, id, level => do
    Tracing.visit id
    match f.node? id with
    | none => Tracing.step (throw (.structural id .absent))
    | some node =>
      if d.skips node.label then return ""
      else do
        let own ← Tracing.step (d.own id node.label)
        let (lead, parts) ← d.enterBelow f (fun child => d.enter f room child (level + 1))
          node.children
        return d.assemble id level own lead (d.layout.group parts)

end Dialect

/-! ## Section 3: Following a conversion -/

section Following

variable {κ β γ : Type}

/-- The recursion `x` does what the step `y` of a conversion does, and comes to none but the nodes
`ids` meanwhile, in their order and to each of them once at most. -/
def Follows (x : Tracing κ β) (y : Rendering κ β) (ids : List NodeId) : Prop :=
  ∀ ledger visited, ∃ more : List NodeId, more.Sublist ids ∧
    x ⟨ledger, visited⟩ = traced (visited ++ more) (y ledger)

theorem follows_pure (b : β) : Follows (pure b : Tracing κ β) (pure b) [] := by
  intro ledger visited
  exact ⟨[], List.Sublist.refl [], by rw [List.append_nil]; rfl⟩

theorem follows_step (y : Rendering κ β) : Follows (Tracing.step y) y [] := by
  intro ledger visited
  exact ⟨[], List.Sublist.refl [], by rw [List.append_nil]; rfl⟩

theorem Follows.weaken {x : Tracing κ β} {y : Rendering κ β} {ids ids' : List NodeId}
    (h : Follows x y ids) (hids : ids.Sublist ids') : Follows x y ids' := by
  intro ledger visited
  obtain ⟨more, hmore, hrun⟩ := h ledger visited
  exact ⟨more, hmore.trans hids, hrun⟩

theorem Follows.visit {x : Tracing κ β} {y : Rendering κ β} {ids : List NodeId}
    (h : Follows x y ids) (id : NodeId) :
    Follows (do Tracing.visit id; x) y (id :: ids) := by
  intro ledger visited
  obtain ⟨more, hmore, hrun⟩ := h ledger (visited ++ [id])
  refine ⟨id :: more, hmore.cons_cons id, ?_⟩
  rw [List.append_cons]
  exact hrun

theorem Follows.bind {x : Tracing κ β} {y : Rendering κ β} {g : β → Tracing κ γ}
    {h : β → Rendering κ γ} {ids ids' : List NodeId} (hx : Follows x y ids)
    (hg : ∀ b, Follows (g b) (h b) ids') : Follows (x >>= g) (y >>= h) (ids ++ ids') := by
  intro ledger visited
  obtain ⟨more, hmore, hrun⟩ := hx ledger visited
  simp only [Bind.bind, EStateM.bind, hrun]
  cases y ledger with
  | ok b after =>
    obtain ⟨more', hmore', hrun'⟩ := hg b after (visited ++ more)
    refine ⟨more ++ more', hmore.append hmore', ?_⟩
    rw [← List.append_assoc]
    exact hrun'
  | error e after =>
    -- After a failure the recursion comes to no further node.
    exact ⟨more, hmore.trans (List.sublist_append_left ids ids'), rfl⟩

theorem Follows.map {x : Tracing κ β} {y : Rendering κ β} {ids : List NodeId} (h : Follows x y ids)
    (g : β → γ) : Follows (do return g (← x)) (do return g (← y)) ids := by
  have hbind := h.bind fun b => follows_pure (g b)
  rwa [List.append_nil] at hbind

end Following

/-! ## Section 4: Writing a tree -/

namespace Dialect

open Forest

variable {α κ : Type} {d : Dialect α κ} {f : Forest α} {call : NodeId → Tracing κ String}
  {levels level depth : Nat}

theorem follows_mapM
    (hcall : ∀ id tree, f.unfold levels id = some tree →
      Follows (call id) (d.render level tree) ((tree.preorder depth).map Prod.fst))
    {ids : List NodeId} {trees : List (Tree α)} (h : ids.mapM (f.unfold levels) = some trees) :
    Follows (ids.mapM call) (d.renderEach level trees)
      ((Tree.preorderEach depth trees).map Prod.fst) := by
  replace h := mapM_eq_some_iff_forall₂.mp h
  induction h with
  | nil => exact follows_pure []
  | cons htree _ ih =>
    rw [List.mapM_cons, renderEach, Tree.preorderEach, List.map_append]
    exact (hcall _ _ htree).bind fun part => ih.map (part :: ·)

theorem follows_enterBelow
    (hcall : ∀ id tree, f.unfold levels id = some tree →
      Follows (call id) (d.render level tree) ((tree.preorder depth).map Prod.fst))
    {ids : List NodeId} {trees : List (Tree α)} (h : ids.mapM (f.unfold levels) = some trees) :
    Follows (d.enterBelow f call ids) (d.renderBelow level trees)
      ((Tree.preorderEach depth trees).map Prod.fst) := by
  have hall := follows_mapM hcall h
  cases ids with
  | nil =>
    rw [List.mapM_nil] at h
    cases h
    exact follows_pure ("", [])
  | cons first rest =>
    obtain ⟨tree, trees, htree, hrest, rfl⟩ := mapM_cons_eq_some_iff.mp h
    have hlabel := label?_of_unfold htree
    obtain rfl := id_of_unfold htree
    rw [enterBelow, renderBelow, hlabel]
    cases hinlines : d.inlines tree.label with
    | true =>
      -- The text is come to, but no call is made for it, nor for what lies below it.
      simp only [Option.filter_some, hinlines, if_true]
      have hlead : Follows (do
          let lead ← Tracing.step (d.own tree.id tree.label)
          let parts ← rest.mapM call
          return (lead, parts)) (do
          let lead ← d.own tree.id tree.label
          let parts ← d.renderEach level trees
          return (lead, parts)) ((Tree.preorderEach depth trees).map Prod.fst) :=
        (follows_step (d.own tree.id tree.label)).bind fun lead =>
          (follows_mapM hcall hrest).map fun parts => (lead, parts)
      refine (hlead.visit tree.id).weaken ?_
      cases tree with
      | node id label children =>
        rw [Tree.preorderEach, Tree.preorder, List.cons_append, List.map_cons, List.map_append]
        exact (List.sublist_append_right _ _).cons_cons id
    | false =>
      simp only [Option.filter_some, hinlines]
      have hsame : d.renderEach level (tree :: trees) >>= (fun parts => pure ("", parts)) = do
          let part ← d.render level tree
          let parts ← d.renderEach level trees
          return ("", part :: parts) := by
        simp only [renderEach, bind_assoc, pure_bind]
      have hrun := hall.map fun parts => ("", parts)
      rw [hsame] at hrun
      exact hrun

/-- With room for as many calls as the tree of a node has levels, the recursion from the node does
what writing its tree does. -/
theorem follows_enter {id : NodeId} {tree : Tree α} (h : f.unfold levels id = some tree)
    {room : Nat} (hroom : levels ≤ room) (level depth : Nat) :
    Follows (d.enter f room id level) (d.render level tree)
      ((tree.preorder depth).map Prod.fst) := by
  -- The induction is on the levels to which the node is unfolded. There is one level less for the
  -- children, and room for one call less.
  induction levels generalizing id tree room level depth with
  | zero => cases h
  | succ levels ih =>
    obtain ⟨room, rfl⟩ : ∃ less, room = less + 1 := ⟨room - 1, by omega⟩
    obtain ⟨node, trees, hnode, htrees, rfl⟩ := unfold_succ_eq_some_iff.mp h
    rw [Tree.preorder, List.map_cons]
    rw [enter, hnode, render]
    apply Follows.visit
    cases hskips : d.skips node.label with
    | true =>
      -- A node that is left out has been come to, and nothing below it is.
      simp only [hskips, if_true]
      exact (follows_pure "").weaken (List.nil_sublist _)
    | false =>
      simp only [hskips]
      have hbelow := follows_enterBelow (fun _ _ htree =>
        ih htree (Nat.le_of_succ_le_succ hroom) (level + 1) (depth + 1)) htrees
      exact (follows_step (d.own id node.label)).bind fun own => hbelow.map fun below =>
        d.assemble id level own below.1 (d.layout.group below.2)

/-! ## Section 5: The end of the recursion -/

/-- The recursion from the number `id` comes to its end, with the result of building the tree below
it, whatever is in the books before. -/
structure EndsBelow (d : Dialect α κ) (f : Forest α) (id : NodeId) : Prop where
  /-- From a node, there are never more calls inside each other than nodes in the forest, and the
  recursion comes to no node twice, even if it fails on its way. -/
  of_node : id < f.size → ∀ level ledger room, f.size ≤ room → ∃ visited : List NodeId,
    visited.Nodup ∧ (∀ other ∈ visited, f.AboveOrSelf id other) ∧
      d.enter f room id level ⟨ledger, []⟩ = traced visited (d.build f id level ledger)
  /-- From a number without a node, no call is made inside the first one. -/
  of_absent : f.size ≤ id → ∀ level ledger room,
    d.enter f (room + 1) id level ⟨ledger, []⟩ = traced [id] (d.build f id level ledger)

theorem endsBelow (d : Dialect α κ) (hf : f.WellFormed) (id : NodeId) : d.EndsBelow f id where
  of_node hid level ledger room hroom := by
    obtain ⟨tree, htree⟩ := Option.isSome_iff_exists.mp (isSome_subtree? hf hid)
    obtain ⟨visited, hvisited, hrun⟩ := follows_enter (d := d) htree hroom level 0 ledger []
    refine ⟨visited, hvisited.nodup (nodup_preorder hf htree 0), fun other hother => ?_, ?_⟩
    · exact (mem_preorder_iff hf htree 0).mp (hvisited.subset hother)
    · rw [build, htree]
      exact hrun
  of_absent hid level ledger room := by
    have hnode : f.node? id = none := by simpa using mt isSome_node?_iff.mp (Nat.not_lt.mpr hid)
    have htree : f.subtree? id = none := by
      unfold subtree?
      cases f.size with
      | zero => rfl
      | succ levels => rw [unfold, hnode]; rfl
    rw [enter, hnode, build, htree]
    rfl

end Dialect

end TreeNotation.Writing
