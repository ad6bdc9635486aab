import TreeNotation.Proofs.Token.Books
import TreeNotation.Writing.Dialect

/-!
# Building Tree After Tree

A dialect writes trees of a forest one after the other into the same books. Whatever all single
nodes keep of the books, the whole run keeps.

- `closed_render`, `closed_build`, `closed_convert`: from single nodes to trees and forests, for any
  property that is closed under the composition of steps; `keeps_build` is the case of what is kept;
- `ledgerAfterBuilds`: the books after any builds, of any nodes at any levels, failed ones included.
-/

namespace TreeNotation.Writing.Dialect

open Token (Closed Ledger Rendering Supply Keeps closed_keeps)

variable {α κ : Type} {d : Dialect α κ} {P : Ledger κ → Prop}

/-! ## Section 1: From nodes to trees -/

section Trees

variable {C : ∀ {β : Type}, Rendering κ β → Prop}

mutual

theorem closed_render (hC : Closed C) (hown : ∀ id label, C (d.own id label)) (level : Nat) :
    ∀ tree : Tree α, C (d.render level tree)
  | .node id label children => by
    rw [render]
    split
    case isTrue => exact hC.pure ""
    case isFalse =>
      apply hC.bind (hown id label)
      intro own
      exact hC.bind (closed_renderBelow hC hown (level + 1) children) fun _ => hC.pure _

theorem closed_renderBelow (hC : Closed C) (hown : ∀ id label, C (d.own id label)) (level : Nat) :
    ∀ trees : List (Tree α), C (d.renderBelow level trees)
  | [] => by
    rw [renderBelow]
    exact hC.pure _
  | first :: rest => by
    rw [renderBelow]
    split
    case isTrue =>
      -- A text that comes first is written by its own step alone.
      apply hC.bind (hown first.id first.label)
      intro lead
      exact hC.bind (closed_renderEach hC hown level rest) fun _ => hC.pure _
    case isFalse =>
      apply hC.bind (closed_render hC hown level first)
      intro part
      exact hC.bind (closed_renderEach hC hown level rest) fun _ => hC.pure _

theorem closed_renderEach (hC : Closed C) (hown : ∀ id label, C (d.own id label)) (level : Nat) :
    ∀ trees : List (Tree α), C (d.renderEach level trees)
  | [] => by
    rw [renderEach]
    exact hC.pure []
  | first :: rest => by
    rw [renderEach]
    apply hC.bind (closed_render hC hown level first)
    intro part
    exact hC.bind (closed_renderEach hC hown level rest) fun _ => hC.pure _

end

theorem closed_build (hC : Closed C) (hown : ∀ id label, C (d.own id label)) (f : Forest α)
    (id : NodeId) (level : Nat) : C (d.build f id level) := by
  unfold build
  split
  case h_1 tree _ => exact closed_render hC hown level tree
  case h_2 => exact hC.throw _

theorem closed_convert (hC : Closed C) (hown : ∀ id label, C (d.own id label)) (f : Forest α) :
    C (d.convert f) := by
  unfold convert
  apply hC.bind
  · exact hC.mapM fun id _ => closed_build hC hown f id 0
  · intro parts
    exact hC.pure _

end Trees

theorem keeps_renderBelow (hown : ∀ id label, Keeps P (d.own id label)) (level : Nat)
    (trees : List (Tree α)) : Keeps P (d.renderBelow level trees) :=
  closed_renderBelow (closed_keeps P) hown level trees

theorem keeps_renderEach (hown : ∀ id label, Keeps P (d.own id label)) (level : Nat)
    (trees : List (Tree α)) : Keeps P (d.renderEach level trees) :=
  closed_renderEach (closed_keeps P) hown level trees

theorem keeps_build (hown : ∀ id label, Keeps P (d.own id label)) (f : Forest α) (id : NodeId)
    (level : Nat) : Keeps P (d.build f id level) :=
  closed_build (closed_keeps P) hown f id level

/-! ## Section 2: Any builds -/

/-- A build of the tree below a node of a forest at a level. -/
structure Call (α : Type) where
  forest : Forest α
  id : NodeId
  level : Nat

/-- The books after builds one after the other, beginning with the names of a supply. A build that
fails leaves what it has entered so far. -/
def ledgerAfterBuilds (dialect : Forest α → Dialect α κ) (a : Supply) (calls : List (Call α)) :
    Ledger κ :=
  calls.foldl
    (fun ledger call => ((dialect call.forest).build call.forest call.id call.level).after
      ledger)
    (Ledger.ofSupply a)

/-- What all single nodes keep of the books, any builds keep. -/
theorem foldl_build_induction {dialect : Forest α → Dialect α κ} {ledger : Ledger κ}
    (hstart : P ledger) (hown : ∀ f id label, Keeps P ((dialect f).own id label))
    (calls : List (Call α)) :
    P (calls.foldl
      (fun ledger call => ((dialect call.forest).build call.forest call.id call.level).after
        ledger)
      ledger) := by
  -- The induction is on the builds, each of which begins with the books that the last one left.
  induction calls generalizing ledger with
  | nil => exact hstart
  | cons call calls ih =>
    exact ih (keeps_build (hown call.forest) call.forest call.id call.level ledger hstart)

theorem ledgerAfterBuilds_induction {dialect : Forest α → Dialect α κ} {a : Supply}
    (hstart : P (Ledger.ofSupply a)) (hown : ∀ f id label, Keeps P ((dialect f).own id label))
    (calls : List (Call α)) : P (ledgerAfterBuilds dialect a calls) :=
  foldl_build_induction hstart hown calls

end TreeNotation.Writing.Dialect
