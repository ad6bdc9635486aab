/-!
# Errors

Everything that can go wrong while a configuration is read, a forest is grown or a forest is
written, by its cause, and the wording of each.
-/

namespace TreeNotation

/-- Nodes of a forest are named by the order of their creation, from zero. -/
abbrev NodeId := Nat

/-- Why a configuration is refused. -/
inductive ConfigurationFault where
  /-- The document does not describe a configuration. -/
  | unreadable
  /-- The attribute `name` is to be kept and to be ignored. -/
  | contradictory (name : String)
  deriving Repr, DecidableEq

/-- Why a node is refused. -/
inductive StructuralFault where
  /-- The forest has no such node. -/
  | absent
  /-- A node that has a parent is to become a root. -/
  | parentedRoot
  /-- The node is to be attached below itself, under the node `parent`. -/
  | cycle (parent : NodeId)
  /-- The node is a processing instruction, which the notation has no way to write. -/
  | unwritable (target : String)
  deriving Repr, DecidableEq

/-- Why an operation fails. -/
inductive Error where
  | configuration (fault : ConfigurationFault)
  | structural (node : NodeId) (fault : StructuralFault)
  /-- No name is left that may be handed out, after `issued` names. -/
  | exhausted (issued : Nat)
  deriving Repr, DecidableEq

/-! ## Wording -/

/-- What a refused configuration is told. -/
def ConfigurationFault.message : ConfigurationFault → String
  | .unreadable => "invalid configuration"
  | .contradictory name => "attribute '" ++ name ++ "' is both prioritized and ignored"

/-- What a refused node is told. -/
def StructuralFault.message : StructuralFault → String
  | .absent => "node id is not present in the pool"
  | .parentedRoot => "node with a parent cannot be a root"
  | .cycle parent => "attaching under node " ++ parent.repr ++ " would create a cycle"
  | .unwritable target => "processing instruction <?" ++ target ++ "?> has no notation"

/-- The full text of an error. -/
def Error.message : Error → String
  | .configuration fault => "Configuration error: " ++ fault.message
  | .structural node fault =>
    "Structural error at node " ++ node.repr ++ ": " ++ fault.message
  | .exhausted issued =>
    "Token vocabulary exhausted after " ++ issued.repr ++ " placeholders"

end TreeNotation
