import TreeNotation.Ordered.Map

/-!
# Substitutions

A substitution remembers which name stands in for which text, so that a text that comes again gets
the name it already has.
-/

namespace TreeNotation.Token

/-- The names that stand in for keys, in the order in which they were drawn. -/
structure Substitution (κ : Type) where
  /-- The name of each key. -/
  tokens : OrderedMap κ String

namespace Substitution

variable {κ : Type}

/-- The substitution of nothing. -/
def empty : Substitution κ := ⟨OrderedMap.empty⟩

instance : Inhabited (Substitution κ) := ⟨empty⟩

/-- How many keys have a name. -/
def size (s : Substitution κ) : Nat := s.tokens.size

/-- Whether no key has a name. -/
def isEmpty (s : Substitution κ) : Bool := s.tokens.isEmpty

/-- The keys under their names, in the order in which the names were drawn. -/
def reversed (s : Substitution κ) : OrderedMap String κ :=
  OrderedMap.ofList (s.tokens.entries.map Prod.swap)

variable [DecidableEq κ]

/-- The name of a key. -/
def get? (s : Substitution κ) (key : κ) : Option String := s.tokens.get? key

end Substitution

end TreeNotation.Token
