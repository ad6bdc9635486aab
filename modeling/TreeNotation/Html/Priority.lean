import TreeNotation.Config.Basic
import TreeNotation.Writing.Attribute

/-!
# Attribute Priority

Reducing the attributes of an element to those of the highest tier it has any of. Ignored names,
data attributes and event handlers count for no tier.

- `AttributeTiers.select` is the reduction;
- `AttributeTiers.drops` says which names count for no tier.
-/

namespace TreeNotation

namespace AttributeTiers

/-- Whether a name belongs to a data attribute. -/
def isData (name : String) : Bool := "data-".toList.isPrefixOf name.toList

/-- Whether a name belongs to an event handler: `on` with something after it. -/
def isHandler (name : String) : Bool := "on".toList.isPrefixOf name.toList && name ≠ "on"

/-- Whether a name counts for no tier. -/
def drops (tiers : AttributeTiers) (name : String) : Bool :=
  tiers.ignored.contains name || isData name || isHandler name

/-- The attributes that count for a tier, in their order. -/
def ofTier (tiers : AttributeTiers) (tier : OrderedSet String) (attributes : Writing.Attributes) :
    Writing.Attributes :=
  attributes.filter fun name _ => !tiers.drops name && tier.contains name

/-- The primary attributes, or the secondary ones if there are no primary ones. -/
def select (tiers : AttributeTiers) (attributes : Writing.Attributes) : Writing.Attributes :=
  let primary := tiers.ofTier tiers.primary attributes
  if primary.isEmpty then tiers.ofTier tiers.secondary attributes else primary

end AttributeTiers

end TreeNotation
