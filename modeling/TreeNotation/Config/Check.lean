import TreeNotation.Config.Basic
import TreeNotation.Error

/-!
# Checking a Configuration

What can be put right in a configuration is put right, and what cannot is refused.

Main statements:
- `AttributeTiers.conflict?_eq_none_iff`: there is no conflict exactly if no attribute is both to
  be kept and to be ignored;
- `Config.check_eq_ok_iff`: the outcome of a check that succeeds.
-/

namespace TreeNotation

namespace AttributeTiers

/-- The first attribute, primary ones before secondary ones, that is to be kept and ignored. -/
def conflict? (tiers : AttributeTiers) : Option String :=
  (tiers.primary.toList ++ tiers.secondary.toList).find? tiers.ignored.contains

theorem conflict?_eq_none_iff {tiers : AttributeTiers} :
    tiers.conflict? = none ↔
      ∀ name, name ∈ tiers.primary ∨ name ∈ tiers.secondary → name ∉ tiers.ignored := by
  simp [conflict?, OrderedSet.mem_def, OrderedSet.contains, List.find?_eq_none, or_imp,
    forall_and]

end AttributeTiers

namespace Config

/-- The configuration with its indentation brought into range, unless its attribute tiers are in
conflict. -/
def check (config : Config) : Except Error Config :=
  match config.html.tiers.conflict? with
  | some name => .error (.configuration (.contradictory name))
  | none => .ok { config with indentSize := config.indentWidth }

theorem check_eq_ok_iff {config checked : Config} :
    config.check = .ok checked ↔
      config.html.tiers.conflict? = none ∧
        checked = { config with indentSize := config.indentWidth } := by
  unfold check
  cases config.html.tiers.conflict? with
  | none => simp [eq_comm]
  | some name => simp

end Config

end TreeNotation
