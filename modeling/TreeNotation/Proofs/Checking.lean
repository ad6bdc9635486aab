import TreeNotation.Config.Reader
import TreeNotation.Document

/-!
# Checked Configurations

A check refuses a configuration whose attribute tiers contradict each other, and otherwise brings
its indentation into range, as a conversion would do by itself.

- **Conflicts**: `FirstConflict` is what `conflict?` looks for, and `conflict?_eq_some_iff` says
  that it is found;
- **Checks**: `Config.Checked` is what a check makes sure of; `check_eq_self_iff` shows that nothing
  else is left as it is;
- **Conversions**: `Document.convertWith_of_indentWidth`, only the width in use matters;
- **Configurations**: `Config.check_settles`, also for those that are read from texts.
-/

namespace TreeNotation

/-! ## Section 1: Conflicts -/

namespace AttributeTiers

/-- The name is to be kept and to be ignored, and no name before it is; primary names come before
secondary ones. -/
def FirstConflict (tiers : AttributeTiers) (name : String) : Prop :=
  name ∈ tiers.ignored ∧ ∃ before after,
    tiers.primary.toList ++ tiers.secondary.toList = before ++ name :: after ∧
      ∀ earlier ∈ before, earlier ∉ tiers.ignored

theorem conflict?_eq_some_iff {tiers : AttributeTiers} {name : String} :
    tiers.conflict? = some name ↔ tiers.FirstConflict name := by
  unfold conflict? FirstConflict
  rw [List.find?_eq_some_iff_append]
  simp only [OrderedSet.contains_iff, Bool.not_eq_eq_eq_not, Bool.not_true,
    ← Bool.not_eq_true]

end AttributeTiers

/-! ## Section 2: Checks -/

namespace Config

variable {config checked : Config}

/-- A configuration in range and without contradictions. -/
structure Checked (config : Config) : Prop where
  one_le : 1 ≤ config.indentSize
  le_eight : config.indentSize ≤ 8
  /-- No name of a tier is to be ignored. -/
  consistent : ∀ name, name ∈ config.html.tiers.primary ∨ name ∈ config.html.tiers.secondary →
    name ∉ config.html.tiers.ignored

theorem check_eq_error_iff {e : Error} : config.check = .error e ↔
    ∃ name, config.html.tiers.FirstConflict name ∧ e = .configuration (.contradictory name) := by
  simp only [← AttributeTiers.conflict?_eq_some_iff]
  unfold check
  cases config.html.tiers.conflict? with
  | none => simp
  | some name => simp [eq_comm]

theorem Checked.of_check (h : config.check = .ok checked) : checked.Checked := by
  obtain ⟨hconflict, rfl⟩ := check_eq_ok_iff.mp h
  exact ⟨one_le_indentWidth config, indentWidth_le_eight config,
    AttributeTiers.conflict?_eq_none_iff.mp hconflict⟩

theorem check_eq_self_iff : config.check = .ok config ↔ config.Checked := by
  refine ⟨Checked.of_check, fun h => check_eq_ok_iff.mpr ⟨?_, ?_⟩⟩
  · exact AttributeTiers.conflict?_eq_none_iff.mpr h.consistent
  · rw [indentWidth_of_mem h.one_le h.le_eight]

/-- A check fails if it has a reason to. -/
theorem exists_check_eq_error_iff : (∃ e, config.check = .error e) ↔
    ∃ name ∈ config.html.tiers.ignored,
      name ∈ config.html.tiers.primary ∨ name ∈ config.html.tiers.secondary := by
  constructor
  · rintro ⟨e, he⟩
    obtain ⟨name, ⟨hignored, before, after, hsplit, -⟩, -⟩ := check_eq_error_iff.mp he
    have hmem : name ∈ config.html.tiers.primary.toList ++ config.html.tiers.secondary.toList := by
      simp [hsplit]
    exact ⟨name, hignored, List.mem_append.mp hmem⟩
  · rintro ⟨name, hignored, hkept⟩
    cases hcheck : config.check with
    | error e => exact ⟨e, rfl⟩
    | ok checked =>
      have hnone := (check_eq_ok_iff.mp hcheck).1
      exact absurd hignored (AttributeTiers.conflict?_eq_none_iff.mp hnone name hkept)

/-- Whatever is read and checked is in order. -/
theorem Checked.of_bind {read : Except Error Config} (h : (read >>= check) = .ok checked) :
    checked.Checked := by
  cases read with
  | error e => cases h
  | ok config => exact .of_check h

end Config

/-! ## Section 3: Conversions -/

/-- Configurations that differ in the size they ask for, but not in the width that is used, make no
difference to a conversion. -/
theorem Document.convertWith_of_indentWidth {config : Config} {size : Nat}
    (h : { config with indentSize := size }.indentWidth = config.indentWidth)
    (supply : Token.Supply) (doc : Document) :
    doc.convertWith { config with indentSize := size } supply =
      doc.convertWith config supply := by
  have hlayout : { config with indentSize := size }.layout = config.layout := by
    unfold Config.layout
    rw [h]
  -- A dialect takes nothing but the layout and the options of its own format.
  cases doc with
  | html doc =>
    have hdialect : Html.dialect { config with indentSize := size } doc =
        Html.dialect config doc := by
      simp only [Html.dialect, hlayout]
    simp only [Document.convertWith, Html.convert, hdialect]
  | json doc =>
    have hdialect : Json.dialect { config with indentSize := size } = Json.dialect config := by
      simp only [Json.dialect, hlayout]
    simp only [Document.convertWith, Json.convert, hdialect]
  | xml doc =>
    have hdialect : Xml.dialect { config with indentSize := size } = Xml.dialect config := by
      simp only [Xml.dialect, hlayout]
    simp only [Document.convertWith, Xml.convert, hdialect]

namespace Config

variable {config checked : Config}

/-- What a check returns is converted like what it was given. -/
theorem convertWith_check (h : config.check = .ok checked) (supply : Token.Supply)
    (doc : Document) : doc.convertWith checked supply = doc.convertWith config supply := by
  obtain ⟨-, rfl⟩ := check_eq_ok_iff.mp h
  exact Document.convertWith_of_indentWidth
    (indentWidth_of_mem (one_le_indentWidth config) (indentWidth_le_eight config)) supply doc

/-! ## Section 4: Configurations -/

/-- A check refuses exactly the configurations with an attribute that is both to be kept and to be
ignored, and names the first one. Any other configuration is returned with its indentation in range
and everything else as it was; checking it again changes nothing, and it makes no difference to a
conversion which of the two is used. So a configuration that has been read, by `read` or by any
other reader in front of the check, is in order. -/
theorem check_settles (config : Config) :
    ((∃ e, config.check = .error e) ↔
      ∃ name ∈ config.html.tiers.ignored,
        name ∈ config.html.tiers.primary ∨ name ∈ config.html.tiers.secondary) ∧
    (∀ e, config.check = .error e ↔
      ∃ name, config.html.tiers.FirstConflict name ∧
        e = .configuration (.contradictory name)) ∧
    (∀ name, (Error.configuration (.contradictory name)).message =
      "Configuration error: " ++ ("attribute '" ++ name ++ "' is both prioritized and ignored")) ∧
    (∀ checked, config.check = .ok checked →
      checked = { config with indentSize := config.indentWidth } ∧
      checked.Checked ∧
      checked.check = .ok checked ∧
      ∀ (supply : Token.Supply) (doc : Document),
        doc.convertWith checked supply = doc.convertWith config supply) ∧
    (∀ text, read text = .ok config → config.Checked) ∧
    ∀ described : Except Error Config, (described >>= check) = .ok config → config.Checked := by
  refine ⟨exists_check_eq_error_iff, fun e => check_eq_error_iff, fun name => rfl,
    fun checked h => ?_, fun text h => ?_, fun described h => Checked.of_bind h⟩
  · have hchecked := Checked.of_check h
    exact ⟨(check_eq_ok_iff.mp h).2, hchecked, check_eq_self_iff.mpr hchecked,
      convertWith_check h⟩
  · exact Checked.of_bind h

/-- The secondary name is to be ignored as well, but the primary one is found first. -/
example :
    AttributeTiers.conflict?
      { primary := .ofList ["id", "rel"], secondary := .ofList ["style"] } = some "rel" := by
  decide

end Config

end TreeNotation
