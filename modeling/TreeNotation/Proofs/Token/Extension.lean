import TreeNotation.Proofs.Token.Assignment

/-!
# More Names

Two conversions that go the same way, one of them with more names at the end of its supply. As long
as the names of the other one suffice, both are given the same names.

- **Two runs**: `Carries`, what a step does with two ledgers that stand in a relation, and that it
  is closed under the composition of steps;
- **Longer supplies**: `Ledger.Extends`, carried by every request (`carries_request`).
-/

namespace TreeNotation.Token

variable {κ β γ : Type}

/-! ## Section 1: Two runs -/

/-- A step that succeeds with a second ledger whenever it does with a first one that stands in the
relation `R` to it. The results are the same, and so is the relation of the ledgers afterwards. -/
def Carries (R : Ledger κ → Ledger κ → Prop) (x : Rendering κ β) : Prop :=
  ∀ first second b after, R first second → x first = .ok b after →
    ∃ after', x second = .ok b after' ∧ R after after'

theorem closed_carries (R : Ledger κ → Ledger κ → Prop) : Closed (Carries R) where
  pure b := by
    intro first second c after hrelated hrun
    cases hrun
    exact ⟨second, rfl, hrelated⟩
  throw e := by
    intro first second c after _ hrun
    cases hrun
  bind {_ _ x f} hx hf := by
    intro first second c after hrelated hrun
    obtain ⟨b, mid, hfirst, hrest⟩ := bind_eq_ok_iff.mp hrun
    obtain ⟨mid', hsecond, hmid⟩ := hx first second b mid hrelated hfirst
    obtain ⟨after', hafter, hlast⟩ := hf b mid mid' c after hmid hrest
    exact ⟨after', bind_eq_ok_iff.mpr ⟨b, mid', hsecond, hafter⟩, hlast⟩

/-! ## Section 2: Longer supplies -/

namespace Ledger

/-- Books with the same entries as others, and with the names `more` after those that are left. -/
structure Extends (more : List String) (ledger longer : Ledger κ) : Prop where
  table_eq : longer.table = ledger.table
  available_eq : longer.supply.available.toList = ledger.supply.available.toList ++ more
  issued_eq : longer.supply.issued = ledger.supply.issued

/-- Names after a vocabulary stand after all that it has, apart from those that it has itself. -/
theorem exists_extends_ofVocabulary (names more : List String) :
    ∃ rest, Extends rest (ofSupply (.ofVocabulary names) : Ledger κ)
      (ofSupply (.ofVocabulary (names ++ more))) := by
  obtain ⟨rest, hrest⟩ :=
    exists_toList_foldl_insert more (names.foldl OrderedSet.insert OrderedSet.empty)
  rw [← List.foldl_append] at hrest
  exact ⟨rest, rfl, hrest, rfl⟩

variable {more : List String}

/-- The first allowed name is the same one in a longer supply, as long as there is one. -/
theorem Extends.find?_eq_some {ledger longer : Ledger κ} (h : Extends more ledger longer)
    {allowed : String → Bool} {name : String}
    (hfind : ledger.supply.available.toList.find? allowed = some name) :
    longer.supply.available.toList.find? allowed = some name := by
  rw [h.available_eq, List.find?_append, hfind, Option.some_or]

/-- The name stands among those that both supplies have, and is taken out there. -/
theorem Extends.drawn {ledger longer : Ledger κ} (h : Extends more ledger longer) {name : String}
    (hname : name ∈ ledger.supply.available.toList) (table : Substitution κ) :
    Extends more ⟨⟨ledger.supply.available.erase name, ledger.supply.issued + 1⟩, table⟩
      (⟨⟨longer.supply.available.erase name, longer.supply.issued + 1⟩, table⟩ : Ledger κ) where
  table_eq := rfl
  available_eq := by
    rw [OrderedSet.toList_erase, OrderedSet.toList_erase, h.available_eq,
      List.erase_append_left _ hname]
  issued_eq := congrArg (· + 1) h.issued_eq

theorem carries_request [DecidableEq κ] (key : κ) (literal : String) :
    Carries (Extends more) (request key literal) := by
  intro ledger longer token after h hrun
  cases hget : ledger.table.get? key with
  | some known =>
    rw [request_of_get? hget] at hrun
    cases hrun
    rw [← h.table_eq] at hget
    exact ⟨longer, request_of_get? hget literal, h⟩
  | none =>
    rw [request_of_not_get? hget] at hrun
    have hlonger : longer.table.get? key = none := by rw [h.table_eq, hget]
    rw [request_of_not_get? hlonger, h.table_eq]
    cases hfind : ledger.supply.available.toList.find? fun name => name ≠ literal with
    | none => rw [hfind] at hrun; cases hrun
    | some name =>
      rw [hfind] at hrun
      cases hrun
      rw [h.find?_eq_some hfind]
      exact ⟨_, rfl, h.drawn (List.mem_of_find?_eq_some hfind) _⟩

end Ledger

end TreeNotation.Token
