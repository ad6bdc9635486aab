import TreeNotation.Token.Substitution
import TreeNotation.Token.Supply

/-!
# Ledgers

The books of one conversion: the names that are left and the names that stand in for texts so far.
A step of a conversion reads and writes the ledger, and what it has written stays written if the
step fails.

Main statements:
- `Ledger.request_of_get?`: a key in the books gets its name and changes nothing;
- `Ledger.request_of_not_get?`: a new key draws a name unlike its literal;
- `Ledger.clean_request`: a request that fails changes nothing.
-/

namespace TreeNotation.Token

/-- The names that are left and the names that have been given to keys. -/
structure Ledger (κ : Type) where
  supply : Supply
  table : Substitution κ

namespace Ledger

variable {κ : Type}

/-- The ledger in which no key has a name. -/
def ofSupply (a : Supply) : Ledger κ := ⟨a, Substitution.empty⟩

instance : Inhabited (Ledger κ) := ⟨ofSupply default⟩

/-- The texts under the names that stand in for them, one category of keys at a time: `category`
picks the keys and gives the text to list. -/
def dictionary {ν : Type} (ledger : Ledger κ) (category : κ → Option ν) : OrderedMap String ν :=
  OrderedMap.ofList <| ledger.table.reversed.entries.filterMap fun entry =>
    (category entry.2).map fun text => (entry.1, text)

end Ledger

/-- A step of a conversion: it may fail, and it reads and writes a ledger either way. -/
abbrev Rendering (κ : Type) := Attempt (Ledger κ)

namespace Ledger

variable {κ : Type} [DecidableEq κ]

/-- The name that stands in for a key, drawn if the key is new. The name is unlike `literal`, the
text in whose place it is written. -/
def request (key : κ) (literal : String) : Rendering κ String := do
  match (← get).table.get? key with
  | some token => return token
  | none =>
    let token ← (Supply.drawUnlike literal).onPart supply fun ledger a => { ledger with supply := a }
    modify fun ledger => { ledger with table := ⟨ledger.table.tokens.insert key token⟩ }
    return token

theorem request_of_get? {ledger : Ledger κ} {key : κ} {token : String}
    (h : ledger.table.get? key = some token) (literal : String) :
    request key literal ledger = .ok token ledger := by
  rw [request, Attempt.get_bind, h]
  rfl

theorem request_of_not_get? {ledger : Ledger κ} {key : κ} (h : ledger.table.get? key = none)
    (literal : String) :
    request key literal ledger =
      match ledger.supply.available.toList.find? fun name => name ≠ literal with
      | some token =>
        .ok token ⟨⟨ledger.supply.available.erase token, ledger.supply.issued + 1⟩,
          ⟨ledger.table.tokens.insert key token⟩⟩
      | none => .error (.exhausted ledger.supply.issued) ledger := by
  rw [request, Attempt.get_bind, h]
  simp only [bind, EStateM.bind, Attempt.onPart, Supply.drawUnlike, Supply.draw_eq]
  cases ledger.supply.available.toList.find? fun name => name ≠ literal <;> rfl

/-- A key is entered only after its name has been drawn. -/
theorem clean_request (key : κ) (literal : String) : (request key literal).Clean := by
  intro ledger e after h
  cases hget : ledger.table.get? key with
  | some token =>
    rw [request_of_get? hget] at h
    cases h
  | none =>
    rw [request_of_not_get? hget] at h
    split at h <;> cases h
    rfl

end Ledger

/-- The name of a key with what has become of the substitution and of the supply. -/
def Substitution.substitute {κ : Type} [DecidableEq κ] (s : Substitution κ) (a : Supply) (key : κ)
    (literal : String) : Except Error (String × Substitution κ × Supply) :=
  ((Ledger.request key literal).outcome ⟨a, s⟩).map fun result =>
    (result.1, result.2.table, result.2.supply)

end TreeNotation.Token
