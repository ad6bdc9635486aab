import TreeNotation.Attempt
import TreeNotation.Ordered.Set
import TreeNotation.Token.Vocabulary

/-!
# Handing Out Names

A supply hands out the names of a vocabulary in order, each at most once. A request may refuse
some names; those stay available for later requests.

Main statements:
- `Supply.draw_eq`: which name is handed out, and what is left;
- `Supply.clean_draw`: if no name is handed out, all that were left are left.
-/

namespace TreeNotation.Token

/-- The names still available and the number of names handed out. -/
structure Supply where
  /-- The names that have not been handed out, in vocabulary order. -/
  available : OrderedSet String
  /-- How many names have been handed out. -/
  issued : Nat

namespace Supply

/-- The supply over a list of names; a repeated name counts at its first position. -/
def ofVocabulary (names : List String) : Supply := ⟨OrderedSet.ofList names, 0⟩

/-- The supply over the standard vocabulary. -/
def standard : Supply := ofVocabulary vocabulary

instance : Inhabited Supply := ⟨standard⟩

/-- How many names are still available. -/
def remaining (a : Supply) : Nat := a.available.size

/-- Hands out the first available name that satisfies `allowed`. -/
def draw (allowed : String → Bool) : Attempt Supply String := do
  match (← get).available.toList.find? allowed with
  | some name =>
    modify fun a => { a with available := a.available.erase name }
    modify fun a => { a with issued := a.issued + 1 }
    return name
  | none => throw (.exhausted (← get).issued)

/-- Hands out the next name. -/
def drawNext : Attempt Supply String := draw fun _ => true

/-- Hands out the next name that differs from `literal`. -/
def drawUnlike (literal : String) : Attempt Supply String := draw fun name => name ≠ literal

/-- The next name, with the supply that is left. -/
def next (a : Supply) : Except Error (String × Supply) := drawNext.outcome a

/-- The next name that differs from `literal`, with the supply that is left. -/
def nextUnlike (a : Supply) (literal : String) : Except Error (String × Supply) :=
  (drawUnlike literal).outcome a

/-! ## What a request does -/

theorem draw_eq (allowed : String → Bool) (a : Supply) :
    draw allowed a =
      match a.available.toList.find? allowed with
      | some name => .ok name ⟨a.available.erase name, a.issued + 1⟩
      | none => .error (.exhausted a.issued) a := by
  rw [draw, Attempt.get_bind]
  cases a.available.toList.find? allowed <;> rfl

theorem clean_draw (allowed : String → Bool) : (draw allowed).Clean := by
  intro a e after h
  rw [draw_eq] at h
  split at h <;> cases h
  rfl

end Supply

end TreeNotation.Token
