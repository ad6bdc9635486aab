import TreeNotation.Text.Blank

/-!
# Steps of a Path

A path expression is cut into steps at its slashes. A slash inside brackets or inside a string
literal belongs to the step. Nothing is lost: separators and steps in order make up the path.

A step begins with its node test, which ends where its predicates begin, at the first bracket
outside of string literals.

Main statements:
- `next?_append`: a step with its separator and what is left make up the path;
- `flatten_split`: all steps with their separators make up the path;
- `NodeTest.ofStep_append`: a node test and its predicates make up the step.
-/

namespace TreeNotation.XPath

/-! ## Brackets and quotes -/

/-- Whether a character opens a string literal. -/
def isQuote (c : Char) : Bool := c == '"' || c == '\''

/-- Where a position of a path lies. -/
structure Scope where
  /-- How many brackets are open. -/
  depth : Nat
  /-- The quote that closes the string literal, inside of one. -/
  quote : Option Char
  deriving Repr, DecidableEq

namespace Scope

/-- Outside of brackets and string literals. -/
def outermost : Scope := ⟨0, none⟩

/-- The scope after a character. A closing bracket without its partner counts for nothing. -/
def after (scope : Scope) (c : Char) : Scope :=
  match scope.quote with
  | some quote => if c = quote then { scope with quote := none } else scope
  | none =>
    if isQuote c then { scope with quote := some c }
    else if c = '[' then { scope with depth := scope.depth + 1 }
    else if c = ']' then { scope with depth := scope.depth - 1 }
    else scope

end Scope

/-! ## Steps -/

/-- A step of a path. -/
structure Step where
  /-- The slashes before it; there may be none before the first step. -/
  separator : List Char
  text : List Char
  deriving Repr, DecidableEq

/-- A step as it stands in the path. -/
def Step.toChars (step : Step) : List Char := step.separator ++ step.text

/-- Cuts a text at its first slash outside of brackets and string literals; it begins in `scope`. -/
def stepText (scope : Scope) : List Char → List Char × List Char
  | [] => ([], [])
  | c :: cs =>
    if scope = .outermost ∧ c = '/' then ([], c :: cs)
    else
      let (text, rest) := stepText (scope.after c) cs
      (c :: text, rest)

/-- The first step of a path and what is left of the path; nothing if the path is empty. -/
def next? (path : List Char) : Option (Step × List Char) :=
  match path with
  | [] => none
  | _ =>
    -- Slashes in a row are one separator.
    let separator := path.takeWhile fun c => c = '/'
    let (text, rest) := stepText .outermost (path.dropWhile fun c => c = '/')
    some (⟨separator, text⟩, rest)

theorem stepText_append (scope : Scope) (cs : List Char) :
    (stepText scope cs).1 ++ (stepText scope cs).2 = cs := by
  induction cs generalizing scope with
  | nil => rfl
  | cons c cs ih =>
    unfold stepText
    split
    · rfl
    · simpa using ih (scope.after c)

theorem next?_append {path rest : List Char} {step : Step} (h : next? path = some (step, rest)) :
    step.toChars ++ rest = path := by
  cases path with
  | nil => cases h
  | cons c cs =>
    simp only [next?, Option.some.injEq, Prod.mk.injEq] at h
    obtain ⟨rfl, rfl⟩ := h
    rw [Step.toChars, List.append_assoc, stepText_append, List.takeWhile_append_dropWhile]

theorem next?_toChars_ne_nil {path rest : List Char} {step : Step}
    (h : next? path = some (step, rest)) : step.toChars ≠ [] := by
  cases path with
  | nil => cases h
  | cons c cs =>
    simp only [next?, Option.some.injEq, Prod.mk.injEq] at h
    obtain ⟨rfl, rfl⟩ := h
    by_cases hc : c = '/'
    · simp [Step.toChars, hc]
    · simp [Step.toChars, stepText, hc]

theorem length_rest_lt {path rest : List Char} {step : Step}
    (h : next? path = some (step, rest)) : rest.length < path.length := by
  have happend := congrArg List.length (next?_append h)
  have hpos := List.length_pos_iff.2 (next?_toChars_ne_nil h)
  rw [List.length_append] at happend
  omega

/-- The steps of a path. -/
def split (path : List Char) : List Step :=
  match _h : next? path with
  | none => []
  | some (step, rest) => step :: split rest
termination_by path.length
decreasing_by exact length_rest_lt _h

theorem flatten_split (path : List Char) : (split path).flatMap Step.toChars = path := by
  fun_induction split path with
  | case1 path h =>
    cases path with
    | nil => rfl
    | cons c cs => simp [next?] at h
  | case2 path step rest h ih => rw [List.flatMap_cons, ih, next?_append h]

/-! ## Node tests -/

/-- Cuts a step at its first opening bracket outside of string literals; `quote` closes the literal
that it begins in. -/
def cutPredicates (quote : Option Char) : List Char → List Char × List Char
  | [] => ([], [])
  | c :: cs =>
    if quote = none ∧ c = '[' then ([], c :: cs)
    else
      let quote := match quote with
        | some q => if c = q then none else some q
        | none => if isQuote c then some c else none
      let (head, predicates) := cutPredicates quote cs
      (c :: head, predicates)

/-- What comes after the first pair of colons. -/
def afterAxis? : List Char → Option (List Char)
  | ':' :: ':' :: rest => some rest
  | _ :: rest => afterAxis? rest
  | [] => none

/-- The node test of a step. -/
structure NodeTest where
  /-- The name without its axis and without blanks around it. -/
  name : List Char
  /-- The step up to its predicates. -/
  head : List Char
  /-- The predicates, from their first bracket on. -/
  predicates : List Char
  deriving Repr, DecidableEq

namespace NodeTest

/-- The node test of a step. -/
def ofStep (text : List Char) : NodeTest :=
  let (head, predicates) := cutPredicates none text
  ⟨Text.trimChars ((afterAxis? head).getD head), head, predicates⟩

/-- The number of bytes before the predicates. -/
def predicateStart (test : NodeTest) : Nat := (String.ofList test.head).utf8ByteSize

end NodeTest

theorem cutPredicates_append (quote : Option Char) (cs : List Char) :
    (cutPredicates quote cs).1 ++ (cutPredicates quote cs).2 = cs := by
  induction cs generalizing quote with
  | nil => rfl
  | cons c cs ih =>
    unfold cutPredicates
    split
    · rfl
    · simpa using ih _

theorem NodeTest.ofStep_append (text : List Char) :
    (ofStep text).head ++ (ofStep text).predicates = text :=
  cutPredicates_append none text

end TreeNotation.XPath
