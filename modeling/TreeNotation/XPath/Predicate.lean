import TreeNotation.Ordered.Map
import TreeNotation.Text.Blank
import TreeNotation.Text.CaseFold
import TreeNotation.XPath.Step

/-!
# Predicates on an Attribute

The ten shapes of a predicate that compares an attribute with a string literal: equality and four
functions, each over the attribute itself or over its normalized form. Words are compared without
regard to case, and blanks may stand around them.

- `Shape.replace` replaces the literals of all occurrences of one shape;
- `AttributeMatcher.substitute` does so for the ten shapes, one after the other.

By `Shape.match?_append`, an occurrence and what is left make up the text.
-/

namespace TreeNotation.XPath

/-! ## Pieces -/

/-- A part of a shape. -/
inductive Piece where
  /-- These characters in either case. -/
  | word (text : List Char)
  /-- Any number of blanks. -/
  | blanks
  deriving Repr, DecidableEq

/-- Takes a word in either case from the start of a text. -/
def takeWord? : List Char → List Char → Option (List Char × List Char)
  | [], cs => some ([], cs)
  | _ :: _, [] => none
  | w :: word, c :: cs =>
    if Text.sameFold w c then
      (takeWord? word cs).map fun (taken, rest) => (c :: taken, rest)
    else none

/-- Takes a part of a shape from the start of a text. -/
def Piece.take? : Piece → List Char → Option (List Char × List Char)
  | .word text, cs => takeWord? text cs
  | .blanks, cs => some (cs.takeWhile Text.isBlank, cs.dropWhile Text.isBlank)

/-- Takes parts of a shape, one after the other, from the start of a text. -/
def takePieces? : List Piece → List Char → Option (List Char × List Char)
  | [], cs => some ([], cs)
  | piece :: pieces, cs => do
    let (first, cs) ← piece.take? cs
    let (others, rest) ← takePieces? pieces cs
    return (first ++ others, rest)

theorem takeWord?_append {word cs taken rest : List Char}
    (h : takeWord? word cs = some (taken, rest)) : taken ++ rest = cs := by
  induction word generalizing cs taken with
  | nil => simp only [takeWord?, Option.some.injEq, Prod.mk.injEq] at h; simp [← h.1, h.2]
  | cons w word ih =>
    cases cs with
    | nil => simp [takeWord?] at h
    | cons c cs =>
      simp only [takeWord?] at h
      split at h
      · simp only [Option.map_eq_some_iff, Prod.exists, Prod.mk.injEq] at h
        obtain ⟨taken', rest', h', rfl, rfl⟩ := h
        simpa using ih h'
      · cases h

theorem Piece.take?_append {piece : Piece} {cs taken rest : List Char}
    (h : piece.take? cs = some (taken, rest)) : taken ++ rest = cs := by
  cases piece with
  | word text => exact takeWord?_append h
  | blanks =>
    simp only [Piece.take?, Option.some.injEq, Prod.mk.injEq] at h
    obtain ⟨rfl, rfl⟩ := h
    exact List.takeWhile_append_dropWhile

theorem takePieces?_append {pieces : List Piece} {cs taken rest : List Char}
    (h : takePieces? pieces cs = some (taken, rest)) : taken ++ rest = cs := by
  induction pieces generalizing cs taken with
  | nil => simp only [takePieces?, Option.some.injEq, Prod.mk.injEq] at h; simp [← h.1, h.2]
  | cons piece pieces ih =>
    simp only [takePieces?, Option.bind_eq_bind, Option.bind_eq_some_iff, Prod.exists,
      Option.pure_def, Option.some.injEq, Prod.mk.injEq] at h
    obtain ⟨first, cs', hfirst, others, rest', hothers, rfl, rfl⟩ := h
    rw [List.append_assoc, ih hothers, Piece.take?_append hfirst]

/-! ## String literals -/

/-- Takes a string literal from the start of a text: its quote, its content, and what comes after
its closing quote. -/
def takeLiteral? : List Char → Option (Char × List Char × List Char)
  | [] => none
  | quote :: cs =>
    if isQuote quote then
      match cs.dropWhile fun c => c ≠ quote with
      | _ :: rest => some (quote, cs.takeWhile fun c => c ≠ quote, rest)
      | [] => none
    else none

theorem takeLiteral?_append {cs content rest : List Char} {quote : Char}
    (h : takeLiteral? cs = some (quote, content, rest)) :
    quote :: content ++ quote :: rest = cs := by
  cases cs with
  | nil => cases h
  | cons q cs =>
    simp only [takeLiteral?] at h
    split at h
    · split at h
      · next c rest' hdrop =>
        simp only [Option.some.injEq, Prod.mk.injEq] at h
        obtain ⟨rfl, rfl, rfl⟩ := h
        have hhead : c = q := by
          have := List.head?_dropWhile_not (fun c => decide (c ≠ q)) cs
          rw [hdrop] at this
          simpa using this
        have happend := List.takeWhile_append_dropWhile (p := fun c => decide (c ≠ q)) (l := cs)
        rw [hdrop, hhead] at happend
        rw [List.cons_append, happend]
      · cases h
    · cases h

/-! ## Shapes -/

/-- A shape of predicate: what stands before its string literal and what stands after it. -/
structure Shape where
  opening : List Piece
  closing : List Piece
  deriving Repr, DecidableEq

/-- An occurrence of a shape at the start of a text. -/
structure Occurrence where
  /-- The text up to the content of the literal. -/
  before : List Char
  /-- The content of the literal. -/
  content : List Char
  /-- The text after the content of the literal. -/
  after : List Char
  /-- What comes after the occurrence. -/
  rest : List Char
  deriving Repr, DecidableEq

namespace Shape

/-- The occurrence of a shape at the start of a text. -/
def match? (shape : Shape) (cs : List Char) : Option Occurrence := do
  let (opening, cs) ← takePieces? shape.opening cs
  let (quote, content, cs) ← takeLiteral? cs
  let (closing, rest) ← takePieces? shape.closing cs
  return ⟨opening ++ [quote], content, quote :: closing, rest⟩

theorem match?_append {shape : Shape} {cs : List Char} {found : Occurrence}
    (h : shape.match? cs = some found) :
    found.before ++ found.content ++ found.after ++ found.rest = cs := by
  simp only [match?, Option.bind_eq_bind, Option.bind_eq_some_iff, Prod.exists, Option.pure_def,
    Option.some.injEq] at h
  obtain ⟨opening, cs₁, hopening, quote, content, cs₂, hliteral, closing, rest, hclosing, rfl⟩ := h
  have h₁ := takePieces?_append hopening
  have h₂ := takeLiteral?_append hliteral
  have h₃ := takePieces?_append hclosing
  simp [← h₁, ← h₂, ← h₃]

theorem length_rest_lt {shape : Shape} {cs : List Char} {found : Occurrence}
    (h : shape.match? cs = some found) : found.rest.length < cs.length := by
  have happend := congrArg List.length (match?_append h)
  simp only [match?, Option.bind_eq_bind, Option.bind_eq_some_iff, Prod.exists, Option.pure_def,
    Option.some.injEq] at h
  obtain ⟨opening, cs₁, hopening, quote, content, cs₂, hliteral, closing, rest, hclosing, rfl⟩ := h
  simp only [List.length_append, List.length_cons] at happend
  simp only
  omega

/-- Replaces the content of the literal in every occurrence of a shape by what `lookup` has for it,
from left to right; where it has nothing, the occurrence stays as it is. -/
def replace (shape : Shape) (lookup : List Char → Option (List Char)) : List Char → List Char
  | [] => []
  | c :: cs =>
    match _h : shape.match? (c :: cs) with
    -- The search goes on after the occurrence, so a value that is put in is not searched.
    | some found =>
      found.before ++ (lookup found.content).getD found.content ++ found.after ++
        replace shape lookup found.rest
    | none => c :: replace shape lookup cs
termination_by cs => cs.length
decreasing_by
  · exact length_rest_lt _h
  · simp

end Shape

/-! ## The ten shapes -/

/-- The attribute of a name itself. -/
def plainSubject (name : List Char) : List Piece := [.word ('@' :: name)]

/-- The normalized form of the attribute of a name. -/
def normalizedSubject (name : List Char) : List Piece :=
  [.word "normalize-space(".toList, .blanks, .word ('@' :: name), .blanks, .word [')']]

/-- Equality of a subject with a literal. -/
def equality (subject : List Piece) : Shape :=
  ⟨subject ++ [.blanks, .word ['='], .blanks], []⟩

/-- A function of a subject and a literal. -/
def application (function : String) (subject : List Piece) : Shape :=
  ⟨.word (function.toList ++ ['(']) :: .blanks :: subject ++ [.blanks, .word [','], .blanks],
    [.blanks, .word [')']]⟩

/-- The functions that compare a subject with a literal. -/
def functions : List String := ["contains", "starts-with", "ends-with", "matches"]

/-- The shapes of predicate on one attribute. -/
structure AttributeMatcher where
  attributeName : String
  shapes : List Shape
  deriving Repr, DecidableEq

namespace AttributeMatcher

/-- The ten shapes of predicate on an attribute. -/
def ofAttribute (name : String) : AttributeMatcher where
  attributeName := name
  shapes :=
    let plain := plainSubject name.toList
    let normalized := normalizedSubject name.toList
    [equality plain, equality normalized] ++
      functions.flatMap fun function =>
        [application function plain, application function normalized]

/-- Replaces literals in the occurrences of each shape, one shape after the other. -/
def substituteChars (matcher : AttributeMatcher) (lookup : List Char → Option (List Char))
    (cs : List Char) : List Char :=
  matcher.shapes.foldl (fun cs shape => shape.replace lookup cs) cs

/-- What a map has for a literal. -/
def lookup (map : OrderedMap String String) (content : List Char) : Option (List Char) :=
  (map.get? (String.ofList content)).map String.toList

/-- Replaces the literals that are keys of a map by their values. -/
def substitute (matcher : AttributeMatcher) (map : OrderedMap String String) (text : String) :
    String :=
  String.ofList (matcher.substituteChars (lookup map) text.toList)

end AttributeMatcher

end TreeNotation.XPath
