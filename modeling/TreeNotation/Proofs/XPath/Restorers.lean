import TreeNotation.Proofs.Forest.Growth
import TreeNotation.Proofs.XPath.Restoring

/-!
# Restorers

A restorer keeps the shapes it has made for an attribute and takes them for any name that differs in
the case of ASCII letters only. It restores as if it made them anew for every path.

- **Names**: `replace_lower`, the shapes for a name in lower case find what those for the name find;
- **Runs**: `Restorer.Reachable` and `Restorer.Faithful.restore_toList`, what a restorer returns
  does not depend on the calls before;
- **Result**: `Restorer.restore_at_once`, a restored path is the path with its literals changed all
  at once.
-/

namespace TreeNotation.XPath

open Text (fold)

/-! ## Section 1: Names in lower case -/

/-- The part with its ASCII letters in lower case. -/
def Piece.lower : Piece → Piece
  | .word text => .word (text.map Char.toLower)
  | .blanks => .blanks

theorem sameFold_toLower (w c : Char) : Text.sameFold w.toLower c = Text.sameFold w c := by
  rw [Text.sameFold, Text.sameFold, Text.fold_toLower]

theorem takeWord?_lower (text cs : List Char) :
    takeWord? (text.map Char.toLower) cs = takeWord? text cs := by
  -- The induction is on the word, whose characters agree with the same ones in lower case.
  induction text generalizing cs with
  | nil => rfl
  | cons w text ih =>
    cases cs with
    | nil => rfl
    | cons c cs => simp only [List.map_cons, takeWord?, sameFold_toLower, ih]

theorem Piece.take?_lower (piece : Piece) (cs : List Char) :
    piece.lower.take? cs = piece.take? cs := by
  cases piece with
  | word text => exact takeWord?_lower text cs
  | blanks => rfl

theorem takePieces?_lower (pieces : List Piece) (cs : List Char) :
    takePieces? (pieces.map Piece.lower) cs = takePieces? pieces cs := by
  induction pieces generalizing cs with
  | nil => rfl
  | cons piece pieces ih => simp only [List.map_cons, takePieces?, Piece.take?_lower, ih]

namespace Shape

/-- The shape with its ASCII letters in lower case. -/
def lower (shape : Shape) : Shape :=
  ⟨shape.opening.map Piece.lower, shape.closing.map Piece.lower⟩

theorem match?_lower (shape : Shape) (cs : List Char) :
    shape.lower.match? cs = shape.match? cs := by
  simp only [match?, lower, takePieces?_lower]

theorem replace_lower (shape : Shape) (lookup : List Char → Option (List Char)) (cs : List Char) :
    shape.lower.replace lookup cs = shape.replace lookup cs := by
  -- The induction is on the search, which finds the same occurrences in the same places.
  fun_induction replace shape lookup cs with
  | case1 => rw [replace]
  | case2 c cs found hfound ih =>
    rw [← match?_lower] at hfound
    rw [replace_of_match? hfound, ih]
  | case3 c cs hnone ih =>
    rw [← match?_lower] at hnone
    rw [replace_cons_of_match? hnone, ih]

end Shape

namespace AttributeMatcher

/-- Attributes have their shapes in lower case if they are in lower case. -/
theorem shapes_ofAttribute_key (name : String) :
    (ofAttribute (Restorer.key name)).shapes = (ofAttribute name).shapes.map Shape.lower := by
  have hkey : (Restorer.key name).toList = name.toList.map Char.toLower := by
    simp [Restorer.key]
  simp only [ofAttribute, hkey]
  rfl

theorem substituteChars_ofAttribute_key (name : String) (lookup : List Char → Option (List Char))
    (cs : List Char) :
    (ofAttribute (Restorer.key name)).substituteChars lookup cs =
      (ofAttribute name).substituteChars lookup cs := by
  rw [substituteChars, substituteChars, shapes_ofAttribute_key, List.foldl_map]
  simp only [Shape.replace_lower]

end AttributeMatcher

namespace Restorer

/-! ## Section 2: Runs -/

/-- A call of a restorer. -/
structure Call where
  path : String
  tag : Option String
  name : String
  map : OrderedMap String String

/-- A restorer after a call. -/
def after (r : Restorer) (call : Call) : Restorer :=
  (r.restore call.path call.tag call.name call.map).2

/-- A restorer as calls leave it, from a new one of any capacity. -/
def Reachable (r : Restorer) : Prop :=
  ReachedFrom (fun first => ∃ capacity, first = ofCapacity capacity) after r

/-- All shapes that are kept were made for an attribute with the key they are kept at. -/
def Faithful (r : Restorer) : Prop :=
  ∀ entry ∈ r.kept, ∃ name, entry = (key name, AttributeMatcher.ofAttribute name)

theorem Faithful.matcher {r : Restorer} (h : r.Faithful) (name : String) :
    (r.matcher name).2.Faithful := by
  unfold Restorer.matcher
  split
  case h_1 entry hentry =>
    -- Shapes that are at hand change their place only.
    intro other hother
    rcases List.mem_cons.mp hother with rfl | hother
    · exact h other (List.mem_of_find?_eq_some hentry)
    · exact h other (List.mem_filter.mp hother).1
  case h_2 =>
    -- New shapes are kept at the key of the name that they were made for.
    intro other hother
    rcases List.mem_cons.mp (List.mem_of_mem_take hother) with rfl | hother
    · exact ⟨name, rfl⟩
    · exact h other hother

theorem Faithful.after_restore {r : Restorer} (h : r.Faithful) (path : String) (tag : Option String)
    (name : String) (map : OrderedMap String String) : (r.restore path tag name map).2.Faithful := by
  unfold Restorer.restore
  split
  case isTrue => exact h
  case isFalse => exact h.matcher name

theorem faithful_ofCapacity (capacity : Nat) : (ofCapacity capacity).Faithful := nofun

theorem Reachable.faithful {r : Restorer} (h : r.Reachable) : r.Faithful := by
  apply ReachedFrom.induction (P := Faithful) ?_ ?_ h
  · intro first hfirst
    obtain ⟨capacity, rfl⟩ := hfirst
    exact faithful_ofCapacity capacity
  · intro r call hr
    exact hr.after_restore call.path call.tag call.name call.map

theorem Faithful.substituteChars_matcher {r : Restorer} (h : r.Faithful) (name : String)
    (lookup : List Char → Option (List Char)) (cs : List Char) :
    (r.matcher name).1.substituteChars lookup cs =
      (AttributeMatcher.ofAttribute name).substituteChars lookup cs := by
  unfold Restorer.matcher
  split
  case h_1 entry hentry =>
    obtain ⟨made, rfl⟩ := h entry (List.mem_of_find?_eq_some hentry)
    have hkey : key made = key name := by simpa using List.find?_some hentry
    -- The two names differ in the case of letters at most.
    rw [← AttributeMatcher.substituteChars_ofAttribute_key made, hkey,
      AttributeMatcher.substituteChars_ofAttribute_key]
  case h_2 => rfl

/-- What a restorer returns does not depend on the calls before. -/
theorem Faithful.restore_toList {r : Restorer} (h : r.Faithful) (path : String)
    (tag : Option String) (name : String) {map : OrderedMap String String}
    (hmap : map.isEmpty = false) :
    (r.restore path tag name map).1.toList =
      restoreChars (AttributeMatcher.ofAttribute name) tag (AttributeMatcher.lookup map)
        path.toList := by
  have hstep : restoreStep (r.matcher name).1 tag (AttributeMatcher.lookup map) =
      restoreStep (AttributeMatcher.ofAttribute name) tag (AttributeMatcher.lookup map) := by
    funext step
    simp only [restoreStep, h.substituteChars_matcher]
  have hrestore : (r.restore path tag name map).1 = String.ofList
      (restoreChars (r.matcher name).1 tag (AttributeMatcher.lookup map) path.toList) := by
    rw [restore, hmap]
    rfl
  rw [hrestore, String.toList_ofList, restoreChars, restoreChars, hstep]

/-! ## Section 3: Result -/

theorem lookup_of_isEmpty {map : OrderedMap String String} (h : map.isEmpty = true)
    (content : List Char) : AttributeMatcher.lookup map content = none := by
  have hentries : map.entries = [] := List.isEmpty_iff.mp h
  rw [AttributeMatcher.lookup, OrderedMap.get?, hentries]
  rfl

theorem plainValues_lookup {map : OrderedMap String String}
    (h : ∀ entry ∈ map.entries, ∀ c ∈ entry.2.toList, isQuote c = false ∧ c ≠ '@') :
    PlainValues (AttributeMatcher.lookup map) := by
  intro content value hvalue
  obtain ⟨text, htext, rfl⟩ := Option.map_eq_some_iff.mp hvalue
  exact h _ (OrderedMap.get?_eq_some_iff.mp htext)

/-- What is not changed of a step: its separator, the name it tests for, and all that comes before
its predicates. -/
def frame (step : Step) : List Char × List Char × List Char :=
  (step.separator, (NodeTest.ofStep step.text).name, (NodeTest.ofStep step.text).head)

/-- Restoring a path changes all its literals at once, whatever the restorer has restored before and
whatever the order is in which it searches for the ten shapes; the path keeps its steps. -/
theorem restore_at_once {r : Restorer} (hr : r.Reachable) (path : String) (tag : Option String)
    {name : String} (hname : ∀ c ∈ name.toList, isNameChar c = true)
    {map : OrderedMap String String}
    (hmap : ∀ entry ∈ map.entries, ∀ c ∈ entry.2.toList, isQuote c = false ∧ c ≠ '@')
    (hpath : AtOutside .outermost path.toList) :
    let restored := (r.restore path tag name map).1.toList
    let shapes := (AttributeMatcher.ofAttribute name).shapes
    restored = changePath shapes tag (AttributeMatcher.lookup map) path.toList ∧
      (∀ shapes', shapes'.Perm shapes →
        restoreChars ⟨name, shapes'⟩ tag (AttributeMatcher.lookup map) path.toList = restored) ∧
      (split restored).map frame = (split path.toList).map frame := by
  intro restored shapes
  have hlookup := plainValues_lookup hmap
  -- Any order of the shapes gives the path with all literals changed at once.
  have hperm : ∀ shapes', shapes'.Perm shapes →
      restoreChars ⟨name, shapes'⟩ tag (AttributeMatcher.lookup map) path.toList =
        changePath shapes tag (AttributeMatcher.lookup map) path.toList := by
    intro shapes' hshapes
    rw [restoreChars_eq_changePath ?_ ?_ hlookup hpath, changePath_perm hshapes]
    · exact fun shape hshape => regular_of_mem_shapes hname (hshapes.mem_iff.mp hshape)
    · exact hshapes.symm.pairwise (pairwise_excludes hname) Shape.Excludes.symm
  have hrestored : restored = changePath shapes tag (AttributeMatcher.lookup map) path.toList := by
    cases hempty : map.isEmpty with
    | true =>
      -- Nothing is restored, and there is nothing to change.
      rw [changePath_of_forall (lookup_of_isEmpty hempty)]
      show (r.restore path tag name map).1.toList = path.toList
      rw [restore, if_pos hempty]
    | false =>
      rw [← hperm shapes (.refl _)]
      exact hr.faithful.restore_toList path tag name hempty
  refine ⟨hrestored, fun shapes' hshapes => (hperm shapes' hshapes).trans hrestored.symm, ?_⟩
  -- The steps of the path with its literals changed are the changed steps.
  rw [hrestored, split_changePath hlookup, List.map_map]
  refine List.map_congr_left fun step _ => ?_
  obtain ⟨htest, hhead⟩ := ofStep_changeStep shapes tag (AttributeMatcher.lookup map) step
  exact Prod.ext rfl (Prod.ext htest hhead)

/-- Two literals stand in shapes on the attribute; the third one, on another attribute, is kept. -/
theorem standard_restores_classes :
    let path := "//div[@class='c1' and contains(@CLASS, \"c2\")]/a[@href='c1']"
    let map := OrderedMap.ofList [("c1", "alpha beta"), ("c2", "alpha")]
    (standard.restore path none "class" map).1.toList =
        "//div[@class='alpha beta' and contains(@CLASS, \"alpha\")]/a[@href='c1']".toList ∧
      (split (standard.restore path none "class" map).1.toList).map frame =
        (split path.toList).map frame := by
  intro path map
  have hreachable : standard.Reachable := ⟨standard, [], ⟨16, rfl⟩, rfl⟩
  have hname : ∀ c ∈ "class".toList, isNameChar c = true := List.all_eq_true.mp rfl
  have hvalues : (map.entries.all fun entry =>
      entry.2.toList.all fun c => !isQuote c && c != '@') = true := by decide
  have hmap : ∀ entry ∈ map.entries, ∀ c ∈ entry.2.toList, isQuote c = false ∧ c ≠ '@' := by
    simpa using hvalues
  have hpath : AtOutside .outermost path.toList := by decide
  obtain ⟨hrestored, -, hframes⟩ := restore_at_once hreachable path none hname hmap hpath
  refine ⟨hrestored.trans ?_, hframes⟩
  decide +kernel

end Restorer

end TreeNotation.XPath
