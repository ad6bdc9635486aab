import Mathlib.Data.List.Basic
import TreeNotation.Proofs.XPath.Literals
import TreeNotation.XPath.Restorer

/-!
# Unknown Literals

A path in which no key of a map stands between quotes stays as it is, whether or not its quotes and
brackets have partners: whatever a search takes for an occurrence, it puts back.

- **Searches**: `Unknown` says that no text between quotes is known, `Unknown.replace` that a search
  for a shape then gives back what it has searched;
- **Paths**: `Unknown.restoreStep` and `Unknown.restoreChars`, steps and node tests are put together
  as they were cut;
- **Restorers**: `Restorer.restore_of_unknown_keys`.
-/

namespace TreeNotation.XPath

variable {lookup : List Char → Option (List Char)} {cs : List Char}

/-! ## Section 1: Searches -/

/-- Nothing is known of any text that stands between two quotes of the same kind. -/
def Unknown (lookup : List Char → Option (List Char)) (cs : List Char) : Prop :=
  ∀ quote content, isQuote quote = true → quote :: content ++ [quote] <:+: cs →
    lookup content = none

namespace Shape

/-- The literal of an occurrence stands in the text, quotes and all. -/
theorem exists_infix_of_match? {shape : Shape} {found : Occurrence}
    (h : shape.match? cs = some found) :
    ∃ quote, isQuote quote = true ∧ quote :: found.content ++ [quote] <:+: cs := by
  simp only [match?, Option.bind_eq_bind, Option.bind_eq_some_iff, Prod.exists, Option.pure_def,
    Option.some.injEq] at h
  obtain ⟨opening, cs₁, hopening, quote, content, cs₂, hliteral, closing, rest, -, rfl⟩ := h
  obtain ⟨rfl, hquote, -⟩ := takeLiteral?_eq_some_iff.mp hliteral
  refine ⟨quote, hquote, opening, cs₂, ?_⟩
  rw [← takePieces?_append hopening]
  simp

end Shape

/-- A text without quotes has no literals. -/
theorem unknown_of_plain (h : ∀ c ∈ cs, isQuote c = false) : Unknown lookup cs := by
  intro quote content hquote hliteral
  have hplain := h quote (hliteral.subset List.mem_cons_self)
  rw [hquote] at hplain
  cases hplain

namespace Unknown

theorem of_infix {ds : List Char} (h : Unknown lookup cs) (hpart : ds <:+: cs) :
    Unknown lookup ds :=
  fun quote content hquote hliteral => h quote content hquote (hliteral.trans hpart)

theorem replace (h : Unknown lookup cs) (shape : Shape) : shape.replace lookup cs = cs := by
  -- The induction is on the search, which goes on in what is left of the text.
  fun_induction Shape.replace shape lookup cs with
  | case1 => rfl
  | case2 c cs found hfound ih =>
    obtain ⟨quote, hquote, hliteral⟩ := Shape.exists_infix_of_match? hfound
    have htext := Shape.match?_append hfound
    have hrest : found.rest <:+: c :: cs := htext ▸ (List.suffix_append _ _).isInfix
    rw [ih (h.of_infix hrest), h quote found.content hquote hliteral, Option.getD_none, htext]
  | case3 c cs hnone ih => rw [ih (h.of_infix (List.suffix_cons c cs).isInfix)]

theorem substituteChars (h : Unknown lookup cs) (matcher : AttributeMatcher) :
    matcher.substituteChars lookup cs = cs :=
  List.foldl_fixed' (fun shape => h.replace shape) matcher.shapes

end Unknown

theorem substituteChars_of_plain (h : ∀ c ∈ cs, isQuote c = false) (matcher : AttributeMatcher) :
    matcher.substituteChars lookup cs = cs :=
  (unknown_of_plain h).substituteChars matcher

@[simp]
theorem substituteChars_nil (matcher : AttributeMatcher) :
    matcher.substituteChars lookup [] = [] :=
  substituteChars_of_plain (by simp) matcher

/-! ## Section 2: Paths -/

namespace Unknown

theorem restoreStep {step : Step} (h : Unknown lookup step.text) (matcher : AttributeMatcher)
    (tag : Option String) : restoreStep matcher tag lookup step = step.toChars := by
  have happend := NodeTest.ofStep_append step.text
  have hpredicates : (NodeTest.ofStep step.text).predicates <:+: step.text :=
    ⟨(NodeTest.ofStep step.text).head, [], by rw [List.append_nil, happend]⟩
  rw [XPath.restoreStep, (h.of_infix hpredicates).substituteChars, ite_self, List.append_assoc,
    happend, Step.toChars]

theorem restoreChars (h : Unknown lookup cs) (matcher : AttributeMatcher) (tag : Option String) :
    restoreChars matcher tag lookup cs = cs := by
  have hstep : ∀ step ∈ split cs, XPath.restoreStep matcher tag lookup step = step.toChars := by
    intro step hstep
    have hwhole : step.toChars <:+: ((split cs).map Step.toChars).flatten :=
      List.infix_of_mem_flatten (List.mem_map_of_mem hstep)
    rw [← List.flatMap_def, flatten_split] at hwhole
    have htext : step.text <:+: step.toChars := (List.suffix_append _ _).isInfix
    exact (h.of_infix (htext.trans hwhole)).restoreStep matcher tag
  rw [XPath.restoreChars, List.flatMap_congr hstep, flatten_split]

end Unknown

/-! ## Section 3: Restorers -/

theorem unknown_lookup {map : OrderedMap String String}
    (h : ∀ key ∈ map.keys, ∀ quote, isQuote quote = true →
      ¬ quote :: key.toList ++ [quote] <:+: cs) :
    Unknown (AttributeMatcher.lookup map) cs := by
  intro quote content hquote hliteral
  rw [AttributeMatcher.lookup, Option.map_eq_none_iff, OrderedMap.get?_eq_none_iff]
  intro hkey
  apply h _ hkey quote hquote
  rwa [String.toList_ofList]

namespace Restorer

/-- A path is returned as it is if no key of the map stands in it between two quotes of the same
kind. -/
theorem restore_of_unknown_keys (r : Restorer) (path : String) (tag : Option String) (name : String)
    {map : OrderedMap String String}
    (h : ∀ key ∈ map.keys, ∀ quote, isQuote quote = true →
      ¬ quote :: key.toList ++ [quote] <:+: path.toList) :
    (r.restore path tag name map).1 = path := by
  have hchars : ∀ matcher, restoreChars matcher tag (AttributeMatcher.lookup map) path.toList =
      path.toList := fun matcher => (unknown_lookup h).restoreChars matcher tag
  unfold restore
  split
  · rfl
  · simp only [hchars, String.ofList_toList]

/-- One literal is not closed by its own quote, one is not a key as a whole, and no bracket is
closed. -/
theorem restore_of_open_literals :
    let path := "//a[contains(@class, \"c10\")][@class='c1\"/b[@class = c1]"
    let map := OrderedMap.ofList [("c1", "card")]
    (∀ key ∈ map.keys, ∀ quote, isQuote quote = true →
      ¬ quote :: key.toList ++ [quote] <:+: path.toList) ∧
      (standard.restore path none "class" map).1 = path := by
  intro path map
  have hkeys : ∀ key ∈ map.keys, ∀ quote, isQuote quote = true →
      ¬ quote :: key.toList ++ [quote] <:+: path.toList := by
    intro key hkey quote hquote
    obtain rfl : key = "c1" := List.mem_singleton.mp hkey
    simp only [isQuote, Bool.or_eq_true, beq_iff_eq] at hquote
    rcases hquote with rfl | rfl <;> decide +kernel
  exact ⟨hkeys, standard.restore_of_unknown_keys path none "class" hkeys⟩

end Restorer

end TreeNotation.XPath
