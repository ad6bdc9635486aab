import TreeNotation.Proofs.XPath.Joining
import TreeNotation.Proofs.XPath.Restorers

/-!
# Unions of Paths

A union is two paths with a vertical bar between them. The reader of steps does not know of the bar:
the last step of the first path and what comes before the first slash of the second one are one
step, with one node test. Beside this step, the two paths are restored on their own.

- **Steps**: `exists_last`, what comes behind a path with nothing left open goes on in its last step;
- **Node tests**: the step at the bar is tested as the first path is if this one has predicates
  (`ofStep_joined_of_ne`), and by a node test with a bar in it if not (`ofStep_joined_of_eq_nil`);
- **Restoring**: `restoreStep_joined` and `restoreChars_union_iff`;
- **Restorers**: `SearchedApart` says when predicates on both sides of a bar may be searched as one,
  and `Restorer.restore_union` when a union is restored as its two paths are.
-/

namespace TreeNotation.XPath

/-! ## Section 1: Steps of a union -/

/-- No bracket and no string literal is left open at the end of a text. -/
def Balanced (cs : List Char) : Prop := Scope.outermost.afterAll cs = .outermost

instance decidableBalanced (cs : List Char) : Decidable (Balanced cs) :=
  inferInstanceAs (Decidable (Scope.outermost.afterAll cs = .outermost))

/-- What a path begins with, up to its first slash outside of brackets and literals. -/
def firstText (path : List Char) : List Char := (stepText .outermost path).1

/-- What comes after that. -/
def afterFirst (path : List Char) : List Char := (stepText .outermost path).2

theorem firstText_append_afterFirst (path : List Char) :
    firstText path ++ afterFirst path = path := stepText_append .outermost path

/-- A step with more behind it, up to the first slash of that, is one step. -/
theorem StepsOff.append {separator text : List Char} (h : StepsOff separator text [])
    (htext : Balanced text) {more : List Char} (hmore : more.head? ≠ some '/') :
    StepsOff separator (text ++ firstText more) (afterFirst more) := by
  obtain ⟨hbreak, hrest⟩ := unbroken_stepText .outermost more
  refine ⟨h.separator_eq, ?_, ?_, ?_, ?_⟩
  · intro hnil
    rw [← List.append_assoc] at hnil
    exact h.ne_nil (List.append_eq_nil_iff.mp hnil).1
  · rw [List.head?_append]
    cases hhead : text.head? with
    | none =>
      rw [Option.none_or, firstText, stepText_of_head? hmore]
      exact hmore
    | some c =>
      rw [Option.some_or, ← hhead]
      exact h.head?_ne
  · rw [unbroken_append_iff, htext]
    exact ⟨h.unbroken, hbreak⟩
  · refine hrest.imp id fun ⟨⟨tail, htail⟩, hscope⟩ => ⟨?_, ⟨tail, htail⟩, ?_⟩
    · -- What is cut off does not begin with the slash that ends it.
      intro hnil
      have hwhole := firstText_append_afterFirst more
      rw [(List.append_eq_nil_iff.mp hnil).2, List.nil_append] at hwhole
      rw [← hwhole, afterFirst, htail] at hmore
      exact hmore rfl
    · rw [Scope.afterAll_append, htext]
      exact hscope

/-- Behind a path with nothing left open, more of it goes on in the last step. -/
theorem exists_last {path : List Char} (hne : path ≠ []) (hpath : Balanced path) :
    ∃ before last, split path = before ++ [last] ∧ Balanced last.text ∧
      ∀ more : List Char, more.head? ≠ some '/' →
        split (path ++ more) =
          before ++ ⟨last.separator, last.text ++ firstText more⟩ :: split (afterFirst more) := by
  -- The induction is on the steps of the path, up to the one that nothing comes after.
  fun_induction split path with
  | case1 path hnone =>
    cases path with
    | nil => exact absurd rfl hne
    | cons c path => cases hnone
  | case2 path step rest hnext ih =>
    have hsteps := stepsOff_of_next? hnext
    have happend := next?_append hnext
    rw [Step.toChars] at happend
    rw [Balanced, ← happend, Scope.afterAll_append, Scope.afterAll_append,
      Scope.afterAll_slashes hsteps.separator_eq _ rfl] at hpath
    rcases hsteps.rest_cases with rfl | ⟨htext, ⟨tail, rfl⟩, hscope⟩
    · refine ⟨[], step, by rw [split_nil]; rfl, hpath, fun more hmore => ?_⟩
      have hjoined := next?_of_stepsOff (hsteps.append hpath hmore)
      rw [List.append_assoc, List.append_assoc, firstText_append_afterFirst, ← List.append_assoc,
        ← List.append_nil (step.separator ++ step.text), happend] at hjoined
      rw [split_of_next? hjoined, List.nil_append]
    · rw [hscope] at hpath
      obtain ⟨before, last, hsplit, hlast, hmore⟩ := ih (List.cons_ne_nil _ _) hpath
      refine ⟨step :: before, last, by rw [hsplit]; rfl, hlast, fun more hhead => ?_⟩
      have hfirst : StepsOff step.separator step.text ('/' :: tail ++ more) :=
        { hsteps with rest_cases := .inr ⟨htext, ⟨tail ++ more, rfl⟩, hscope⟩ }
      rw [← happend, List.append_assoc, split_of_next? (next?_of_stepsOff hfirst),
        hmore more hhead, List.cons_append]

/-- A relative path has a first step without slashes before it. -/
theorem split_cases (path : List Char) :
    firstText path = [] ∧ afterFirst path = path ∨
      split path = ⟨[], firstText path⟩ :: split (afterFirst path) := by
  cases path with
  | nil => exact .inl ⟨rfl, rfl⟩
  | cons c cs =>
    by_cases hc : c = '/'
    · subst hc
      exact .inl ⟨rfl, rfl⟩
    · refine .inr (split_of_next? ?_)
      rw [next?_of_ne_nil (List.cons_ne_nil c cs)]
      simp [hc, firstText, afterFirst]

/-- A step with a bar and the beginning of a path behind it. -/
def Step.joined (step : Step) (first : List Char) : Step :=
  ⟨step.separator, step.text ++ '|' :: first⟩

/-! ## Section 2: The step at the bar -/

/-- Node tests and steps tell literals in the same way. -/
theorem cutPredicates_cons {scope : Scope} {c : Char} (h : ¬ (scope.quote = none ∧ c = '['))
    (cs : List Char) :
    cutPredicates scope.quote (c :: cs) =
      (c :: (cutPredicates (scope.after c).quote cs).1,
        (cutPredicates (scope.after c).quote cs).2) := by
  conv_lhs => unfold cutPredicates
  refine (if_neg h).trans ?_
  exact congrArg (fun quote => (c :: (cutPredicates quote cs).1, (cutPredicates quote cs).2))
    (Scope.quote_after scope c).symm

/-- Where predicates have begun, more of them follow. -/
theorem cutPredicates_append_of_ne {scope : Scope} {cs : List Char}
    (h : (cutPredicates scope.quote cs).2 ≠ []) (more : List Char) :
    cutPredicates scope.quote (cs ++ more) =
      ((cutPredicates scope.quote cs).1, (cutPredicates scope.quote cs).2 ++ more) := by
  induction cs generalizing scope with
  | nil => exact absurd rfl h
  | cons c cs ih =>
    by_cases hstop : scope.quote = none ∧ c = '['
    · simp only [List.cons_append, cutPredicates, if_pos hstop]
    · rw [cutPredicates_cons hstop] at h
      rw [List.cons_append, cutPredicates_cons hstop, cutPredicates_cons hstop, ih h]

/-- Where no predicates have begun, they may begin later. -/
theorem cutPredicates_append_of_eq_nil {scope : Scope} {cs : List Char}
    (h : (cutPredicates scope.quote cs).2 = []) (more : List Char) :
    cutPredicates scope.quote (cs ++ more) =
      (cs ++ (cutPredicates (scope.afterAll cs).quote more).1,
        (cutPredicates (scope.afterAll cs).quote more).2) := by
  induction cs generalizing scope with
  | nil => rfl
  | cons c cs ih =>
    by_cases hstop : scope.quote = none ∧ c = '['
    · simp [cutPredicates, hstop] at h
    · rw [cutPredicates_cons hstop] at h
      rw [List.cons_append, cutPredicates_cons hstop, ih h]
      rfl

section Joined

variable {last : Step} (first : List Char)

/-- If the first path ends with predicates, the second one goes on in them. -/
theorem ofStep_joined_of_ne (h : (NodeTest.ofStep last.text).predicates ≠ []) :
    NodeTest.ofStep (last.joined first).text =
      { NodeTest.ofStep last.text with
        predicates := (NodeTest.ofStep last.text).predicates ++ '|' :: first } := by
  have hcut := @cutPredicates_append_of_ne .outermost last.text h ('|' :: first)
  rw [Step.joined, NodeTest.ofStep,
    show cutPredicates none (last.text ++ '|' :: first) = _ from hcut]
  rfl

/-- If the first path ends with a node test, the second one goes on in it. -/
theorem ofStep_joined_of_eq_nil (hlast : Balanced last.text)
    (h : (NodeTest.ofStep last.text).predicates = []) :
    (NodeTest.ofStep (last.joined first).text).head =
        last.text ++ '|' :: (NodeTest.ofStep first).head ∧
      (NodeTest.ofStep (last.joined first).text).predicates =
        (NodeTest.ofStep first).predicates := by
  have hcut := @cutPredicates_append_of_eq_nil .outermost last.text h ('|' :: first)
  rw [hlast] at hcut
  rw [Step.joined, NodeTest.ofStep,
    show cutPredicates none (last.text ++ '|' :: first) = _ from hcut]
  exact ⟨rfl, rfl⟩

end Joined

/-! ## Section 3: Restoring a union -/

section Restoring

variable {matcher : AttributeMatcher} {tag : Option String}
  {lookup : List Char → Option (List Char)}

/-- The step at the bar is restored as the last step of the first path and, behind the bar, as the
beginning of the second one, but for the node test that is asked. If there are predicates on both
sides of the bar, the searches must not see them as one. -/
theorem restoreStep_joined {last : Step} (hlast : Balanced last.text) (first : List Char)
    (hsearch : (NodeTest.ofStep last.text).predicates = [] ∨
      matcher.substituteChars lookup ((NodeTest.ofStep last.text).predicates ++ '|' :: first) =
        matcher.substituteChars lookup (NodeTest.ofStep last.text).predicates ++ '|' ::
          ((NodeTest.ofStep first).head ++
            matcher.substituteChars lookup (NodeTest.ofStep first).predicates)) :
    restoreStep matcher tag lookup (last.joined first) =
      restoreStep matcher tag lookup last ++ '|' :: ((NodeTest.ofStep first).head ++
        if (NodeTest.ofStep (last.joined first).text).concerns tag then
          matcher.substituteChars lookup (NodeTest.ofStep first).predicates
        else (NodeTest.ofStep first).predicates) := by
  have hwhole := NodeTest.ofStep_append last.text
  by_cases hnil : (NodeTest.ofStep last.text).predicates = []
  · obtain ⟨hhead, hpredicates⟩ := ofStep_joined_of_eq_nil first hlast hnil
    rw [hnil, List.append_nil] at hwhole
    simp only [restoreStep, hhead, hpredicates, hnil, substituteChars_nil, ite_self, hwhole]
    simp [Step.joined]
  · have hbehind := hsearch.resolve_left hnil
    have hfirst := NodeTest.ofStep_append first
    have htest : (NodeTest.ofStep (last.joined first).text).concerns tag =
        (NodeTest.ofStep last.text).concerns tag := by
      rw [ofStep_joined_of_ne first hnil]
      rfl
    rw [restoreStep, restoreStep, htest, ofStep_joined_of_ne first hnil]
    cases (NodeTest.ofStep last.text).concerns tag with
    | true => simp [hbehind, Step.joined]
    | false => simp [hfirst, Step.joined]

/-- If the searches see the predicates on the two sides of the bar on their own, the node test
decides how the step at the bar is restored. -/
theorem restoreStep_joined_eq_iff {last : Step} (hlast : Balanced last.text) (first : List Char)
    (hsearch : (NodeTest.ofStep last.text).predicates = [] ∨
      matcher.substituteChars lookup ((NodeTest.ofStep last.text).predicates ++ '|' :: first) =
        matcher.substituteChars lookup (NodeTest.ofStep last.text).predicates ++ '|' ::
          ((NodeTest.ofStep first).head ++
            matcher.substituteChars lookup (NodeTest.ofStep first).predicates)) :
    restoreStep matcher tag lookup (last.joined first) =
        restoreStep matcher tag lookup last ++ '|' :: restoreStep matcher tag lookup ⟨[], first⟩ ↔
      (NodeTest.ofStep (last.joined first).text).concerns tag =
          (NodeTest.ofStep first).concerns tag ∨
        matcher.substituteChars lookup (NodeTest.ofStep first).predicates =
          (NodeTest.ofStep first).predicates := by
  have hfirst : restoreStep matcher tag lookup ⟨[], first⟩ = (NodeTest.ofStep first).head ++
      if (NodeTest.ofStep first).concerns tag then
        matcher.substituteChars lookup (NodeTest.ofStep first).predicates
      else (NodeTest.ofStep first).predicates := rfl
  rw [restoreStep_joined hlast first hsearch, hfirst, List.append_right_inj, List.cons_inj_right,
    List.append_right_inj]
  cases (NodeTest.ofStep (last.joined first).text).concerns tag <;>
    cases (NodeTest.ofStep first).concerns tag <;> simp [eq_comm]

/-- Without quotes behind the bar, nothing is found there. -/
theorem substituteChars_append_unquoted
    (hshapes : ∀ shape ∈ matcher.shapes, shape.ClosesShort) {first : List Char}
    (hfirst : ∀ c ∈ first, isQuote c = false) (cs : List Char) :
    matcher.substituteChars lookup (cs ++ '|' :: first) =
        matcher.substituteChars lookup cs ++ '|' :: ((NodeTest.ofStep first).head ++
          matcher.substituteChars lookup (NodeTest.ofStep first).predicates) ∧
      matcher.substituteChars lookup (NodeTest.ofStep first).predicates =
        (NodeTest.ofStep first).predicates := by
  have hwhole := NodeTest.ofStep_append first
  have hpredicates : ∀ c ∈ (NodeTest.ofStep first).predicates, isQuote c = false := by
    intro c hc
    apply hfirst
    rw [← hwhole]
    exact List.mem_append_right _ hc
  have htail : Tail ('|' :: first) := by
    refine ⟨List.forall_mem_cons.mpr ⟨rfl, hfirst⟩, fun c hc => ?_⟩
    cases hc
    exact ⟨rfl, by decide⟩
  have hcopied : matcher.substituteChars lookup (NodeTest.ofStep first).predicates =
      (NodeTest.ofStep first).predicates := substituteChars_of_plain hpredicates matcher
  rw [substituteChars_append_tail hshapes htail, hcopied, hwhole]
  exact ⟨rfl, rfl⟩

theorem restoreChars_eq_cons (path : List Char) :
    restoreChars matcher tag lookup path =
      restoreStep matcher tag lookup ⟨[], firstText path⟩ ++
        restoreChars matcher tag lookup (afterFirst path) := by
  rcases split_cases path with ⟨hfirst, hafter⟩ | hsplit
  · -- There is no step before the first slash, and nothing is restored of it.
    rw [hfirst, hafter]
    simp [restoreStep, NodeTest.ofStep, cutPredicates]
  · rw [restoreChars, hsplit, List.flatMap_cons]
    rfl

/-- A union is restored as its two paths are if and only if the step at the bar is. -/
theorem restoreChars_union_iff {p q : List Char} {before : List Step} {last : Step}
    (hsplit : split p = before ++ [last])
    (hunion : split (p ++ '|' :: q) = before ++ last.joined (firstText q) :: split (afterFirst q)) :
    restoreChars matcher tag lookup (p ++ '|' :: q) =
        restoreChars matcher tag lookup p ++ '|' :: restoreChars matcher tag lookup q ↔
      restoreStep matcher tag lookup (last.joined (firstText q)) =
        restoreStep matcher tag lookup last ++
          '|' :: restoreStep matcher tag lookup ⟨[], firstText q⟩ := by
  have hleft : restoreChars matcher tag lookup p =
      before.flatMap (restoreStep matcher tag lookup) ++ restoreStep matcher tag lookup last := by
    rw [restoreChars, hsplit, List.flatMap_append, List.flatMap_singleton]
  have hboth : restoreChars matcher tag lookup (p ++ '|' :: q) =
      before.flatMap (restoreStep matcher tag lookup) ++
        (restoreStep matcher tag lookup (last.joined (firstText q)) ++
          restoreChars matcher tag lookup (afterFirst q)) := by
    rw [restoreChars, hunion, List.flatMap_append, List.flatMap_cons]
    rfl
  rw [hboth, hleft, restoreChars_eq_cons q, List.append_assoc, List.append_right_inj,
    ← List.cons_append, ← List.append_assoc, List.append_left_inj]

end Restoring

/-! ## Section 4: Restorers -/

namespace Restorer

/-- What a restorer returns does not depend on the calls before, nor on whether the map is empty. -/
theorem Reachable.restore_toList {r : Restorer} (h : r.Reachable) (path : String)
    (tag : Option String) (name : String) (map : OrderedMap String String) :
    (r.restore path tag name map).1.toList =
      restoreChars (AttributeMatcher.ofAttribute name) tag (AttributeMatcher.lookup map)
        path.toList := by
  cases hempty : map.isEmpty with
  | false => exact h.faithful.restore_toList path tag name hempty
  | true =>
    have hunknown : Unknown (AttributeMatcher.lookup map) path.toList := fun _ content _ _ =>
      lookup_of_isEmpty hempty content
    rw [restore, if_pos hempty, hunknown.restoreChars]

/-- The search of a text for the shapes on an attribute. -/
def search (name : String) (map : OrderedMap String String) : List Char → List Char :=
  (AttributeMatcher.ofAttribute name).substituteChars (AttributeMatcher.lookup map)

/-- No occurrence reaches across a bar, and none begins in a node test behind it: the name, the values
and the literals hold nothing that a search could take for a part of a shape. -/
structure SearchedApart (p q : List Char) (name : String) (map : OrderedMap String String) :
    Prop where
  name : ∀ c ∈ name.toList, isQuote c = false ∧ c ≠ ')' ∧ c ≠ '|' ∧ c ≠ '['
  values : ∀ entry ∈ map.entries, ∀ c ∈ entry.2.toList, isQuote c = false ∧ c ≠ '@'
  left : AtOutside .outermost p
  right : AtOutside .outermost q
  test : ∀ c ∈ (NodeTest.ofStep (firstText q)).head, isQuote c = false

namespace SearchedApart

variable {p q : List Char} {name : String} {map : OrderedMap String String}

theorem lacks (h : SearchedApart p q name map) {mark : Char} (hmark : mark = '|' ∨ mark = '[') :
    ∀ shape ∈ (AttributeMatcher.ofAttribute name).shapes, shape.Lacks mark := by
  have hname : mark ∉ name.toList := by
    intro hmem
    obtain ⟨-, -, hbar, hbracket⟩ := h.name mark hmem
    rcases hmark with rfl | rfl
    · exact hbar rfl
    · exact hbracket rfl
  exact fun shape => lacks_of_mem_shapes hmark hname

/-- Texts are searched on their own on the two sides of a bar or a bracket. -/
theorem search_append (h : SearchedApart p q name map) {mark : Char}
    (hmark : mark = '|' ∨ mark = '[') {cs ds : List Char} (hclosed : (Cut.ofChars cs).Closed)
    (hcs : (Cut.ofChars cs).Holds ('@' ∉ ·)) (hds : (Cut.ofChars ds).Holds ('@' ∉ ·)) :
    search name map (cs ++ mark :: ds) = search name map cs ++ mark :: search name map ds := by
  have hquote : isQuote mark = false := by
    rcases hmark with rfl | rfl <;> rfl
  exact substituteChars_append_mark (fun _ => regular_of_unquoted fun c hc => (h.name c hc).1)
    (pairwise_excludes_of_not_mem fun hmem => (h.name ')' hmem).2.1 rfl)
    (plainValues_lookup h.values) (h.lacks hmark) hquote hclosed hcs hds

/-- In a text without quotes before predicates, the search finds nothing. -/
theorem search_head_append (h : SearchedApart p q name map) {head predicates : List Char}
    (hhead : ∀ c ∈ head, isQuote c = false)
    (hpredicates : predicates = [] ∨ ∃ more, predicates = '[' :: more)
    (hclear : (Cut.ofChars (head ++ predicates)).Holds ('@' ∉ ·)) :
    search name map (head ++ predicates) = head ++ search name map predicates := by
  have hcopied : ∀ cs, (∀ c ∈ cs, isQuote c = false) → search name map cs = cs := fun _ hcs =>
    substituteChars_of_plain hcs _
  rcases hpredicates with rfl | ⟨more, rfl⟩
  · rw [List.append_nil, hcopied [] (by simp), List.append_nil, hcopied head hhead]
  · -- The bracket keeps the two texts apart, even if the first one is empty.
    rw [Cut.ofChars_append hhead, Cut.ofChars_cons rfl, Cut.holds_prepend_iff,
      Cut.holds_prepend_iff] at hclear
    have hbracket : ∀ cs, (∀ c ∈ cs, isQuote c = false) →
        search name map (cs ++ '[' :: more) = cs ++ '[' :: search name map more := by
      intro cs hcs
      have hplain := Cut.ofChars_of_plain hcs
      have hboth : search name map (cs ++ '[' :: more) =
          search name map cs ++ '[' :: search name map more := by
        apply h.search_append (.inr rfl) ?_ ?_ hclear
        · rw [hplain]; rfl
        · rw [hplain]; exact List.not_mem_nil
      rw [hboth, hcopied cs hcs]
    have hfirst := hbracket [] (by simp)
    rw [List.nil_append, List.nil_append] at hfirst
    rw [hbracket head hhead, hfirst]

/-- Of the beginning of the second path, only its predicates are searched. -/
theorem search_first (h : SearchedApart p q name map) :
    (Cut.ofChars (firstText q)).Holds ('@' ∉ ·) ∧
      search name map (firstText q) =
        (NodeTest.ofStep (firstText q)).head ++
          search name map (NodeTest.ofStep (firstText q)).predicates := by
  have hclear : (Cut.ofChars (firstText q)).Holds ('@' ∉ ·) := by
    have hright := h.right
    rw [← firstText_append_afterFirst q, atOutside_append_iff] at hright
    apply Cut.clear_of_atOutside (Cut.sound_ofChars _) (show Scope.outermost.quote = none from rfl)
    rw [Cut.text_ofChars]
    exact hright.1
  have hwhole := NodeTest.ofStep_append (firstText q)
  have hpredicates : (NodeTest.ofStep (firstText q)).predicates = [] ∨
      ∃ more, (NodeTest.ofStep (firstText q)).predicates = '[' :: more :=
    (cutPredicates_cases .outermost (firstText q)).imp_right And.left
  refine ⟨hclear, ?_⟩
  have hsearch := h.search_head_append h.test hpredicates (hwhole.symm ▸ hclear)
  rwa [hwhole] at hsearch

/-- The predicates of the first path and the beginning of the second one are searched on their
own. -/
theorem search_bar (h : SearchedApart p q name map) {last : Step}
    (hmem : last ∈ split p) (hlast : Balanced last.text) :
    search name map ((NodeTest.ofStep last.text).predicates ++ '|' :: firstText q) =
      search name map (NodeTest.ofStep last.text).predicates ++ '|' ::
        ((NodeTest.ofStep (firstText q)).head ++
          search name map (NodeTest.ofStep (firstText q)).predicates) := by
  have hclosed : last.cut.Closed := by
    rcases Step.predicates_cases last.text with hnil | hscope
    · rw [Step.cut, hnil, Cut.ofChars]
      rfl
    · refine Cut.closed_of_afterAll last.sound_cut hscope ?_
      rw [← Scope.afterAll_append, last.head_append_text_cut, hlast]
      rfl
  have hclear : last.cut.Holds ('@' ∉ ·) := clear_cut (atOutside_of_mem_split h.left last hmem)
  have hbar : search name map ((NodeTest.ofStep last.text).predicates ++ '|' :: firstText q) =
      search name map (NodeTest.ofStep last.text).predicates ++ '|' ::
        search name map (firstText q) :=
    h.search_append (.inl rfl) hclosed hclear h.search_first.1
  rw [hbar, h.search_first.2]

end SearchedApart

/-- Restoring the union of two paths is restoring each of them. -/
def Distributes (r : Restorer) (p q : String) (tag : Option String) (name : String)
    (map : OrderedMap String String) : Prop :=
  (r.restore (p ++ "|" ++ q) tag name map).1 =
    (r.restore p tag name map).1 ++ "|" ++ (r.restore q tag name map).1

theorem toList_union (u v : String) : (u ++ "|" ++ v).toList = u.toList ++ '|' :: v.toList := by
  simp

theorem Reachable.distributes_iff {r : Restorer} (h : r.Reachable) (p q : String)
    (tag : Option String) (name : String) (map : OrderedMap String String) :
    r.Distributes p q tag name map ↔
      let restored := restoreChars (AttributeMatcher.ofAttribute name) tag
        (AttributeMatcher.lookup map)
      restored (p.toList ++ '|' :: q.toList) = restored p.toList ++ '|' :: restored q.toList := by
  rw [Distributes, ← String.toList_inj, toList_union, h.restore_toList, h.restore_toList,
    h.restore_toList, toList_union]

/-- A union is restored as its two paths are if the second path has no quotes up to its first
slash; so it is if it begins with one. In any case the two differ at the step at the bar only. If the
searches see the predicates on the two sides of the bar on their own, the node test of this step
decides: it has to concern the tag if that of the second path does, unless the search finds nothing
in the predicates of the second path. -/
theorem restore_union {r : Restorer} (hr : r.Reachable) {p : String} (hne : p ≠ "")
    (hp : Balanced p.toList) (q : String) (tag : Option String) (name : String)
    (map : OrderedMap String String) :
    let restored := restoreStep (AttributeMatcher.ofAttribute name) tag (AttributeMatcher.lookup map)
    let first := firstText q.toList
    let test := NodeTest.ofStep first
    ∃ before last, split p.toList = before ++ [last] ∧
      split (p ++ "|" ++ q).toList = before ++ last.joined first :: split (afterFirst q.toList) ∧
      (r.Distributes p q tag name map ↔
        restored (last.joined first) = restored last ++ '|' :: restored ⟨[], first⟩) ∧
      ((∀ c ∈ first, isQuote c = false) → r.Distributes p q tag name map) ∧
      ((NodeTest.ofStep last.text).predicates = [] ∨ SearchedApart p.toList q.toList name map →
        (r.Distributes p q tag name map ↔
          (NodeTest.ofStep (last.joined first).text).concerns tag = test.concerns tag ∨
            search name map test.predicates = test.predicates)) := by
  intro restored first test
  have hchars : p.toList ≠ [] := fun hnil => hne (String.toList_eq_nil_iff.mp hnil)
  obtain ⟨before, last, hsplit, hlast, hmore⟩ := exists_last hchars hp
  have hunion : split (p.toList ++ '|' :: q.toList) =
      before ++ last.joined first :: split (afterFirst q.toList) :=
    hmore ('|' :: q.toList) (by simp)
  have hstep : r.Distributes p q tag name map ↔
      restored (last.joined first) = restored last ++ '|' :: restored ⟨[], first⟩ :=
    (hr.distributes_iff p q tag name map).trans (restoreChars_union_iff hsplit hunion)
  refine ⟨before, last, hsplit, by rw [toList_union]; exact hunion, hstep, fun hplain => ?_,
    fun happart => ?_⟩
  · obtain ⟨hsearch, hcopied⟩ := substituteChars_append_unquoted
      (fun _ => closesShort_of_mem_shapes) hplain (NodeTest.ofStep last.text).predicates
    exact hstep.mpr ((restoreStep_joined_eq_iff hlast first (.inr hsearch)).mpr (.inr hcopied))
  · refine hstep.trans (restoreStep_joined_eq_iff hlast first (happart.imp_right fun h => ?_))
    exact h.search_bar (by simp [hsplit]) hlast

/-- Both paths have predicates at the bar, and every step is concerned. -/
theorem restore_union_of_predicates :
    let p := "//div[@class='c1']"
    let q := "p[contains(@class, \"c2\")]/b"
    let map := OrderedMap.ofList [("c1", "alpha"), ("c2", "beta")]
    standard.Reachable ∧ p ≠ "" ∧ Balanced p.toList ∧ SearchedApart p.toList q.toList "class" map ∧
      standard.Distributes p q none "class" map ∧
      (standard.restore (p ++ "|" ++ q) none "class" map).1 =
        "//div[@class='alpha']|p[contains(@class, \"beta\")]/b" := by
  intro p q map
  have hreachable : standard.Reachable := ⟨standard, [], ⟨16, rfl⟩, rfl⟩
  have hne : p ≠ "" := by decide
  have hp : Balanced p.toList := by decide
  have hvalues : (map.entries.all fun entry =>
      entry.2.toList.all fun c => !isQuote c && c != '@') = true := by decide
  have hname : ("class".toList.all fun c => !isQuote c && c != ')' && c != '|' && c != '[') = true :=
    rfl
  have happart : SearchedApart p.toList q.toList "class" map :=
    { name := by simpa [and_assoc] using hname
      values := by simpa using hvalues
      left := by decide
      right := by decide
      test := plain_of_all (by decide) }
  obtain ⟨before, last, -, -, -, -, hplain⟩ := restore_union hreachable hne hp q none "class" map
  have hdistributes : standard.Distributes p q none "class" map :=
    (hplain (.inr happart)).mpr (.inl rfl)
  exact ⟨hreachable, hne, hp, happart, hdistributes, by decide +kernel⟩

/-- Neither of two names is the node test of a union of two relative paths. -/
theorem union_of_relative_paths :
    let map := OrderedMap.ofList [("James", "card")]
    Balanced "a".toList ∧ Balanced "b[@class='James']".toList ∧
      (standard.restore "b[@class='James']" (some "b") "class" map).1 = "b[@class='card']" ∧
      (standard.restore "a|b[@class='James']" (some "b") "class" map).1 = "a|b[@class='James']" ∧
      ¬ standard.Distributes "a" "b[@class='James']" (some "b") "class" map := by
  unfold Distributes
  decide +kernel

end Restorer

end TreeNotation.XPath
