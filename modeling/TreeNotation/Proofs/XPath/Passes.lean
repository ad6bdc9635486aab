import Mathlib.Data.List.Pairwise
import TreeNotation.Proofs.XPath.Restorers
import TreeNotation.Proofs.XPath.Unknown

/-!
# Passes over a Path

A path is restored in passes, one for each attribute, and every pass reads what the last one has
left, originals and all. If these look like nothing that a pass searches for, the passes together
are one change of the literals, whatever their order is.

- **Passes**: `Pass` with `Pass.run`, and `Restorer.restoreAll` for several; a restorer runs them as
  if it had never run one before (`Restorer.Faithful.restoreAll_toList`);
- **Literals**: of two passes on different attributes one leaves a literal alone
  (`Pass.Excludes.change_cases`), so their order does not matter to it (`changeAll_perm`);
- **Calm steps**: `Calm`, a step in which no pass takes a quote for one that begins a literal; each
  pass leaves it calm for the others (`Calm.update`);
- **Runs**: `foldl_run`, passes are one change of all literals, and so `foldl_run_perm`.
-/

namespace TreeNotation.XPath

/-! ## Section 1: Passes -/

/-- What is put back into a path: the values of a map, into the predicates on one attribute, on the
steps for one element or on all of them. -/
structure Pass where
  tag : Option String
  name : String
  map : OrderedMap String String

namespace Pass

/-- The shapes of predicate that a pass searches for. -/
def shapes (pass : Pass) : List Shape := (AttributeMatcher.ofAttribute pass.name).shapes

/-- Whether a pass searches the predicates of a step. -/
def concerns (pass : Pass) (step : Step) : Bool := (NodeTest.ofStep step.text).concerns pass.tag

/-- A path after a pass. -/
def run (pass : Pass) (path : List Char) : List Char :=
  restoreChars (AttributeMatcher.ofAttribute pass.name) pass.tag (AttributeMatcher.lookup pass.map)
    path

/-- What a pass makes of the content of a literal in the predicates of a step. -/
def change (pass : Pass) (step : Step) (before after content : List Char) : List Char :=
  if pass.concerns step then
    putAny pass.shapes (AttributeMatcher.lookup pass.map) before after content
  else content

variable {pass other : Pass} {step : Step}

theorem change_of_concerns (h : pass.concerns step = true) :
    pass.change step = putAny pass.shapes (AttributeMatcher.lookup pass.map) := by
  funext before after content
  rw [change, if_pos h]

theorem change_of_not_concerns (h : ¬ pass.concerns step = true) :
    pass.change step = fun _ _ content => content := by
  funext before after content
  rw [change, if_neg h]

theorem update_change (pass : Pass) (step : Step) :
    step.update (pass.change step) =
      changeStep pass.shapes pass.tag (AttributeMatcher.lookup pass.map) step := by
  rw [changeStep_eq]
  split
  case isTrue h => rw [change_of_concerns h]
  case isFalse h => rw [change_of_not_concerns h, Step.update_of_forall fun _ _ _ => rfl]

/-- A pass concerns a step whose literals have been changed if it has concerned it before. -/
theorem concerns_update (pass : Pass) (change : List Char → List Char → List Char → List Char)
    (step : Step) : pass.concerns (step.update change) = pass.concerns step := by
  rw [concerns, Step.ofStep_update]
  rfl

theorem change_update (pass : Pass) (change : List Char → List Char → List Char → List Char)
    (step : Step) : pass.change (step.update change) = pass.change step := by
  funext before after content
  rw [Pass.change, Pass.change, concerns_update]

/-- No literal stands in a shape of the one pass and in a shape of the other one. -/
def Excludes (pass other : Pass) : Prop :=
  ∀ shape ∈ pass.shapes, ∀ shape' ∈ other.shapes, shape.Excludes shape'

theorem Excludes.symm (h : pass.Excludes other) : other.Excludes pass :=
  fun shape hshape shape' hshape' => (h shape' hshape' shape hshape).symm

instance : Std.Symm Excludes := ⟨fun _ _ => Excludes.symm⟩

/-- The attribute has a name without quotes and closing parentheses. -/
def Regular (pass : Pass) : Prop :=
  (∀ c ∈ pass.name.toList, isQuote c = false) ∧ ')' ∉ pass.name.toList

theorem Regular.shapes (h : pass.Regular) : ∀ shape ∈ pass.shapes, shape.Regular :=
  fun _ => regular_of_unquoted h.1

theorem Regular.pairwise (h : pass.Regular) : pass.shapes.Pairwise Shape.Excludes :=
  pairwise_excludes_of_not_mem h.2

theorem excludes_of_apart_names (hpass : pass.Regular) (hother : other.Regular)
    (h : Apart (trace ('@' :: pass.name.toList)) (trace ('@' :: other.name.toList))) :
    pass.Excludes other :=
  fun _ hshape _ hshape' => XPath.excludes_of_apart_names hpass.2 hother.2 h hshape hshape'

theorem run_of_isEmpty (h : pass.map.isEmpty = true) (path : List Char) :
    pass.run path = path := by
  have hunknown : Unknown (AttributeMatcher.lookup pass.map) path := fun _ content _ _ =>
    Restorer.lookup_of_isEmpty h content
  exact hunknown.restoreChars (AttributeMatcher.ofAttribute pass.name) pass.tag

end Pass

namespace Restorer

/-- Runs passes over a path, one after the other. -/
def restoreAll (r : Restorer) (path : String) (passes : List Pass) : String × Restorer :=
  passes.foldl (fun (path, r) pass => r.restore path pass.tag pass.name pass.map) (path, r)

theorem Faithful.restoreAll_toList {r : Restorer} (h : r.Faithful) (path : String)
    (passes : List Pass) :
    (r.restoreAll path passes).1.toList =
      passes.foldl (fun path pass => pass.run path) path.toList := by
  -- The induction is on the passes; what the restorer keeps from one is as good as new.
  induction passes generalizing r path with
  | nil => rfl
  | cons pass passes ih =>
    have hfirst : (r.restore path pass.tag pass.name pass.map).1.toList = pass.run path.toList := by
      cases hempty : pass.map.isEmpty with
      | true => rw [Pass.run_of_isEmpty hempty, restore, if_pos hempty]
      | false => exact h.restore_toList path pass.tag pass.name hempty
    rw [List.foldl_cons, ← hfirst]
    exact ih (h.after_restore path pass.tag pass.name pass.map) _

end Restorer

/-! ## Section 2: Literals -/

variable {passes passes' : List Pass} {step : Step}

/-- What passes, one after the other, make of the content of a literal in the predicates of a
step. -/
def changeAll (passes : List Pass) (step : Step) (before after content : List Char) : List Char :=
  passes.foldl (fun content pass => pass.change step before after content) content

theorem changeAll_update (passes : List Pass)
    (change : List Char → List Char → List Char → List Char) (step : Step) :
    changeAll passes (step.update change) = changeAll passes step := by
  funext before after content
  simp only [changeAll, Pass.change_update]

/-- Of two passes that exclude each other one leaves a literal alone, whatever it holds. -/
theorem Pass.Excludes.change_cases {pass other : Pass} (h : pass.Excludes other) (step : Step)
    (before after : List Char) :
    (∀ content, pass.change step before after content = content) ∨
      ∀ content, other.change step before after content = content := by
  cases hframes : pass.shapes.any fun shape => shape.frames before after with
  | false =>
    left
    intro content
    simp [change, putAny, hframes]
  | true =>
    -- The literal stands in a shape of the first pass, so in none of the second.
    obtain ⟨shape, hshape, hframed⟩ := List.any_eq_true.mp hframes
    have hother : (other.shapes.any fun shape' => shape'.frames before after) = false := by
      rw [List.any_eq_false]
      intro shape' hshape' hframed'
      exact h shape hshape shape' hshape' before after ⟨hframed, hframed'⟩
    right
    intro content
    simp [change, putAny, hother]

theorem changeAll_perm (hperm : passes.Perm passes') (h : passes.Pairwise Pass.Excludes)
    (step : Step) (before after content : List Char) :
    changeAll passes step before after content = changeAll passes' step before after content := by
  have hcomm : ∀ pass ∈ passes, ∀ other ∈ passes, ∀ content,
      other.change step before after (pass.change step before after content) =
        pass.change step before after (other.change step before after content) := by
    intro pass hpass other hother content
    by_cases heq : pass = other
    · rw [heq]
    · -- One of two different passes changes nothing here.
      have hexclude := h.forall hpass hother heq
      rcases hexclude.change_cases step before after with hsame | hsame
      · rw [hsame, hsame]
      · rw [hsame, hsame]
  exact hperm.foldl_eq' hcomm content

/-! ## Section 3: Calm steps -/

/-- No quote of a text comes right after what opens a shape that is searched for in the step. -/
def QuietFor (passes : List Pass) (step : Step) (cs : List Char) : Prop :=
  ∀ pass ∈ passes, pass.concerns step = true → Quiet pass.shapes cs

theorem quietFor_update (passes : List Pass)
    (change : List Char → List Char → List Char → List Char) (step : Step) :
    QuietFor passes (step.update change) = QuietFor passes step := by
  funext cs
  simp only [QuietFor, Pass.concerns_update]

/-- A step that passes read as it is meant: in none of its literals, nor at its end, a quote comes
right after what opens a shape, and none would if one of the passes were made. -/
structure Calm (passes : List Pass) (step : Step) : Prop where
  quiet : step.cut.Holds (QuietFor passes step)
  /-- What a pass puts into a literal is quiet there and does not hold the quote of the literal. -/
  admits : ∀ pass ∈ passes, step.cut.Admits (QuietFor passes step) (pass.change step)

theorem Calm.perm (hperm : passes.Perm passes') (h : Calm passes step) : Calm passes' step := by
  have hquiet : ∀ cs, QuietFor passes step cs → QuietFor passes' step cs :=
    fun cs hcs pass hpass => hcs pass (hperm.mem_iff.mpr hpass)
  exact ⟨h.quiet.imp hquiet, fun pass hpass => (h.admits pass (hperm.mem_iff.mpr hpass)).imp hquiet⟩

/-- On a calm step a pass does no more than to change literals. -/
theorem Calm.restoreStep_eq (h : Calm passes step) {pass : Pass} (hpass : pass ∈ passes)
    (hregular : pass.Regular) :
    restoreStep (AttributeMatcher.ofAttribute pass.name) pass.tag
        (AttributeMatcher.lookup pass.map) step =
      (step.update (pass.change step)).toChars := by
  rw [pass.update_change]
  apply restoreStep_eq_of_admits hregular.shapes hregular.pairwise
  intro hconcerned
  have hquiet : ∀ cs, QuietFor passes step cs → Quiet pass.shapes cs :=
    fun cs hcs => hcs pass hpass hconcerned
  have hadmits := h.admits pass hpass
  rw [Pass.change_of_concerns hconcerned] at hadmits
  exact ⟨h.quiet.imp hquiet, hadmits.imp hquiet⟩

theorem Calm.sound_update (h : Calm passes step) {pass : Pass} (hpass : pass ∈ passes) :
    (step.cut.update (pass.change step)).Sound :=
  (h.admits pass hpass).sound step.sound_cut

/-- One pass leaves a calm step calm for the other ones. -/
theorem Calm.update {pass : Pass} (hexclude : ∀ other ∈ passes, pass.Excludes other)
    (h : Calm (pass :: passes) step) : Calm passes (step.update (pass.change step)) := by
  have hquiet : ∀ cs, QuietFor (pass :: passes) step cs → QuietFor passes step cs :=
    fun cs hcs other hother => hcs other (List.mem_cons_of_mem pass hother)
  have hpass := h.admits pass List.mem_cons_self
  refine ⟨?_, fun other hother => ?_⟩
  · rw [quietFor_update, Step.cut_update (h.sound_update List.mem_cons_self)]
    exact (hpass.holds h.quiet).imp hquiet
  · -- What both passes make of a literal, one of them makes of it.
    rw [quietFor_update, Pass.change_update, Step.cut_update (h.sound_update List.mem_cons_self),
      Cut.admits_update_iff]
    refine (Cut.Admits.of_cases [pass.change step, other.change step] ?_ ?_).imp hquiet
    · simpa using ⟨hpass, h.admits other (List.mem_cons_of_mem pass hother)⟩
    · intro before after content
      rcases (hexclude other hother).change_cases step before after with hsame | hsame
      · exact ⟨other.change step, by simp, by rw [hsame]⟩
      · exact ⟨pass.change step, by simp, by rw [hsame]⟩

/-- A path with no at sign in a literal is calm under passes that put in none and no quotes. -/
theorem calm_of_atOutside (hregular : ∀ pass ∈ passes, pass.Regular)
    (hplain : ∀ pass ∈ passes, PlainValues (AttributeMatcher.lookup pass.map)) {path : List Char}
    (h : AtOutside .outermost path) : ∀ step ∈ split path, Calm passes step := by
  intro step hstep
  have hclear : step.cut.Holds ('@' ∉ ·) := clear_cut (atOutside_of_mem_split h step hstep)
  -- Without at signs no shape is opened.
  have hquiet : ∀ cs, '@' ∉ cs → QuietFor passes step cs := fun cs hcs pass hpass _ shape hshape =>
    Shape.not_opens_of_not_mem ((hregular pass hpass).shapes shape hshape) hcs
  refine ⟨hclear.imp hquiet, fun pass hpass => ?_⟩
  by_cases hconcerned : pass.concerns step = true
  · rw [Pass.change_of_concerns hconcerned]
    exact ((hplain pass hpass).admits step.sound_cut hclear).imp hquiet
  · rw [Pass.change_of_not_concerns hconcerned]
    exact Cut.admits_id step.sound_cut (hclear.imp hquiet)

/-! ## Section 4: Runs -/

/-- A path with the literals in the predicates of its steps changed. -/
def updateSteps (change : Step → List Char → List Char → List Char → List Char)
    (path : List Char) : List Char :=
  (split path).flatMap fun step => (step.update (change step)).toChars

theorem split_updateSteps {change : Step → List Char → List Char → List Char → List Char}
    {path : List Char} (h : ∀ step ∈ split path, (step.cut.update (change step)).Sound) :
    split (updateSteps change path) = (split path).map fun step => step.update (change step) :=
  split_flatMap (fun step => step.update (change step)) (fun _ => rfl) fun step hstep =>
    Step.readsAs_update (h step hstep)

/-- The run of a pass over a path with calm steps changes their literals. -/
theorem Pass.run_eq {pass : Pass} (hpass : pass ∈ passes) (hregular : pass.Regular)
    {path : List Char} (h : ∀ step ∈ split path, Calm passes step) :
    pass.run path = updateSteps pass.change path :=
  List.flatMap_congr fun step hstep => (h step hstep).restoreStep_eq hpass hregular

/-- Passes over a path with calm steps, one after the other, change its literals at once. -/
theorem foldl_run (hregular : ∀ pass ∈ passes, pass.Regular)
    (hexclude : passes.Pairwise Pass.Excludes) {path : List Char}
    (h : ∀ step ∈ split path, Calm passes step) :
    passes.foldl (fun path pass => pass.run path) path = updateSteps (changeAll passes) path := by
  -- The induction is on the passes; each leaves a path whose steps are calm for the next ones.
  induction passes generalizing path with
  | nil =>
    have hsame : ∀ step : Step, step.update (changeAll [] step) = step :=
      Step.update_of_forall fun _ _ _ => rfl
    simp only [List.foldl_nil, updateSteps, hsame, flatten_split]
  | cons pass passes ih =>
    obtain ⟨hfirst, hothers⟩ := List.pairwise_cons.mp hexclude
    have hsound : ∀ step ∈ split path, (step.cut.update (pass.change step)).Sound :=
      fun step hstep => (h step hstep).sound_update List.mem_cons_self
    have hsplit : split (updateSteps pass.change path) =
        (split path).map fun step => step.update (pass.change step) := split_updateSteps hsound
    have hcalm : ∀ step ∈ split (updateSteps pass.change path), Calm passes step := by
      rw [hsplit, List.forall_mem_map]
      exact fun step hstep => (h step hstep).update hfirst
    rw [List.foldl_cons,
      Pass.run_eq List.mem_cons_self (hregular pass List.mem_cons_self) h,
      ih (fun other hother => hregular other (List.mem_cons_of_mem pass hother)) hothers hcalm,
      updateSteps, hsplit, List.flatMap_map]
    refine List.flatMap_congr fun step hstep => ?_
    rw [changeAll_update, Step.update_update (hsound step hstep)]
    rfl

/-- The order of passes over a path with calm steps does not matter. -/
theorem foldl_run_perm (hperm : passes.Perm passes') (hregular : ∀ pass ∈ passes, pass.Regular)
    (hexclude : passes.Pairwise Pass.Excludes) {path : List Char}
    (h : ∀ step ∈ split path, Calm passes step) :
    passes'.foldl (fun path pass => pass.run path) path =
      passes.foldl (fun path pass => pass.run path) path := by
  have hregular' : ∀ pass ∈ passes', pass.Regular :=
    fun pass hpass => hregular pass (hperm.mem_iff.mpr hpass)
  have hchange : changeAll passes' = changeAll passes := by
    funext step before after content
    exact (changeAll_perm hperm hexclude step before after content).symm
  rw [foldl_run hregular hexclude h,
    foldl_run hregular' (hperm.pairwise hexclude Pass.Excludes.symm)
      fun step hstep => (h step hstep).perm hperm, hchange]

end TreeNotation.XPath
