import Mathlib.Tactic.SplitIfs
import TreeNotation.Proofs.XPath.Literals
import TreeNotation.XPath.Step

/-!
# Steps under Changes

What the contents of literals cannot change: where the steps of a path begin and end, and where the
predicates of a step begin.

- **Scopes**: `Scope.afterAll`, `Unbroken`, `AtOutside`; the reader of steps comes out of a literal
  as it went in (`afterAll_literal`), so `Cut.scan_update`;
- **Node tests**: `cutPredicates_append_of_head?`, predicates may be exchanged for others;
- **Paths**: `split_append`, paths one after the other are the steps of all; `split_flatMap`, steps
  may be exchanged for others that read the same.
-/

namespace TreeNotation.XPath

/-! ## Section 1: Scopes -/

namespace Scope

/-- The scope after a text. -/
def afterAll (scope : Scope) (cs : List Char) : Scope := cs.foldl Scope.after scope

theorem afterAll_append (scope : Scope) (cs ds : List Char) :
    scope.afterAll (cs ++ ds) = (scope.afterAll cs).afterAll ds :=
  List.foldl_append

theorem quote_after (scope : Scope) (c : Char) :
    (scope.after c).quote =
      match scope.quote with
      | some quote => if c = quote then none else some quote
      | none => if isQuote c then some c else none := by
  unfold after
  cases hquote : scope.quote with
  | none =>
    dsimp only
    split_ifs <;> simp [hquote]
  | some quote =>
    dsimp only
    split_ifs <;> simp [hquote]

theorem quote_afterAll_of_plain {scope : Scope} (hscope : scope.quote = none) {cs : List Char}
    (hcs : ∀ c ∈ cs, isQuote c = false) : (scope.afterAll cs).quote = none := by
  induction cs generalizing scope with
  | nil => exact hscope
  | cons c cs ih =>
    apply ih ?_ fun d hd => hcs d (List.mem_cons_of_mem c hd)
    rw [quote_after, hscope]
    simp [hcs c List.mem_cons_self]

/-- Inside of a literal nothing but its quote changes the scope. -/
theorem after_of_ne {depth : Nat} {quote c : Char} (h : c ≠ quote) :
    after ⟨depth, some quote⟩ c = ⟨depth, some quote⟩ :=
  if_neg h

theorem afterAll_content {depth : Nat} {quote : Char} {content : List Char}
    (h : quote ∉ content) : afterAll ⟨depth, some quote⟩ content = ⟨depth, some quote⟩ := by
  -- The induction is on the content, none of whose characters closes the literal.
  induction content with
  | nil => rfl
  | cons c content ih =>
    rw [List.mem_cons, not_or] at h
    rw [afterAll, List.foldl_cons, after_of_ne (Ne.symm h.1)]
    exact ih h.2

theorem after_quote {scope : Scope} (hscope : scope.quote = none) {quote : Char}
    (hquote : isQuote quote = true) : scope.after quote = ⟨scope.depth, some quote⟩ := by
  unfold after
  rw [hscope]
  simp [hquote]

theorem afterAll_literal {scope : Scope} (hscope : scope.quote = none) {quote : Char}
    (hquote : isQuote quote = true) {content : List Char} (hcontent : quote ∉ content) :
    scope.afterAll (quote :: content ++ [quote]) = scope := by
  obtain ⟨depth, _⟩ := scope
  cases hscope
  rw [afterAll_append]
  show ((after ⟨depth, none⟩ quote).afterAll content).afterAll [quote] = _
  rw [after_quote rfl hquote, afterAll_content hcontent]
  exact if_pos rfl

theorem afterAll_slashes {separator : List Char} (h : ∀ c ∈ separator, c = '/') (scope : Scope)
    (hscope : scope.quote = none) : scope.afterAll separator = scope := by
  induction separator with
  | nil => rfl
  | cons c separator ih =>
    obtain ⟨rfl, hrest⟩ := List.forall_mem_cons.mp h
    have hafter : scope.after '/' = scope := by
      simp [after, hscope, isQuote]
    rw [afterAll, List.foldl_cons, hafter]
    exact ih hrest

end Scope

/-- No slash of a text that begins in `scope` ends a step. -/
def Unbroken (scope : Scope) : List Char → Prop
  | [] => True
  | c :: cs => ¬ (scope = .outermost ∧ c = '/') ∧ Unbroken (scope.after c) cs

theorem unbroken_append_iff {scope : Scope} {cs ds : List Char} :
    Unbroken scope (cs ++ ds) ↔ Unbroken scope cs ∧ Unbroken (scope.afterAll cs) ds := by
  induction cs generalizing scope with
  | nil => simp [Unbroken, Scope.afterAll]
  | cons c cs ih =>
    simp only [List.cons_append, Unbroken, ih, and_assoc]
    rfl

theorem unbroken_content {depth : Nat} {quote : Char} (content : List Char) (h : quote ∉ content) :
    Unbroken ⟨depth, some quote⟩ (content ++ [quote]) := by
  induction content with
  | nil => exact ⟨by simp [Scope.outermost], trivial⟩
  | cons c content ih =>
    rw [List.mem_cons, not_or] at h
    refine ⟨by simp [Scope.outermost], ?_⟩
    rw [Scope.after_of_ne (Ne.symm h.1)]
    exact ih h.2

theorem unbroken_literal {scope : Scope} (hscope : scope.quote = none) {quote : Char}
    (hquote : isQuote quote = true) {content : List Char} (hcontent : quote ∉ content) :
    Unbroken scope (quote :: content ++ [quote]) := by
  refine ⟨?_, ?_⟩
  · -- A quote is no slash.
    intro h
    obtain ⟨-, rfl⟩ := h
    cases hquote
  · rw [Scope.after_quote hscope hquote]
    exact unbroken_content content hcontent

/-- A text without quotes, brackets and slashes, which mean something to the reader of steps. -/
def Inert (cs : List Char) : Prop := ∀ c ∈ cs, isQuote c = false ∧ c ≠ '/' ∧ c ≠ '[' ∧ c ≠ ']'

instance decidableInert (cs : List Char) : Decidable (Inert cs) :=
  -- By name: to look at the characters of the text, not at all that there are.
  List.decidableBAll _ cs

namespace Inert

variable {cs : List Char}

theorem isQuote_eq (h : Inert cs) : ∀ c ∈ cs, isQuote c = false := fun c hc => (h c hc).1

theorem afterAll_eq (h : Inert cs) {scope : Scope} (hscope : scope.quote = none) :
    scope.afterAll cs = scope := by
  induction cs with
  | nil => rfl
  | cons c cs ih =>
    obtain ⟨⟨hquote, -, hopen, hclose⟩, hrest⟩ := List.forall_mem_cons.mp h
    have hafter : scope.after c = scope := by
      simp [Scope.after, hscope, hquote, hopen, hclose]
    rw [Scope.afterAll, List.foldl_cons, hafter]
    exact ih hrest

theorem unbroken (h : Inert cs) (scope : Scope) : Unbroken scope cs := by
  induction cs generalizing scope with
  | nil => trivial
  | cons c cs ih =>
    obtain ⟨⟨-, hslash, -, -⟩, hrest⟩ := List.forall_mem_cons.mp h
    exact ⟨fun hbreak => hslash hbreak.2, ih hrest _⟩

end Inert

/-- No at sign of a text that begins in `scope` lies in a string literal, closed or not. -/
def AtOutside (scope : Scope) : List Char → Prop
  | [] => True
  | c :: cs => (c = '@' → scope.quote = none) ∧ AtOutside (scope.after c) cs

instance decidableAtOutside (scope : Scope) : (cs : List Char) → Decidable (AtOutside scope cs)
  | [] => isTrue trivial
  | c :: cs =>
    have : Decidable (AtOutside (scope.after c) cs) := decidableAtOutside (scope.after c) cs
    inferInstanceAs (Decidable ((c = '@' → scope.quote = none) ∧ AtOutside (scope.after c) cs))

theorem atOutside_append_iff {scope : Scope} {cs ds : List Char} :
    AtOutside scope (cs ++ ds) ↔ AtOutside scope cs ∧ AtOutside (scope.afterAll cs) ds := by
  induction cs generalizing scope with
  | nil => simp [AtOutside, Scope.afterAll]
  | cons c cs ih =>
    simp only [List.cons_append, AtOutside, ih, and_assoc]
    rfl

theorem not_mem_of_atOutside {depth : Nat} {quote : Char} {content : List Char}
    (hcontent : quote ∉ content) (h : AtOutside ⟨depth, some quote⟩ content) : '@' ∉ content := by
  induction content with
  | nil => exact List.not_mem_nil
  | cons c content ih =>
    rw [List.mem_cons, not_or] at hcontent
    obtain ⟨hc, hrest⟩ := h
    rw [Scope.after_of_ne (Ne.symm hcontent.1)] at hrest
    refine List.not_mem_cons_of_ne_of_not_mem ?_ (ih hcontent.2 hrest)
    intro heq
    cases hc heq.symm

/-! ## Section 2: Cut texts -/

namespace Cut

variable {change : List Char → List Char → List Char → List Char}

theorem text_literal (stretch : List Char) (quote : Char) (content : List Char) (rest : Cut) :
    (literal stretch quote content rest).text =
      stretch ++ ((quote :: content ++ [quote]) ++ rest.text) := by
  simp [text]

/-- Changing the contents of literals that stay literals changes neither the scope after a text nor
whether a slash in it ends a step. -/
theorem scan_update {k : Cut} (hk : k.Sound) (hk' : (k.update change).Sound) {scope : Scope}
    (hscope : scope.quote = none) :
    scope.afterAll (k.update change).text = scope.afterAll k.text ∧
      (Unbroken scope (k.update change).text ↔ Unbroken scope k.text) := by
  -- The induction is on the cut. Whatever a literal holds, the scope is the same before and
  -- after.
  induction k generalizing scope with
  | last stretch unclosed => exact ⟨rfl, Iff.rfl⟩
  | literal stretch quote content rest ih =>
    obtain ⟨hstretch, hquote, hcontent, hrest⟩ := hk
    obtain ⟨-, -, hcontent', hrest'⟩ := hk'
    have hmiddle := Scope.quote_afterAll_of_plain hscope hstretch
    obtain ⟨hscan, hbreak⟩ := ih hrest hrest' hmiddle
    rw [update, text_literal, text_literal]
    simp only [Scope.afterAll_append, unbroken_append_iff,
      Scope.afterAll_literal hmiddle hquote hcontent,
      Scope.afterAll_literal hmiddle hquote hcontent', hscan, hbreak,
      unbroken_literal hmiddle hquote hcontent, unbroken_literal hmiddle hquote hcontent']
    simp

theorem clear_of_atOutside {k : Cut} (hk : k.Sound) {scope : Scope} (hscope : scope.quote = none)
    (h : AtOutside scope k.text) : k.Holds ('@' ∉ ·) := by
  -- The induction is on the cut; behind each literal the scope is outside of literals again.
  induction k generalizing scope with
  | last stretch unclosed =>
    obtain ⟨hstretch, rfl | ⟨quote, body, rfl, hquote, hbody⟩⟩ := hk
    · exact List.not_mem_nil
    · -- An open quote begins a literal that reaches to the end.
      have hmiddle := Scope.quote_afterAll_of_plain hscope hstretch
      have hopen := (atOutside_append_iff.mp h).2.2
      rw [Scope.after_quote hmiddle hquote] at hopen
      refine List.not_mem_cons_of_ne_of_not_mem ?_ (not_mem_of_atOutside hbody hopen)
      rintro rfl
      cases hquote
  | literal stretch quote content rest ih =>
    obtain ⟨hstretch, hquote, hcontent, hrest⟩ := hk
    have hmiddle := Scope.quote_afterAll_of_plain hscope hstretch
    rw [text_literal, atOutside_append_iff, atOutside_append_iff,
      Scope.afterAll_literal hmiddle hquote hcontent] at h
    obtain ⟨-, ⟨-, hopen⟩, hlater⟩ := h
    rw [Scope.after_quote hmiddle hquote] at hopen
    have hinner := not_mem_of_atOutside hcontent (atOutside_append_iff.mp hopen).1
    -- The quotes of a literal are no at signs.
    have hne : '@' ≠ quote := by
      rintro rfl
      cases hquote
    refine ⟨?_, ih hrest hmiddle hlater⟩
    simp only [List.mem_append, List.mem_cons, List.not_mem_nil, hne, hinner, or_false,
      not_false_eq_true]

end Cut

/-! ## Section 3: Node tests -/

/-- Predicates begin with a bracket outside of literals, if there are any. -/
theorem cutPredicates_cases (scope : Scope) (cs : List Char) :
    (cutPredicates scope.quote cs).2 = [] ∨
      (∃ more, (cutPredicates scope.quote cs).2 = '[' :: more) ∧
        (scope.afterAll (cutPredicates scope.quote cs).1).quote = none := by
  -- The induction is on the text; node tests and steps tell literals in the same way.
  induction cs generalizing scope with
  | nil => exact Or.inl rfl
  | cons c cs ih =>
    have hstep := ih (scope.after c)
    rw [Scope.quote_after] at hstep
    unfold cutPredicates
    split
    case isTrue h =>
      obtain ⟨hquote, rfl⟩ := h
      exact Or.inr ⟨⟨cs, rfl⟩, hquote⟩
    case isFalse => exact hstep

/-- A node test is read in the same way before other predicates. -/
theorem cutPredicates_append_of_head? (quote : Option Char) (cs : List Char) {more : List Char}
    (h : more.head? = (cutPredicates quote cs).2.head?) :
    cutPredicates quote ((cutPredicates quote cs).1 ++ more) =
      ((cutPredicates quote cs).1, more) := by
  induction cs generalizing quote with
  | nil =>
    -- No predicates were there, so none are put in.
    have hnil : more = [] := List.head?_eq_none_iff.mp h
    rw [hnil]; rfl
  | cons c cs ih =>
    -- The first bracket outside of literals ends the node test.
    by_cases hstop : quote = none ∧ c = '['
    · simp only [cutPredicates, if_pos hstop, List.head?_cons] at h ⊢
      obtain ⟨tail, rfl⟩ := List.head?_eq_some_iff.mp h
      simp only [List.nil_append, cutPredicates, if_pos hstop]
    · simp only [cutPredicates, if_neg hstop] at h ⊢
      simp only [List.cons_append, cutPredicates, if_neg hstop, ih _ h]

theorem cutPredicates_of_inert {tag more : List Char} (h : Inert tag)
    (hmore : ∀ c ∈ more.head?, c = '[') : cutPredicates none (tag ++ more) = (tag, more) := by
  induction tag with
  | nil =>
    cases more with
    | nil => rfl
    | cons c more =>
      obtain rfl := hmore c rfl
      rfl
  | cons c tag ih =>
    obtain ⟨⟨hquote, -, hopen, -⟩, hrest⟩ := List.forall_mem_cons.mp h
    simp [cutPredicates, hquote, hopen, ih hrest]

/-- A text without quotes and brackets is a node test, with predicates after it or without any. -/
theorem NodeTest.ofStep_of_inert {tag more : List Char} (h : Inert tag)
    (hmore : ∀ c ∈ more.head?, c = '[') :
    ofStep (tag ++ more) = ⟨Text.trimChars ((afterAxis? tag).getD tag), tag, more⟩ := by
  rw [ofStep, cutPredicates_of_inert h hmore]

theorem NodeTest.ofStep_append_of_head? (text : List Char) {more : List Char}
    (h : more.head? = (ofStep text).predicates.head?) :
    ofStep ((ofStep text).head ++ more) = { ofStep text with predicates := more } := by
  have hcut : cutPredicates none ((ofStep text).head ++ more) = ((ofStep text).head, more) :=
    cutPredicates_append_of_head? none text h
  rw [ofStep, hcut]
  rfl

/-! ## Section 4: Paths -/

theorem stepText_append_of_unbroken {scope : Scope} {cs : List Char} (h : Unbroken scope cs)
    (more : List Char) :
    stepText scope (cs ++ more) =
      (cs ++ (stepText (scope.afterAll cs) more).1, (stepText (scope.afterAll cs) more).2) := by
  -- The induction is on the text, whose characters all belong to the step.
  induction cs generalizing scope with
  | nil => rfl
  | cons c cs ih =>
    obtain ⟨hc, hcs⟩ := h
    rw [List.cons_append, stepText, if_neg hc, ih hcs]
    rfl

theorem unbroken_stepText (scope : Scope) (cs : List Char) :
    Unbroken scope (stepText scope cs).1 ∧
      ((stepText scope cs).2 = [] ∨
        (∃ more, (stepText scope cs).2 = '/' :: more) ∧
          scope.afterAll (stepText scope cs).1 = .outermost) := by
  -- The induction follows the cut of the step up to the slash that ends it.
  induction cs generalizing scope with
  | nil => exact ⟨trivial, Or.inl rfl⟩
  | cons c cs ih =>
    unfold stepText
    split
    case isTrue h =>
      obtain ⟨rfl, rfl⟩ := h
      exact ⟨trivial, Or.inr ⟨⟨cs, rfl⟩, rfl⟩⟩
    case isFalse h =>
      obtain ⟨hbreak, hrest⟩ := ih (scope.after c)
      exact ⟨⟨h, hbreak⟩, hrest⟩

/-- What a step and the rest of its path are, if `separator` comes before `text`. -/
structure StepsOff (separator text rest : List Char) : Prop where
  separator_eq : ∀ c ∈ separator, c = '/'
  ne_nil : separator ++ text ≠ []
  head?_ne : text.head? ≠ some '/'
  unbroken : Unbroken .outermost text
  rest_cases : rest = [] ∨ text ≠ [] ∧ (∃ more, rest = '/' :: more) ∧
    Scope.outermost.afterAll text = .outermost

theorem next?_of_ne_nil {path : List Char} (h : path ≠ []) :
    next? path =
      some (⟨path.takeWhile fun c => c = '/',
        (stepText .outermost (path.dropWhile fun c => c = '/')).1⟩,
        (stepText .outermost (path.dropWhile fun c => c = '/')).2) := by
  cases path with
  | nil => exact absurd rfl h
  | cons c cs => rfl

/-- A step without a text is the end of its path. -/
theorem stepText_of_head? {cs : List Char} (h : cs.head? ≠ some '/') :
    (stepText .outermost cs).1.head? = cs.head? := by
  cases cs with
  | nil => rfl
  | cons c cs =>
    have hstop : ¬ (Scope.outermost = .outermost ∧ c = '/') := fun hc => h (by rw [hc.2]; rfl)
    rw [stepText, if_neg hstop]
    rfl

theorem head?_dropWhile_slash (path : List Char) :
    (path.dropWhile fun c => decide (c = '/')).head? ≠ some '/' := by
  intro h
  have hnot := List.head?_dropWhile_not (fun c => decide (c = '/')) path
  rw [h] at hnot
  simp at hnot

theorem stepsOff_of_next? {path rest : List Char} {step : Step}
    (h : next? path = some (step, rest)) : StepsOff step.separator step.text rest := by
  have hne := next?_toChars_ne_nil h
  have hpath : path ≠ [] := by
    rintro rfl
    cases h
  rw [next?_of_ne_nil hpath] at h
  cases h
  -- All slashes in a row go to the separator.
  have hhead := head?_dropWhile_slash path
  have htext := stepText_of_head? hhead
  obtain ⟨hbreak, hrest⟩ := unbroken_stepText .outermost (path.dropWhile fun c => c = '/')
  refine ⟨?_, hne, htext ▸ hhead, hbreak, hrest.imp id fun ⟨hslash, hscope⟩ => ⟨?_, hslash, hscope⟩⟩
  · intro c hc
    simpa using List.all_eq_true.mp List.all_takeWhile c hc
  · -- A slash would be left where a step begins.
    rintro (hnil : (stepText .outermost (path.dropWhile fun c => c = '/')).1 = [])
    obtain ⟨more, hmore⟩ := hslash
    have happend := stepText_append .outermost (path.dropWhile fun c => c = '/')
    rw [hnil, hmore] at happend
    rw [← happend] at hhead
    exact hhead rfl

theorem next?_of_stepsOff {separator text rest : List Char} (h : StepsOff separator text rest) :
    next? (separator ++ text ++ rest) = some (⟨separator, text⟩, rest) := by
  -- The separator ends where the text begins, or with the path if there is no text.
  have hhead : (text ++ rest).head? ≠ some '/' := by
    have hne := h.head?_ne
    rcases h.rest_cases with rfl | ⟨htext, -⟩
    · rwa [List.append_nil]
    · obtain ⟨c, cs, rfl⟩ := List.exists_cons_of_ne_nil htext
      exact hne
  have hread : stepText .outermost (text ++ rest) = (text, rest) := by
    rw [stepText_append_of_unbroken h.unbroken]
    rcases h.rest_cases with rfl | ⟨-, ⟨more, rfl⟩, hscope⟩
    · simp [stepText]
    · rw [hscope, stepText, if_pos ⟨rfl, rfl⟩, List.append_nil]
  have hne : separator ++ text ++ rest ≠ [] := fun hnil =>
    h.ne_nil (List.append_eq_nil_iff.mp hnil).1
  have hslash : ∀ c ∈ separator, decide (c = '/') = true := fun c hc =>
    decide_eq_true (h.separator_eq c hc)
  have hstop : ∀ c ∈ (text ++ rest).head?, decide (c = '/') = false := by
    intro c hc
    apply decide_eq_false
    rintro rfl
    exact hhead hc
  obtain ⟨htake, hdrop⟩ := cut_append hslash hstop
  rw [next?_of_ne_nil hne, List.append_assoc, htake, hdrop, hread]

theorem split_of_next? {path rest : List Char} {step : Step} (h : next? path = some (step, rest)) :
    split path = step :: split rest := by
  rw [split]
  split
  case h_1 hnone =>
    rw [h] at hnone
    cases hnone
  case h_2 step' rest' hsome =>
    rw [h] at hsome
    cases hsome
    rfl

theorem split_nil : split [] = [] := by
  rw [split]; rfl

/-- Two paths one after the other are the steps of both, if the first one leaves no bracket or
literal open, and the second one begins with the slashes between them. -/
theorem split_append {path more : List Char} (hscope : Scope.outermost.afterAll path = .outermost)
    (hlast : path.getLast? ≠ some '/') (hmore : more = [] ∨ ∃ tail, more = '/' :: tail) :
    split (path ++ more) = split path ++ split more := by
  -- The induction is on the steps of the first path.
  fun_induction split path with
  | case1 path hnone =>
    cases path with
    | nil => rfl
    | cons c path => cases hnone
  | case2 path step rest hnext ih =>
    have hsteps := stepsOff_of_next? hnext
    have hpath := next?_append hnext
    rw [Step.toChars] at hpath
    rw [← hpath, Scope.afterAll_append, Scope.afterAll_append,
      Scope.afterAll_slashes hsteps.separator_eq _ rfl] at hscope
    have hrest : StepsOff step.separator step.text (rest ++ more) := by
      refine { hsteps with rest_cases := ?_ }
      rcases hsteps.rest_cases with rfl | ⟨htext, ⟨tail, rfl⟩, hstep⟩
      · rcases hmore with rfl | ⟨tail, rfl⟩
        · exact .inl rfl
        · -- A step without a text would end with a slash.
          refine .inr ⟨fun hnil => ?_, ⟨tail, rfl⟩, hscope⟩
          rw [hnil, List.append_nil, List.append_nil] at hpath
          have hne : step.separator ≠ [] := by
            have hne := hsteps.ne_nil
            rwa [hnil, List.append_nil] at hne
          apply hlast
          rw [← hpath, List.getLast?_eq_some_getLast hne,
            hsteps.separator_eq _ (List.getLast_mem hne)]
      · exact .inr ⟨htext, ⟨tail ++ more, rfl⟩, hstep⟩
    rw [← hpath, List.append_assoc, split_of_next? (next?_of_stepsOff hrest), List.cons_append]
    congr 1
    rcases hsteps.rest_cases with rfl | ⟨-, hslash, hstep⟩
    · rw [split_nil]
      rfl
    · rw [hstep] at hscope
      apply ih hscope
      obtain ⟨tail, rfl⟩ := hslash
      rw [← hpath, List.getLast?_append] at hlast
      simpa using hlast

/-- A text that the reader of steps reads as it reads another one, up to the end of the step. -/
structure ReadsAs (new old : List Char) : Prop where
  unbroken : Unbroken .outermost old → Unbroken .outermost new
  afterAll_eq : Scope.outermost.afterAll new = Scope.outermost.afterAll old
  head?_eq : new.head? = old.head?

theorem ReadsAs.stepsOff {separator new old rest rest' : List Char} (h : ReadsAs new old)
    (hsteps : StepsOff separator old rest) (hnil : rest = [] → rest' = [])
    (hslash : ∀ more, rest = '/' :: more → ∃ more', rest' = '/' :: more') :
    StepsOff separator new rest' := by
  -- One text is empty if the other is.
  have hne : old = [] ↔ new = [] := by
    rw [← List.head?_eq_none_iff, ← h.head?_eq, List.head?_eq_none_iff]
  refine ⟨hsteps.separator_eq, ?_, h.head?_eq ▸ hsteps.head?_ne, h.unbroken hsteps.unbroken, ?_⟩
  · intro heq
    obtain ⟨hseparator, hnew⟩ := List.append_eq_nil_iff.mp heq
    exact hsteps.ne_nil (by rw [hseparator, hne.mpr hnew]; rfl)
  · rcases hsteps.rest_cases with hrest | ⟨hold, ⟨more, hmore⟩, hscope⟩
    · exact Or.inl (hnil hrest)
    · exact Or.inr ⟨fun hnew => hold (hne.mpr hnew), hslash more hmore, h.afterAll_eq.trans hscope⟩

/-- A path that begins with a slash has it in the separator of its first step. -/
theorem split_slash (more : List Char) :
    ∃ tail text rest, split ('/' :: more) = ⟨'/' :: tail, text⟩ :: split rest :=
  ⟨_, _, _, split_of_next? (by rw [next?_of_ne_nil (List.cons_ne_nil _ _)]; rfl)⟩

theorem ReadsAs.refl (text : List Char) : ReadsAs text text := ⟨id, rfl, rfl⟩

/-- Steps with other texts that read the same are the steps of the path that they make up. -/
theorem split_flatMap (change : Step → Step)
    (hseparator : ∀ step, (change step).separator = step.separator) {path : List Char}
    (htext : ∀ step ∈ split path, ReadsAs (change step).text step.text) :
    split ((split path).flatMap fun step => (change step).toChars) = (split path).map change := by
  -- The induction is on the steps of the path; each changed step is cut off where the old one
  -- was.
  fun_induction split path with
  | case1 path h => exact split_nil
  | case2 path step rest h ih =>
    obtain ⟨hfirst, hothers⟩ := List.forall_mem_cons.mp htext
    have hsteps : StepsOff (change step).separator (change step).text
        ((split rest).flatMap fun step => (change step).toChars) := by
      rw [hseparator]
      refine hfirst.stepsOff (stepsOff_of_next? h) ?_ ?_
      · -- The last step stays the last one.
        rintro rfl
        rw [split_nil]
        rfl
      · -- The next step keeps the slashes before it.
        rintro more rfl
        obtain ⟨tail, text, rest', hsplit⟩ := split_slash more
        rw [hsplit, List.flatMap_cons, Step.toChars, hseparator]
        exact ⟨_, rfl⟩
    rw [List.flatMap_cons, Step.toChars, split_of_next? (next?_of_stepsOff hsteps), ih hothers]
    rfl

end TreeNotation.XPath
