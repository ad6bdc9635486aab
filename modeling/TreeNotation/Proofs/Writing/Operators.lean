import TreeNotation.Proofs.Writing.Rendering

/-!
# Operators between Nodes

Two operators lead from one node to the next, one to a sibling and one down, and parentheses hold a
node and its group together. If no node holds one of these signs itself, then a notation on one line
has an operator only between two nodes, and every parenthesis belongs to another one.

- **Signs**: `Orderly` says which signs may stand where;
- **Grammar**: `Composed` says how texts of nodes are put together, and `Place.read` goes through a
  text from left to right, so that `Composed.orderly` follows from `Composed.read_eq`;
- **Dialects**: `orderly_of_convertWith`.
-/

namespace TreeNotation.Writing

/-! ## Section 1: Signs -/

/-- Whether a character is an operator between nodes or a parenthesis. -/
def isOperator (c : Char) : Bool := c == '+' || c == '>' || c == '(' || c == ')'

/-- Pairs of signs with a node missing between them. -/
def strayPairs : List String := ["++", "+>", ">+", ">>", "(+", "(>", "+)", ">)", "()"]

/-- How many parentheses are open behind a character; none can be closed if none is open. -/
def nestBy (opened : Nat) (c : Char) : Option Nat :=
  if c = '(' then some (opened + 1)
  else if c = ')' then if opened = 0 then none else some (opened - 1)
  else some opened

/-- The text neither begins nor ends with an operator, no node is missing between two signs of it,
and its parentheses are balanced and properly nested. -/
structure Orderly (text : String) : Prop where
  head : ∀ c ∈ text.toList.head?, c ≠ '+' ∧ c ≠ '>'
  last : ∀ c ∈ text.toList.getLast?, c ≠ '+' ∧ c ≠ '>'
  apart : ∀ pair ∈ strayPairs, ¬ pair.toList <:+: text.toList
  balanced : text.toList.foldlM nestBy 0 = some 0

/-! ## Section 2: Grammar -/

/-- The text is put together from nodes without signs of their own. -/
inductive Composed : List Char → Prop where
  | node {cs : List Char} (hne : cs ≠ []) (hplain : ∀ c ∈ cs, isOperator c = false) : Composed cs
  /-- One after the other, side by side or one below the other. -/
  | joined {xs ys : List Char} {sign : Char} (hsign : sign = '+' ∨ sign = '>') (hxs : Composed xs)
      (hys : Composed ys) : Composed (xs ++ sign :: ys)
  | enclosed {xs : List Char} (hxs : Composed xs) : Composed ('(' :: (xs ++ [')']))

/-- Whether a node has to come directly before a character. -/
def follows (c : Char) : Bool := c == '+' || c == '>' || c == ')'

/-- Whether a node has to come directly behind a character. -/
def leads (c : Char) : Bool := c == '+' || c == '>' || c == '('

/-- A place in a text: how many parentheses are open there, and whether a node has to come next. -/
structure Place where
  opened : Nat
  expects : Bool

namespace Place

/-- The place behind one more character; none if the character must not stand there. -/
def step (place : Place) (c : Char) : Option Place :=
  if follows c && place.expects then none
  else (nestBy place.opened c).map fun opened => ⟨opened, leads c⟩

/-- The place behind a text. -/
def read (place : Place) (cs : List Char) : Option Place := cs.foldlM step place

theorem step_eq_some_iff {place after : Place} {c : Char} :
    place.step c = some after ↔ ¬ (follows c = true ∧ place.expects = true) ∧
      nestBy place.opened c = some after.opened ∧ after.expects = leads c := by
  obtain ⟨opened, expects⟩ := after
  rw [step]
  split
  case isTrue h =>
    rw [Bool.and_eq_true] at h
    simp [h]
  case isFalse h =>
    rw [Bool.and_eq_true] at h
    rw [Option.map_eq_some_iff]
    constructor
    · rintro ⟨_, hopened, hplace⟩
      cases hplace
      exact ⟨h, hopened, rfl⟩
    · rintro ⟨-, hopened, rfl⟩
      exact ⟨opened, hopened, rfl⟩

theorem read_append (place : Place) (xs ys : List Char) :
    place.read (xs ++ ys) = (place.read xs).bind fun mid => mid.read ys :=
  List.foldlM_append

theorem read_cons (place : Place) (c : Char) (cs : List Char) :
    place.read (c :: cs) = (place.step c).bind fun mid => mid.read cs :=
  List.foldlM_cons

theorem read_append_eq_some_iff {place after : Place} {xs ys : List Char} :
    place.read (xs ++ ys) = some after ↔
      ∃ mid, place.read xs = some mid ∧ mid.read ys = some after := by
  rw [read_append, Option.bind_eq_some_iff]

theorem read_cons_eq_some_iff {place after : Place} {c : Char} {cs : List Char} :
    place.read (c :: cs) = some after ↔
      ∃ mid, place.step c = some mid ∧ mid.read cs = some after := by
  rw [read_cons, Option.bind_eq_some_iff]

/-- A character that is no sign may stand anywhere. -/
theorem step_of_not_isOperator (place : Place) {c : Char} (h : isOperator c = false) :
    place.step c = some ⟨place.opened, false⟩ := by
  simp only [isOperator, Bool.or_eq_false_iff, beq_eq_false_iff_ne] at h
  obtain ⟨⟨⟨hplus, hdown⟩, hopen⟩, hclose⟩ := h
  simp [step, nestBy, follows, leads, hplus, hdown, hopen, hclose]

/-- Behind a node, no node has to come next. -/
theorem read_of_not_isOperator {cs : List Char} (hne : cs ≠ [])
    (h : ∀ c ∈ cs, isOperator c = false) (place : Place) :
    place.read cs = some ⟨place.opened, false⟩ := by
  induction cs generalizing place with
  | nil => exact absurd rfl hne
  | cons c cs ih =>
    rw [read_cons, step_of_not_isOperator place (h c List.mem_cons_self), Option.bind_some]
    by_cases hcs : cs = []
    · rw [hcs]
      rfl
    · exact ih hcs (fun d hd => h d (List.mem_cons_of_mem c hd)) _

/-- Reading a text counts its parentheses. -/
theorem foldlM_nestBy {place after : Place} {cs : List Char} (h : place.read cs = some after) :
    cs.foldlM nestBy place.opened = some after.opened := by
  induction cs generalizing place with
  | nil =>
    cases h
    rfl
  | cons c cs ih =>
    obtain ⟨mid, hstep, hrest⟩ := read_cons_eq_some_iff.mp h
    rw [List.foldlM_cons, (step_eq_some_iff.mp hstep).2.1]
    exact ih hrest

end Place

/-- Where a node has to come next, a text that is put together from nodes can be read to its end,
and then as many parentheses are open as before, and no node has to come next. -/
theorem Composed.read_eq {cs : List Char} (h : Composed cs) (opened : Nat) :
    Place.read ⟨opened, true⟩ cs = some ⟨opened, false⟩ := by
  induction h generalizing opened with
  | node hne hplain => exact Place.read_of_not_isOperator hne hplain _
  | joined hsign _ _ ihxs ihys =>
    rw [Place.read_append, ihxs, Option.bind_some, Place.read_cons]
    rcases hsign with rfl | rfl
    · exact ihys opened
    · exact ihys opened
  | enclosed _ ih =>
    have hopen : Place.step ⟨opened, true⟩ '(' = some ⟨opened + 1, true⟩ := rfl
    rw [Place.read_cons, hopen, Option.bind_some, Place.read_append, ih (opened + 1)]
    rfl

theorem strayPairs_eq : ∀ pair ∈ strayPairs, ∃ c d, pair.toList = [c, d] ∧ leads c = true ∧
    follows d = true := by
  intro pair hpair
  simp only [strayPairs, List.mem_cons, List.not_mem_nil, or_false] at hpair
  rcases hpair with rfl | rfl | rfl | rfl | rfl | rfl | rfl | rfl | rfl <;>
    exact ⟨_, _, rfl, rfl, rfl⟩

theorem Composed.orderly {text : String} (h : Composed text.toList) : Orderly text where
  head c hc := by
    obtain ⟨rest, htext⟩ := List.head?_eq_some_iff.mp hc
    have hread := h.read_eq 0
    rw [htext] at hread
    obtain ⟨mid, hstep, -⟩ := Place.read_cons_eq_some_iff.mp hread
    have hfollows := (Place.step_eq_some_iff.mp hstep).1
    constructor <;> rintro rfl <;> exact hfollows ⟨rfl, rfl⟩
  last c hc := by
    obtain ⟨front, htext⟩ := List.getLast?_eq_some_iff.mp hc
    have hread := h.read_eq 0
    rw [htext] at hread
    obtain ⟨mid, -, hlast⟩ := Place.read_append_eq_some_iff.mp hread
    obtain ⟨after, hstep, hend⟩ := Place.read_cons_eq_some_iff.mp hlast
    cases hend
    have hleads := (Place.step_eq_some_iff.mp hstep).2.2
    constructor <;> rintro rfl <;> exact absurd hleads (by decide)
  apart pair hpair := by
    obtain ⟨c, d, hchars, hc, hd⟩ := strayPairs_eq pair hpair
    rintro ⟨front, rest, htext⟩
    have hread := h.read_eq 0
    rw [← htext, hchars, List.append_assoc] at hread
    obtain ⟨before, -, hpair⟩ := Place.read_append_eq_some_iff.mp hread
    obtain ⟨mid, hfirst, hpair⟩ := Place.read_cons_eq_some_iff.mp hpair
    obtain ⟨after, hsecond, -⟩ := Place.read_cons_eq_some_iff.mp hpair
    -- The first character asks for a node, and the second one is none.
    have hexpects : mid.expects = true := (Place.step_eq_some_iff.mp hfirst).2.2.trans hc
    exact (Place.step_eq_some_iff.mp hsecond).1 ⟨hd, hexpects⟩
  balanced := Place.foldlM_nestBy (h.read_eq 0)

theorem orderly_empty : Orderly "" where
  head c hc := by cases hc
  last c hc := by cases hc
  apart pair hpair := by
    obtain ⟨c, d, hchars, -, -⟩ := strayPairs_eq pair hpair
    simp [hchars]
  balanced := rfl

/-! ## Section 3: Notations on one line -/

/-- The notation is empty, or it is put together from nodes without signs of their own. -/
def WellComposed (text : String) : Prop := text = "" ∨ Composed text.toList

theorem WellComposed.orderly {text : String} (h : WellComposed text) : Orderly text := by
  rcases h with rfl | h
  · exact orderly_empty
  · exact h.orderly

theorem composed_intercalate {parts : List (List Char)} (hne : parts ≠ [])
    (h : ∀ part ∈ parts, Composed part) : Composed (['+'].intercalate parts) := by
  induction parts with
  | nil => exact absurd rfl hne
  | cons first rest ih =>
    have hfirst := h first List.mem_cons_self
    by_cases hrest : rest = []
    · rw [hrest]
      simpa [List.intercalate] using hfirst
    · have hothers := ih hrest fun part hpart => h part (List.mem_cons_of_mem first hpart)
      rw [List.intercalate_cons_of_ne_nil hrest]
      simpa using Composed.joined (.inl rfl) hfirst hothers

/-- Notations side by side leave no trace, or together they are put together from nodes. -/
theorem join_line_cases {parts : List String} (h : ∀ part ∈ parts, WellComposed part) :
    (parts.all String.isEmpty = true ∧ Layout.line.join parts = "") ∨
      Composed (Layout.line.join parts).toList := by
  have htraces : ∀ part ∈ Layout.traces parts, Composed part.toList := by
    intro part hpart
    obtain ⟨hmem, hne⟩ := List.mem_filter.mp hpart
    rcases h part hmem with rfl | hcomposed
    · cases hne
    · exact hcomposed
  have hjoin : Layout.line.join parts = "+".intercalate (Layout.traces parts) := rfl
  rw [hjoin]
  by_cases hnone : Layout.traces parts = []
  · left
    rw [hnone]
    refine ⟨?_, rfl⟩
    simpa [Layout.traces, List.filter_eq_nil_iff] using hnone
  · right
    rw [String.toList_intercalate]
    refine composed_intercalate (by simpa using hnone) ?_
    intro part hpart
    obtain ⟨text, htext, rfl⟩ := List.mem_map.mp hpart
    exact htraces text htext

theorem wellComposed_join {parts : List String} (h : ∀ part ∈ parts, WellComposed part) :
    WellComposed (Layout.line.join parts) :=
  (join_line_cases h).imp_left And.right

/-- A group is left out, or it is a notation behind the operator that leads down to it. -/
theorem group_line_cases {parts : List String} (h : ∀ part ∈ parts, WellComposed part) :
    Layout.line.group parts = "" ∨
      ∃ inner, (Layout.line.group parts).toList = '>' :: inner ∧ Composed inner := by
  unfold Layout.group
  split
  case isTrue => exact .inl rfl
  case isFalse hwritten =>
    rcases join_line_cases h with ⟨hnone, -⟩ | hcomposed
    · exact absurd hnone hwritten
    · exact .inr ⟨_, by simp [Layout.descend], hcomposed⟩

/-- The text of a node is not empty and has none of the signs that stand between nodes. -/
structure Signless (text : String) : Prop where
  ne_empty : text ≠ ""
  plain : ∀ c ∈ text.toList, isOperator c = false

namespace Dialect

open Token (Gives Ledger Supply forall_of_forall₂)

variable {α κ : Type} {d : Dialect α κ}

/-- A node with a group below it, in parentheses or without. -/
theorem composed_assemble (hline : d.layout = .line) (id : NodeId) (level : Nat)
    {own lead : String} {parts : List String} (hown : Signless own)
    (hlead : ∀ c ∈ lead.toList, isOperator c = false) (hparts : ∀ part ∈ parts, WellComposed part) :
    Composed (d.assemble id level own lead (d.layout.group parts)).toList := by
  have hnode : Composed (own.toList ++ lead.toList) := by
    refine .node ?_ fun c hc => (List.mem_append.mp hc).elim (hown.plain c) (hlead c)
    simpa using fun hempty => absurd hempty hown.ne_empty
  have hmargin : d.layout.margin level = "" := by
    rw [hline]
    rfl
  unfold assemble
  rw [hmargin, hline]
  rcases group_line_cases hparts with hnone | ⟨inner, hgroup, hinner⟩
  · simpa [hnone] using hnode
  · have hbody := Composed.joined (.inr rfl) hnode hinner
    dsimp only
    split
    · simpa [hgroup] using hbody.enclosed
    · simpa [hgroup] using hbody

theorem WrittenBelow.parts {Q : NodeId → α → String → Prop} {R : String → Prop}
    {trees : List (Tree α)} {below : String × List String}
    (h : d.WrittenBelow Q (fun _ => R) trees below) : ∀ part ∈ below.2, R part := by
  cases h with
  | nil => simp
  | text _ _ hrest => exact forall_of_forall₂ hrest
  | row _ hfirst hrest => exact List.forall_mem_cons.mpr ⟨hfirst, forall_of_forall₂ hrest⟩

theorem compositional_wellComposed (hline : d.layout = .line) :
    d.Compositional (fun _ _ => Signless) fun _ => WellComposed where
  skipped _ _ := .inl rfl
  node level _ hown hbelow := by
    refine .inr (composed_assemble hline _ level hown ?_ hbelow.parts)
    cases hbelow with
    | nil => simp
    | text _ hlead _ => exact hlead.plain
    | row _ _ _ => simp

/-- A dialect that writes no sign in the text of a node writes forests on one line in good order. -/
theorem orderly_of_convertWith {P : Ledger κ → Prop} {f : Forest α} (hf : f.WellFormed)
    (hline : d.layout = .line) {a : Supply} (hP : P (Ledger.ofSupply a))
    (hown : ∀ id label, f.label? id = some label → Gives P Signless (d.own id label)) {μ : Type}
    {tables : Ledger κ → μ} {result : Conversion μ}
    (hresult : d.convertWith tables a f = .ok result) : Orderly result.text := by
  obtain ⟨parts, hparts, htext⟩ :=
    (compositional_wellComposed hline).of_convertWith hf hP hown hresult
  rw [htext, hline]
  exact (wellComposed_join (forall_of_forall₂ hparts)).orderly

end Dialect

end TreeNotation.Writing
