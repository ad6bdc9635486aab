import TreeNotation.Proofs.Writing.Lines

/-!
# Notation Line by Line

Over several lines every node that is written has a line of its own, but for a text directly after
the node above it. What stands on a line does not depend on where lines break: the layout puts a
break and a margin in front of it, or nothing at all.

- **Lines**: `Sketch.rows` takes a sketch apart into lines, and `brk_append_text` puts it together
  again, in any layout;
- **What a line holds**: `exists_part_of_mem_rows`, the part of the sketch that a line is of, and
  `map_place_rows`, the nodes that have lines, with their levels;
- **Breaks**: `unbreak` takes all breaks and margins out of a text, and `unbreak_join` says what is
  left of a notation over several lines.
-/

namespace TreeNotation.Writing

/-! ## Section 1: Lines of sketches -/

/-- What stands before every line but the first. -/
def Layout.brk : Layout → List Char
  | .line => []
  | .indented _ => ['\n']

theorem Layout.toList_descend (layout : Layout) : layout.descend.toList = '>' :: layout.brk := by
  cases layout <;> simp [descend, brk]

theorem Layout.toList_sibling (layout : Layout) : layout.sibling.toList = '+' :: layout.brk := by
  cases layout <;> simp [sibling, brk]

/-- A line of a notation: the node that it is of, the level of that node, and what stands behind the
margin. -/
structure Row where
  id : NodeId
  level : Nat
  body : List Char

/-- The line behind the break and the margin of a layout. -/
def Row.chars (layout : Layout) (row : Row) : List Char :=
  layout.brk ++ (layout.margin row.level).toList ++ row.body

namespace Sketch

mutual

/-- The lines of a sketch at a level, with `after` at the end of the last one. -/
def rows (level : Nat) (after : List Char) : Sketch → List Row
  | .node id own lead enclosed group =>
    if group.isEmpty then [⟨id, level, own.toList ++ lead.toList ++ after⟩]
    else
      ⟨id, level, (if enclosed then ['('] else []) ++ own.toList ++ lead.toList ++ ['>']⟩ ::
        rowsEach (level + 1) ((if enclosed then [')'] else []) ++ after) group

/-- The lines of sketches of one level, with `after` at the end of the last one. -/
def rowsEach (level : Nat) (after : List Char) : List Sketch → List Row
  | [] => []
  | first :: rest =>
    rows level (if rest.isEmpty then after else ['+']) first ++ rowsEach level after rest

end

/-- Every node of the sketch has a text. -/
def Full (s : Sketch) : Prop := s.Everywhere fun part => part.own ≠ ""

theorem Full.text_ne_empty {s : Sketch} (h : s.Full) (layout : Layout) (level : Nat) :
    s.text layout level ≠ "" :=
  Sketch.text_ne_empty h.inside.1

/-- Sketches with texts are joined one by one. -/
theorem join_texts_cons (layout : Layout) (level : Nat) {first next : Sketch} {rest : List Sketch}
    (hfull : ∀ s ∈ first :: next :: rest, s.Full) :
    layout.join (texts layout level (first :: next :: rest)) = first.text layout level ++
      (layout.sibling ++ layout.join (texts layout level (next :: rest))) := by
  have hkept : ∀ row : List Sketch, (∀ s ∈ row, s.Full) →
      (texts layout level row).filter (fun part => !part.isEmpty) = texts layout level row := by
    intro row hrow
    rw [List.filter_eq_self, texts_eq_map]
    intro part hpart
    obtain ⟨s, hs, rfl⟩ := List.mem_map.mp hpart
    simpa using (hrow s hs).text_ne_empty layout level
  unfold Layout.join
  rw [hkept _ hfull, hkept _ fun s hs => hfull s (List.mem_cons_of_mem _ hs)]
  apply String.toList_injective
  simp [texts, String.toList_intercalate, List.intercalate]

theorem group_texts_nil (layout : Layout) (level : Nat) :
    layout.group (texts layout level []) = "" := rfl

theorem group_texts_cons (layout : Layout) (level : Nat) {first : Sketch} (hfirst : first.Full)
    (rest : List Sketch) : layout.group (texts layout level (first :: rest)) =
      layout.descend ++ layout.join (texts layout level (first :: rest)) := by
  have hwritten : (first.text layout level).isEmpty = false := by
    simpa using hfirst.text_ne_empty layout level
  rw [Layout.group, texts, List.all_cons, hwritten, Bool.false_and, if_neg Bool.false_ne_true]

mutual

/-- Every line of a sketch stands behind a break and its margin, in any layout. -/
theorem brk_append_text (layout : Layout) : ∀ (s : Sketch) (level : Nat) (after : List Char),
    s.Full → layout.brk ++ (s.text layout level).toList ++ after =
      (s.rows level after).flatMap (Row.chars layout)
  | .node id own lead enclosed group, level, after, hfull => by
    rw [text, rows]
    cases group with
    | nil => simp [group_texts_nil, Row.chars]
    | cons first rest =>
      have hrest := brk_append_join layout (first :: rest) (level + 1)
        ((if enclosed then [')'] else []) ++ after) (by simp) hfull.inside.2
      have hgroup := group_texts_cons layout (level + 1)
        (hfull.inside.2 first List.mem_cons_self) rest
      have hne : (layout.descend ++
          layout.join (texts layout (level + 1) (first :: rest))).isEmpty = false := by
        cases layout <;> simp [Layout.descend]
      rw [List.isEmpty_cons, if_neg Bool.false_ne_true, List.flatMap_cons, ← hrest, hgroup]
      simp only [hne, Bool.not_false, Bool.true_and, Row.chars]
      cases enclosed <;> simp [Layout.toList_descend]

theorem brk_append_join (layout : Layout) : ∀ (row : List Sketch) (level : Nat)
    (after : List Char), row ≠ [] → (∀ s ∈ row, s.Full) →
      layout.brk ++ (layout.join (texts layout level row)).toList ++ after =
        (rowsEach level after row).flatMap (Row.chars layout)
  | [], _, _, hne, _ => absurd rfl hne
  | [last], level, after, _, hfull => by
    have hlast := brk_append_text layout last level after (hfull last List.mem_cons_self)
    simpa [rowsEach, texts, Layout.join_singleton] using hlast
  | first :: next :: rest, level, after, _, hfull => by
    have hfirst := brk_append_text layout first level ['+'] (hfull first List.mem_cons_self)
    have hrest := brk_append_join layout (next :: rest) level after (by simp)
      fun s hs => hfull s (List.mem_cons_of_mem _ hs)
    rw [rowsEach, List.isEmpty_cons, if_neg Bool.false_ne_true, List.flatMap_append, ← hfirst,
      ← hrest, join_texts_cons layout level hfull]
    simp [Layout.toList_sibling]

end

end Sketch

/-! ## Section 2: What a line holds -/

/-- A stretch of a line: it is not empty, does not begin with a space, and does not break. -/
structure Unbroken (cs : List Char) : Prop where
  ne_nil : cs ≠ []
  head?_ne : cs.head? ≠ some ' '
  not_break : '\n' ∉ cs

theorem Unbroken.append {cs ds : List Char} (h : Unbroken cs) (hds : '\n' ∉ ds) :
    Unbroken (cs ++ ds) where
  ne_nil := by simp [h.ne_nil]
  head?_ne := by
    rw [List.head?_append_of_ne_nil _ h.ne_nil]
    exact h.head?_ne
  not_break := by
    rw [List.mem_append, not_or]
    exact ⟨h.not_break, hds⟩

/-- The line is of the given part of a sketch: it holds the text of the node and the text directly
after that, at most with an opening parenthesis before them and with signs behind them. -/
structure Row.IsOf (row : Row) (part : Sketch) : Prop where
  id_eq : row.id = part.id
  exists_body : ∃ opening signs, (opening = [] ∨ opening = ['(']) ∧
    (∀ c ∈ signs, endsHead c = true) ∧
      row.body = opening ++ (part.own.toList ++ part.lead.toList ++ signs)

namespace Sketch

/-- The text of the node does not break, nor does the text directly after it, if there is any. -/
structure Tidy (s : Sketch) : Prop where
  own : Unbroken s.own.toList
  lead : s.lead = "" ∨ Unbroken s.lead.toList

/-- A line of a node whose texts do not break does not break either. -/
theorem Tidy.body {s : Sketch} (h : s.Tidy) {row : Row} (hrow : row.IsOf s) :
    Unbroken row.body := by
  obtain ⟨opening, signs, hopening, hsigns, hbody⟩ := hrow.exists_body
  have hlead : '\n' ∉ s.lead.toList := by
    rcases h.lead with hlead | hlead
    · rw [hlead]
      simp
    · exact hlead.not_break
  have hbreak : '\n' ∉ signs := fun hmem => absurd (hsigns _ hmem) (by decide)
  have htexts : Unbroken (s.own.toList ++ s.lead.toList ++ signs) :=
    (h.own.append hlead).append hbreak
  rw [hbody]
  rcases hopening with rfl | rfl
  · exact htexts
  · refine ⟨by simp, by simp, ?_⟩
    rw [List.singleton_append, List.mem_cons, not_or]
    exact ⟨by decide, htexts.not_break⟩

theorem Tidy.full {s : Sketch} (h : s.Everywhere Tidy) : s.Full := by
  refine h.imp fun part hpart _ => ?_
  intro hempty
  exact hpart.own.ne_nil (by rw [hempty]; rfl)

theorem Everywhere.and {P Q : Sketch → Prop} {s : Sketch} (h : s.Everywhere P)
    (h' : s.Everywhere Q) : s.Everywhere fun part => P part ∧ Q part := by
  induction h with
  | node here inside ih =>
    exact .node ⟨here, h'.inside.1⟩ fun part hpart => ih part hpart (h'.inside.2 part hpart)

variable {P : Sketch → Prop}

mutual

/-- Every line of a sketch is of a part of it. -/
theorem exists_part_of_mem_rows : ∀ (s : Sketch) (level : Nat) (after : List Char),
    s.Everywhere P → (∀ c ∈ after, endsHead c = true) →
      ∀ row ∈ s.rows level after, ∃ part, P part ∧ row.IsOf part
  | .node id own lead enclosed group, level, after, h, hafter, row, hrow => by
    rw [rows] at hrow
    split at hrow
    case isTrue =>
      obtain rfl := List.mem_singleton.mp hrow
      exact ⟨_, h.inside.1, rfl, [], after, .inl rfl, hafter, rfl⟩
    case isFalse =>
      rcases List.mem_cons.mp hrow with rfl | hrow
      · -- The line ends where the group begins.
        refine ⟨_, h.inside.1, rfl, if enclosed then ['('] else [], ['>'], ?_,
          List.forall_mem_singleton.mpr rfl, ?_⟩
        · cases enclosed <;> simp
        · simp [Sketch.own, Sketch.lead]
      · refine exists_part_of_mem_rowsEach group (level + 1) _ h.inside.2 ?_ row hrow
        intro c hc
        rcases List.mem_append.mp hc with hc | hc
        · cases enclosed with
          | true =>
            obtain rfl := List.mem_singleton.mp hc
            rfl
          | false => cases hc
        · exact hafter c hc

theorem exists_part_of_mem_rowsEach : ∀ (row : List Sketch) (level : Nat) (after : List Char),
    (∀ s ∈ row, s.Everywhere P) → (∀ c ∈ after, endsHead c = true) →
      ∀ line ∈ rowsEach level after row, ∃ part, P part ∧ line.IsOf part
  | [], _, _, _, _, line, hline => by cases hline
  | first :: rest, level, after, h, hafter, line, hline => by
    rw [rowsEach, List.mem_append] at hline
    rcases hline with hline | hline
    · refine exists_part_of_mem_rows first level _ (h first List.mem_cons_self) ?_ line hline
      split
      · exact hafter
      · exact List.forall_mem_singleton.mpr rfl
    · exact exists_part_of_mem_rowsEach rest level after
        (fun s hs => h s (List.mem_cons_of_mem _ hs)) hafter line hline

end

mutual

/-- The nodes of a sketch with their levels. -/
def places (level : Nat) : Sketch → List (NodeId × Nat)
  | .node id _ _ _ group => (id, level) :: placesEach (level + 1) group

/-- The nodes of sketches of one level with their levels. -/
def placesEach (level : Nat) : List Sketch → List (NodeId × Nat)
  | [] => []
  | first :: rest => places level first ++ placesEach level rest

end

theorem placesEach_append (level : Nat) (row others : List Sketch) :
    placesEach level (row ++ others) = placesEach level row ++ placesEach level others := by
  induction row with
  | nil => rfl
  | cons first rest ih => rw [List.cons_append, placesEach, placesEach, ih, List.append_assoc]

mutual

/-- Every node of a sketch has its line. -/
theorem map_place_rows : ∀ (s : Sketch) (level : Nat) (after : List Char),
    (s.rows level after).map (fun row => (row.id, row.level)) = s.places level
  | .node id own lead enclosed group, level, after => by
    rw [rows, places]
    cases group with
    | nil => rfl
    | cons first rest =>
      rw [List.isEmpty_cons, if_neg Bool.false_ne_true, List.map_cons,
        map_place_rowsEach (first :: rest)]

theorem map_place_rowsEach : ∀ (row : List Sketch) (level : Nat) (after : List Char),
    (rowsEach level after row).map (fun line => (line.id, line.level)) = placesEach level row
  | [], _, _ => rfl
  | first :: rest, level, after => by
    rw [rowsEach, placesEach, List.map_append, map_place_rows first, map_place_rowsEach rest]

end

/-- The first line is that of the first node. -/
theorem exists_rowsEach_cons (level : Nat) (after : List Char) (first : Sketch)
    (rest : List Sketch) :
    ∃ body tail, rowsEach level after (first :: rest) = ⟨first.id, level, body⟩ :: tail := by
  obtain ⟨id, own, lead, enclosed, group⟩ := first
  rw [rowsEach, rows]
  split
  · exact ⟨_, _, rfl⟩
  · exact ⟨_, _, rfl⟩

end Sketch

/-! ## Section 3: Texts without breaks -/

/-- A text without its breaks and the spaces that follow them; the flag says whether a break and
nothing but spaces has gone before. -/
def unbreakChars : Bool → List Char → List Char
  | _, [] => []
  | broken, c :: cs =>
    if c = '\n' ∨ (broken = true ∧ c = ' ') then unbreakChars true cs
    else c :: unbreakChars false cs

/-- A text without its breaks and the spaces that follow them. -/
def unbreak (text : String) : String := String.ofList (unbreakChars false text.toList)

theorem unbreakChars_margin (n : Nat) (cs : List Char) :
    unbreakChars true (List.replicate n ' ' ++ cs) = unbreakChars true cs := by
  induction n with
  | zero => rfl
  | succ n ih => simp [List.replicate_succ, unbreakChars, ih]

theorem unbreakChars_append {cs : List Char} (h : '\n' ∉ cs) (ds : List Char) :
    unbreakChars false (cs ++ ds) = cs ++ unbreakChars false ds := by
  induction cs with
  | nil => rfl
  | cons c cs ih =>
    rw [List.mem_cons, not_or] at h
    have hc : c ≠ '\n' := fun hc => h.1 hc.symm
    simp [unbreakChars, hc, ih h.2]

/-- Where no space comes next, nothing has to be known of what has gone before. -/
theorem unbreakChars_of_head? (broken : Bool) {cs : List Char} (h : cs.head? ≠ some ' ') :
    unbreakChars broken cs = unbreakChars false cs := by
  cases cs with
  | nil => rfl
  | cons c cs =>
    have hc : c ≠ ' ' := fun hc => h (congrArg some hc)
    simp [unbreakChars, hc]

/-- Without their breaks and margins, lines that do not break themselves stand one after the
other. -/
theorem unbreakChars_rows (width : Nat) {lines : List Row} (h : ∀ row ∈ lines, Unbroken row.body)
    (broken : Bool) : unbreakChars broken (lines.flatMap (Row.chars (.indented width))) =
      lines.flatMap (Row.chars .line) := by
  induction lines generalizing broken with
  | nil => rfl
  | cons row lines ih =>
    have hrow := h row List.mem_cons_self
    have hrest := ih (fun other hother => h other (List.mem_cons_of_mem _ hother)) false
    have hbody : (row.body ++ lines.flatMap (Row.chars (.indented width))).head? ≠ some ' ' := by
      rw [List.head?_append_of_ne_nil _ hrow.ne_nil]
      exact hrow.head?_ne
    rw [List.flatMap_cons, List.flatMap_cons, ← hrest]
    simp only [Row.chars, Layout.brk, Layout.margin, String.toList_ofList, List.append_assoc,
      List.nil_append, List.cons_append, String.toList_empty]
    rw [unbreakChars, if_pos (.inl rfl), unbreakChars_margin, unbreakChars_of_head? true hbody,
      unbreakChars_append hrow.not_break]

namespace Sketch

section Joined

variable {row : List Sketch} (htidy : ∀ s ∈ row, s.Everywhere Tidy)

include htidy

theorem unbroken_of_mem_rowsEach : ∀ line ∈ rowsEach 0 [] row, Unbroken line.body := by
  intro line hline
  obtain ⟨part, hpart, hof⟩ := exists_part_of_mem_rowsEach row 0 [] htidy (by simp) line hline
  exact hpart.body hof

theorem brk_append_joined (layout : Layout) (hrow : row ≠ []) :
    layout.brk ++ (layout.join (texts layout 0 row)).toList =
      (rowsEach 0 [] row).flatMap (Row.chars layout) := by
  have hjoin := brk_append_join layout row 0 [] hrow fun s hs => Tidy.full (htidy s hs)
  rwa [List.append_nil] at hjoin

/-- Without its breaks and margins, the notation over several lines is the one on one line. -/
theorem unbreak_join (width : Nat) :
    unbreak ((Layout.indented width).join (texts (.indented width) 0 row)) =
      Layout.line.join (texts .line 0 row) := by
  by_cases hrow : row = []
  · rw [hrow]
    rfl
  · have hlines := unbroken_of_mem_rowsEach htidy
    have hindented := brk_append_joined htidy (.indented width) hrow
    have hline := brk_append_joined htidy .line hrow
    have hunbroken := unbreakChars_rows width hlines false
    rw [← hindented, ← hline] at hunbroken
    -- The notation begins at level zero, so behind the break there is no margin.
    have hfirst : ((Layout.indented width).join (texts (.indented width) 0 row)).toList.head? ≠
        some ' ' := by
      obtain ⟨first, rest, rfl⟩ := List.exists_cons_of_ne_nil hrow
      obtain ⟨body, tail, hbegin⟩ := exists_rowsEach_cons 0 [] first rest
      have hbody : Unbroken body := hlines ⟨first.id, 0, body⟩ (by simp [hbegin])
      rw [hbegin] at hindented
      simp only [Layout.brk, List.flatMap_cons, Row.chars, Layout.margin, Nat.mul_zero,
        List.replicate_zero, String.toList_ofList, List.append_nil, List.cons_append,
        List.nil_append, List.cons.injEq, true_and] at hindented
      rw [hindented, List.head?_append_of_ne_nil _ hbody.ne_nil]
      exact hbody.head?_ne
    apply String.toList_injective
    rw [unbreak, String.toList_ofList, ← unbreakChars_of_head? true hfirst]
    exact hunbroken

/-- Over several lines, a line stands behind the margin of its level. -/
theorem join_eq_intercalate (width : Nat) :
    (Layout.indented width).join (texts (.indented width) 0 row) =
      "\n".intercalate ((rowsEach 0 [] row).map fun line =>
        String.ofList (marginChars width line.level ++ line.body)) := by
  by_cases hrow : row = []
  · rw [hrow]
    rfl
  · have hindented := brk_append_joined htidy (.indented width) hrow
    have hne : rowsEach 0 [] row ≠ [] := by
      intro hnone
      rw [hnone] at hindented
      cases hindented
    have hchars : Row.chars (.indented width) = fun line => '\n' ::
        (String.ofList (marginChars width line.level ++ line.body)).toList := by
      funext line
      simp [Row.chars, Layout.brk, Layout.margin, marginChars]
    rw [hchars] at hindented
    apply String.toList_injective
    rw [String.toList_intercalate, ← List.cons_inj_right '\n']
    show _ = '\n' :: ['\n'].intercalate _
    rw [Text.cons_intercalate '\n' (by simpa using hne), List.map_map, List.flatMap_map]
    exact hindented

end Joined

end Sketch

end TreeNotation.Writing
