import TreeNotation.Proofs.Writing.Nest

/-!
# Reading Indented Notation Back

Over several lines every head has a line of its own. The sign at the end of a line says whether the
next one is a level further down, and if it is not, the margin of the next line says how far up it
is. That is enough to tell what belongs where, without any parentheses.

- **Lines**: `Nest.lines` writes heads with groups of heads below them, a line for each;
- **Heads**: `append_inj_of_isLine`; a head can be told from what may follow it;
- **Groups**: `reads_onLines`, from the members of a group to the whole of it;
- **Main result**: `Nest.lines_injective`;
- **Dialects**: `Dialect.Plain.render_eq`; a dialect without any frills writes trees as lines.
-/

namespace TreeNotation.Writing

/-! ## Section 1: Nests over several lines -/

/-- The spaces before a head at a level. -/
def marginChars (width level : Nat) : List Char := List.replicate (width * level) ' '

namespace Nest

/-- Members of a group on lines of their own, behind the sign that leads down to them. -/
def onLines : List (List Char) → List Char
  | [] => []
  | items => '>' :: '\n' :: ['+', '\n'].intercalate items

mutual

/-- A head on its line, with its group on the lines below. -/
def lines (width level : Nat) : Nest → List Char
  | .node head group =>
    marginChars width level ++ (head ++ onLines (linesEach width (level + 1) group))

/-- Heads with their groups, one by one. -/
def linesEach (width level : Nat) : List Nest → List (List Char)
  | [] => []
  | first :: rest => lines width level first :: linesEach width level rest

end

variable {width : Nat}

theorem linesEach_eq_map (width level : Nat) (group : List Nest) :
    linesEach width level group = group.map (lines width level) := by
  induction group with
  | nil => rfl
  | cons first rest ih => rw [linesEach, ih, List.map_cons]

/-- Members one after the other, each behind the sign for another line. -/
def rows (width level : Nat) (group : List Nest) : List Char :=
  group.flatMap fun member => '+' :: '\n' :: lines width level member

theorem rows_cons (width level : Nat) (first : Nest) (rest : List Nest) :
    rows width level (first :: rest) =
      '+' :: '\n' :: (lines width level first ++ rows width level rest) := by
  rw [rows, List.flatMap_cons]
  rfl

/-- The first member stands behind the sign that leads down, the others behind the one for another
line. -/
theorem onLines_cons (level : Nat) (first : Nest) (rest : List Nest) :
    onLines (linesEach width level (first :: rest)) =
      '>' :: '\n' :: (lines width level first ++ rows width level rest) := by
  have hrow : ∀ (items : List Nest) (item : Nest),
      ['+', '\n'].intercalate (lines width level item :: items.map (lines width level)) =
        lines width level item ++ rows width level items := by
    intro items
    induction items with
    | nil =>
      intro item
      simp [List.intercalate, rows]
    | cons next items ih =>
      intro item
      rw [rows_cons, ← ih next]
      simp [List.intercalate]
  rw [linesEach_eq_map, List.map_cons, ← hrow]
  rfl

end Nest

/-! ## Section 2: Heads -/

/-- A head that fills a line: it does not begin with a space, and does not end with a sign that says
where the next line belongs. -/
structure IsLine (head : List Char) : Prop where
  ne_nil : head ≠ []
  head?_ne : head.head? ≠ some ' '
  not_break : '\n' ∉ head
  getLast?_ne : ∀ c, head.getLast? = some c → c ≠ '>' ∧ c ≠ '+'

/-- What may follow a head: nothing, or a sign at the end of its line. -/
def EndsLine (rest : List Char) : Prop :=
  rest = [] ∨ ∃ sign more, (sign = '>' ∨ sign = '+') ∧ rest = sign :: '\n' :: more

/-- No text is left over between two heads that the same text goes on from. -/
theorem eq_nil_of_append {head beyond rest rest' : List Char} (h : IsLine (head ++ beyond))
    (hrest : EndsLine rest) (heq : rest = beyond ++ rest') : beyond = [] := by
  rcases hrest with rfl | ⟨sign, more, hsign, rfl⟩
  · exact (List.append_eq_nil_iff.mp heq.symm).1
  · match beyond, heq with
    | [], _ => rfl
    | [c], heq =>
      -- The sign would be the last character of a head.
      have hc : sign = c := (List.cons.inj heq).1
      obtain ⟨hdown, hbeside⟩ := h.getLast?_ne c (by simp)
      rcases hsign with hsign | hsign
      · exact absurd (hc.symm.trans hsign) hdown
      · exact absurd (hc.symm.trans hsign) hbeside
    | c :: d :: beyond, heq =>
      -- The line would break inside a head.
      simp only [List.cons_append, List.cons.injEq] at heq
      exact absurd (by simp [← heq.2.1]) h.not_break

/-- A head can be told from what may follow it. -/
theorem append_inj_of_isLine {head head' rest rest' : List Char} (h : IsLine head)
    (h' : IsLine head') (hrest : EndsLine rest) (hrest' : EndsLine rest')
    (heq : head ++ rest = head' ++ rest') : head = head' ∧ rest = rest' := by
  rcases List.append_eq_append_iff.mp heq with ⟨beyond, rfl, hbeyond⟩ | ⟨beyond, rfl, hbeyond⟩
  · obtain rfl := eq_nil_of_append h' hrest hbeyond
    exact ⟨(List.append_nil head).symm, hbeyond⟩
  · obtain rfl := eq_nil_of_append h hrest' hbeyond
    exact ⟨List.append_nil head', hbeyond.symm⟩

/-! ## Section 3: Groups -/

/-- What may follow a nest at a level: nothing, or another line with a margin that is no greater. -/
def Returns (width level : Nat) (rest : List Char) : Prop :=
  rest = [] ∨ ∃ level' c more, level' ≤ level ∧ c ≠ ' ' ∧
    rest = '+' :: '\n' :: (marginChars width level' ++ c :: more)

theorem Returns.endsLine {width level : Nat} {rest : List Char} (h : Returns width level rest) :
    EndsLine rest := by
  rcases h with rfl | ⟨level', c, more, -, -, rfl⟩
  · exact .inl rfl
  · exact .inr ⟨'+', _, .inr rfl, rfl⟩

theorem Returns.succ {width level : Nat} {rest : List Char} (h : Returns width level rest) :
    Returns width (level + 1) rest := by
  rcases h with rfl | ⟨level', c, more, hlevel, hc, rfl⟩
  · exact .inl rfl
  · exact .inr ⟨level', c, more, Nat.le_succ_of_le hlevel, hc, rfl⟩

/-- A text behind a smaller margin is none behind a greater one. -/
theorem marginChars_append_ne {width level level' : Nat} (hwidth : 1 ≤ width)
    (hlevel : level' ≤ level) {c : Char} (hc : c ≠ ' ') (more cs : List Char) :
    marginChars width level' ++ c :: more ≠ marginChars width (level + 1) ++ cs := by
  intro heq
  have hle : width * level' ≤ width * level := Nat.mul_le_mul_left width hlevel
  have hsucc : width * (level + 1) = width * level + width := Nat.mul_succ width level
  have hlt : width * level' < width * (level + 1) := by omega
  -- Where the one text begins, the other one still has its margin.
  have hat : (marginChars width level' ++ c :: more)[width * level']? = some c := by
    simp [marginChars]
  rw [heq, List.getElem?_append_left (by simpa [marginChars] using hlt), marginChars,
    List.getElem?_replicate, if_pos hlt, Option.some.injEq] at hat
  exact hc hat.symm

namespace Nest

/-- All heads of the nest fill a line each. -/
inductive Lined : Nest → Prop where
  | node {head : List Char} {group : List Nest} (hhead : IsLine head)
      (hgroup : ∀ member ∈ group, Lined member) : Lined (.node head group)

theorem Lined.at_node {head : List Char} {group : List Nest} (h : Lined (.node head group)) :
    IsLine head ∧ ∀ member ∈ group, Lined member := by
  cases h with
  | node hhead hgroup => exact ⟨hhead, hgroup⟩

/-- A nest begins with its margin and a character that is no space. -/
theorem Lined.exists_lines {n : Nest} (h : Lined n) (width level : Nat) :
    ∃ c cs, c ≠ ' ' ∧ lines width level n = marginChars width level ++ c :: cs := by
  obtain ⟨head, group⟩ := n
  have hhead := h.at_node.1
  match head, hhead with
  | [], hhead => exact absurd rfl hhead.ne_nil
  | c :: head, hhead =>
    refine ⟨c, head ++ onLines (linesEach width (level + 1) group), ?_, ?_⟩
    · rintro rfl
      exact hhead.head?_ne rfl
    · rw [lines, List.cons_append]

/-- The nest can be read back at a level in front of what may follow it there. -/
def ReadsLines (width level : Nat) (n : Nest) : Prop :=
  ∀ other rs ss, Lined other → Returns width level rs → Returns width level ss →
    lines width level n ++ rs = lines width level other ++ ss → n = other ∧ rs = ss

theorem returns_rows {level : Nat} {group : List Nest} (hgroup : ∀ member ∈ group, Lined member)
    {rs : List Char} (hrs : Returns width level rs) :
    Returns width (level + 1) (rows width (level + 1) group ++ rs) := by
  cases group with
  | nil => exact hrs.succ
  | cons first rest =>
    obtain ⟨c, cs, hc, hlines⟩ :=
      (hgroup first List.mem_cons_self).exists_lines width (level + 1)
    refine .inr ⟨level + 1, c, cs ++ (rows width (level + 1) rest ++ rs), Nat.le_refl _, hc, ?_⟩
    rw [rows_cons, hlines]
    simp only [List.cons_append, List.append_assoc]

/-- A line that returns to a level is no line of a group below it. -/
theorem not_returns_rows (hwidth : 1 ≤ width) {level : Nat} {first : Nest} (hfirst : Lined first)
    (rest : List Nest) (ss : List Char) :
    ¬ Returns width level (rows width (level + 1) (first :: rest) ++ ss) := by
  intro h
  obtain ⟨c, cs, -, hlines⟩ := hfirst.exists_lines width (level + 1)
  rw [rows_cons, hlines] at h
  rcases h with h | ⟨level', d, more, hlevel, hd, h⟩
  · cases h
  · simp only [List.cons_append, List.append_assoc, List.cons.injEq, true_and] at h
    exact marginChars_append_ne hwidth hlevel hd _ _ h.symm

/-- Members one after the other can be read back if each of them can. -/
theorem reads_rows (hwidth : 1 ≤ width) {level : Nat} {group others : List Nest}
    (hgroup : ∀ member ∈ group, Lined member)
    (hreads : ∀ member ∈ group, ReadsLines width (level + 1) member)
    (hothers : ∀ member ∈ others, Lined member) {rs ss : List Char} (hrs : Returns width level rs)
    (hss : Returns width level ss)
    (h : rows width (level + 1) group ++ rs = rows width (level + 1) others ++ ss) :
    group = others ∧ rs = ss := by
  induction group generalizing others with
  | nil =>
    cases others with
    | nil => exact ⟨rfl, h⟩
    | cons other others =>
      have hreturn : Returns width level (rows width (level + 1) (other :: others) ++ ss) := h ▸ hrs
      exact absurd hreturn
        (not_returns_rows hwidth (hothers other List.mem_cons_self) others ss)
  | cons first rest ih =>
    have hrest : ∀ member ∈ rest, Lined member := fun member hmember =>
      hgroup member (List.mem_cons_of_mem _ hmember)
    cases others with
    | nil =>
      have hreturn : Returns width level (rows width (level + 1) (first :: rest) ++ rs) :=
        h.symm ▸ hss
      exact absurd hreturn (not_returns_rows hwidth (hgroup first List.mem_cons_self) rest rs)
    | cons other others =>
      have hothers' : ∀ member ∈ others, Lined member := fun member hmember =>
        hothers member (List.mem_cons_of_mem _ hmember)
      rw [rows_cons, rows_cons] at h
      simp only [List.cons_append, List.append_assoc, List.cons.injEq, true_and] at h
      obtain ⟨rfl, hlater⟩ := hreads first List.mem_cons_self other _ _
        (hothers other List.mem_cons_self) (returns_rows hrest hrs) (returns_rows hothers' hss) h
      obtain ⟨rfl, hlast⟩ := ih hrest
        (fun member hmember => hreads member (List.mem_cons_of_mem _ hmember)) hothers' hlater
      exact ⟨rfl, hlast⟩

theorem endsLine_onLines {level : Nat} (group : List Nest) {rs : List Char}
    (hrs : Returns width level rs) :
    EndsLine (onLines (linesEach width (level + 1) group) ++ rs) := by
  cases group with
  | nil => exact hrs.endsLine
  | cons first rest =>
    rw [onLines_cons]
    exact .inr ⟨'>', _, .inl rfl, rfl⟩

/-- A group can be read back below its head if its members can. -/
theorem reads_onLines (hwidth : 1 ≤ width) {level : Nat} {group others : List Nest}
    (hgroup : ∀ member ∈ group, Lined member)
    (hreads : ∀ member ∈ group, ReadsLines width (level + 1) member)
    (hothers : ∀ member ∈ others, Lined member) {rs ss : List Char} (hrs : Returns width level rs)
    (hss : Returns width level ss)
    (h : onLines (linesEach width (level + 1) group) ++ rs =
      onLines (linesEach width (level + 1) others) ++ ss) : group = others ∧ rs = ss := by
  -- Behind a head without a group there is no sign that leads down.
  have hdown : ∀ {rs cs : List Char}, Returns width level rs → rs ≠ '>' :: cs := by
    intro rs cs hrs heq
    rcases hrs with rfl | ⟨level', c, more, -, -, rfl⟩
    · cases heq
    · simp at heq
  cases group with
  | nil =>
    cases others with
    | nil => exact ⟨rfl, h⟩
    | cons other others =>
      rw [onLines_cons] at h
      exact absurd h (hdown hrs)
  | cons first rest =>
    cases others with
    | nil =>
      rw [onLines_cons] at h
      exact absurd h.symm (hdown hss)
    | cons other others =>
      -- With the other sign before the first member, both groups are of one form.
      apply reads_rows hwidth hgroup hreads hothers hrs hss
      rw [onLines_cons, onLines_cons] at h
      rw [rows_cons, rows_cons]
      simpa only [List.cons_append, List.cons.injEq, true_and] using h

/-- A nest whose heads fill a line each can be read back at any level. -/
theorem readsLines (hwidth : 1 ≤ width) {n : Nest} (h : Lined n) (level : Nat) :
    ReadsLines width level n := by
  -- The induction is on the heads below the topmost one, which are one level further down.
  induction h generalizing level with
  | @node head group hhead hgroup ih =>
    intro other rs ss hother hrs hss heq
    obtain ⟨head', group'⟩ := other
    rw [lines, lines] at heq
    simp only [List.append_assoc, List.append_cancel_left_eq] at heq
    obtain ⟨rfl, hrest⟩ := append_inj_of_isLine hhead hother.at_node.1
      (endsLine_onLines group hrs) (endsLine_onLines group' hss) heq
    obtain ⟨rfl, hlast⟩ := reads_onLines hwidth hgroup
      (fun member hmember => ih member hmember (level + 1)) hother.at_node.2 hrs hss hrest
    exact ⟨rfl, hlast⟩

/-- Nests whose heads fill a line each are written in different ways. -/
theorem lines_injective (hwidth : 1 ≤ width) {m n : Nest} (hm : Lined m) (hn : Lined n)
    {level : Nat} (h : lines width level m = lines width level n) : m = n := by
  have hread := readsLines hwidth hm level n [] [] hn (.inl rfl) (.inl rfl)
  rw [List.append_nil, List.append_nil] at hread
  exact (hread h).1

end Nest

/-! ## Section 4: Dialects that write lines -/

mutual

/-- The nest of a tree: each node is a head, and the nodes below it are its group. -/
def treeNest {α : Type} (own : α → String) : Tree α → Nest
  | .node _ label children => .node (own label).toList (treeNests own children)

/-- The nests of trees of one level. -/
def treeNests {α : Type} (own : α → String) : List (Tree α) → List Nest
  | [] => []
  | first :: rest => treeNest own first :: treeNests own rest

end

/-- Nothing is left out of a group of members that are not empty. -/
theorem toList_group_indented {width level : Nat} {group : List Nest}
    (h : ∀ member ∈ group, member.lines width level ≠ []) :
    ((Layout.indented width).group
      (group.map fun member => String.ofList (member.lines width level))).toList =
        Nest.onLines (Nest.linesEach width level group) := by
  cases group with
  | nil => rfl
  | cons first rest =>
    have hempty : ∀ member ∈ first :: rest,
        (String.ofList (member.lines width level)).isEmpty = false := by
      intro member hmember
      rw [String.isEmpty_eq_false_iff]
      simpa using h member hmember
    have hkept : (((first :: rest).map fun member =>
        String.ofList (member.lines width level)).filter fun part => !part.isEmpty) =
          (first :: rest).map fun member => String.ofList (member.lines width level) := by
      rw [List.filter_eq_self]
      intro part hpart
      obtain ⟨member, hmember, rfl⟩ := List.mem_map.mp hpart
      rw [hempty member hmember]
      rfl
    have hall : ((first :: rest).map fun member =>
        String.ofList (member.lines width level)).all String.isEmpty = false := by
      rw [List.map_cons, List.all_cons, hempty first List.mem_cons_self, Bool.false_and]
    rw [Layout.group, hall, Layout.join, hkept, Nest.linesEach_eq_map]
    simp [Layout.descend, Layout.sibling, Nest.onLines, Function.comp_def]

/-- A part that stands alone is written as it is. -/
theorem Layout.join_singleton (layout : Layout) (part : String) : layout.join [part] = part := by
  unfold join
  rw [List.filter_singleton]
  by_cases hempty : part.isEmpty = true
  · rw [hempty, String.isEmpty_iff.mp hempty]
    rfl
  · rw [Bool.not_eq_true] at hempty
    rw [hempty]
    simp

theorem Nest.lines_ne_nil {head : List Char} (h : head ≠ []) (width level : Nat)
    (group : List Nest) : lines width level (.node head group) ≠ [] := by
  rw [lines]
  simp [h]

namespace Dialect

variable {α κ : Type} {d : Dialect α κ} {own : α → String} {width : Nat}

/-- Every node is written by itself below the node above it, without parentheses, and no name is
asked for. -/
structure Plain (d : Dialect α κ) (own : α → String) : Prop where
  own_eq : ∀ id label, d.own id label = pure (own label)
  own_ne : ∀ label, own label ≠ ""
  skips_eq : ∀ label, d.skips label = false
  inlines_eq : ∀ label, d.inlines label = false
  encloses_eq : ∀ id, d.encloses id = false

theorem Plain.ne_nil (h : d.Plain own) (width level : Nat) : ∀ trees : List (Tree α),
    ∀ member ∈ treeNests own trees, member.lines width level ≠ []
  | .node _ label children :: rest, member, hmember => by
    rw [treeNests] at hmember
    rcases List.mem_cons.mp hmember with rfl | hmember
    · rw [treeNest]
      apply Nest.lines_ne_nil
      simpa using h.own_ne label
    · exact Plain.ne_nil h width level rest member hmember

mutual

/-- A dialect without any frills writes the nest of a tree over several lines. -/
theorem Plain.render_eq (h : d.Plain own) (hlayout : d.layout = .indented width) (level : Nat) :
    ∀ tree : Tree α,
      d.render level tree = pure (String.ofList ((treeNest own tree).lines width level))
  | .node id label children => by
    have hbelow := Plain.renderBelow_eq h hlayout (level + 1) children
    have hgroup := toList_group_indented (h.ne_nil width (level + 1) children)
    rw [render, h.skips_eq, if_neg Bool.false_ne_true, h.own_eq, pure_bind, hbelow, pure_bind,
      treeNest, Nest.lines, ← hgroup]
    simp only [assemble, h.encloses_eq, Bool.and_false, Bool.false_eq_true, if_false, hlayout,
      Layout.margin, marginChars]
    congr 1
    apply String.toList_injective
    simp

theorem Plain.renderBelow_eq (h : d.Plain own) (hlayout : d.layout = .indented width)
    (level : Nat) : ∀ trees : List (Tree α), d.renderBelow level trees =
      pure ("", (treeNests own trees).map fun member => String.ofList (member.lines width level))
  | [] => by
    rw [renderBelow]
    rfl
  | .node id label children :: rest => by
    rw [renderBelow_of_not_inlines level id children rest (by simp [h.inlines_eq]),
      Plain.render_eq h hlayout level, pure_bind, Plain.renderEach_eq h hlayout level, pure_bind]
    rfl

theorem Plain.renderEach_eq (h : d.Plain own) (hlayout : d.layout = .indented width)
    (level : Nat) : ∀ trees : List (Tree α), d.renderEach level trees =
      pure ((treeNests own trees).map fun member => String.ofList (member.lines width level))
  | [] => by
    rw [renderEach]
    rfl
  | first :: rest => by
    rw [renderEach, Plain.render_eq h hlayout level, pure_bind,
      Plain.renderEach_eq h hlayout level, pure_bind]
    rfl

end

end Dialect

end TreeNotation.Writing
