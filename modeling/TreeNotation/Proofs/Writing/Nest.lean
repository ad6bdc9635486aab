import TreeNotation.Proofs.Text.Delimited
import TreeNotation.Proofs.Writing.Sketch

/-!
# Reading Nested Notation Back

On one line a group stands behind `>`, its members are kept apart by `+`, and a member with a group
of its own is in parentheses if there are others beside it. That is enough to tell what belongs
where.

- **Nests**: `Nest.chars` writes heads with groups of heads below them;
- **Heads**: `reads_head`; a head can be told from the sign that follows it;
- **Groups**: `reads_group`, from the members of a group to the whole of it;
- **Main result**: `Nest.chars_injective`.
-/

namespace TreeNotation.Writing

open Text (Ends Reads append_inj_of_ends beq_eq_false_of_not_mem cons_intercalate ends_cons)

/-! ## Section 1: Nests -/

/-- A head and the group below it. -/
inductive Nest where
  | node (head : List Char) (group : List Nest)

namespace Nest

/-- Members of a group side by side, behind the sign that leads down to them. -/
def behind : List (List Char) → List Char
  | [] => []
  | items => '>' :: ['+'].intercalate items

mutual

/-- A head with its group; `beside` says that others stand beside it. -/
def chars (beside : Bool) : Nest → List Char
  | .node head group =>
    let body := head ++ behind (charsEach (decide (1 < group.length)) group)
    if beside && !group.isEmpty then '(' :: (body ++ [')']) else body

/-- Heads with their groups, one by one. -/
def charsEach (beside : Bool) : List Nest → List (List Char)
  | [] => []
  | first :: rest => chars beside first :: charsEach beside rest

end

/-- The group of a head as it is written behind the head. -/
def groupChars (group : List Nest) : List Char :=
  behind (charsEach (decide (1 < group.length)) group)

theorem groupChars_eq_nil_iff {group : List Nest} : groupChars group = [] ↔ group = [] := by
  cases group <;> simp [groupChars, charsEach, behind]

theorem charsEach_eq_map (beside : Bool) (group : List Nest) :
    charsEach beside group = group.map (chars beside) := by
  induction group with
  | nil => rfl
  | cons first rest ih => rw [charsEach, ih, List.map_cons]

theorem chars_alone (head : List Char) (group : List Nest) :
    chars false (.node head group) = head ++ groupChars group := by
  rw [chars, groupChars]
  rfl

theorem chars_bare (beside : Bool) (head : List Char) : chars beside (.node head []) = head := by
  rw [chars, charsEach, behind]
  simp

theorem chars_enclosed (head : List Char) {group : List Nest} (h : group ≠ []) :
    chars true (.node head group) = '(' :: (head ++ groupChars group ++ [')']) := by
  rw [chars, groupChars]
  cases group with
  | nil => exact absurd rfl h
  | cons first rest => rfl

theorem groupChars_singleton (member : Nest) : groupChars [member] = '>' :: chars false member := by
  simp [groupChars, charsEach, behind, List.intercalate]

/-- Each of several members but the first has a sign before it. -/
theorem groupChars_cons_cons (first second : Nest) (rest : List Nest) :
    groupChars (first :: second :: rest) = '>' :: (chars true first ++
      (second :: rest).flatMap fun member => '+' :: chars true member) := by
  have hne : (first :: second :: rest).map (chars true) ≠ [] := by simp
  have hrow := cons_intercalate '+' hne
  rw [List.flatMap_map, List.flatMap_cons, List.cons_append, List.cons.injEq] at hrow
  rw [groupChars, charsEach_eq_map, ← hrow.2]
  simp [behind]

end Nest

/-! ## Section 2: Heads -/

/-- The signs that may follow a head. -/
def endsHead (c : Char) : Bool := c == '>' || c == '+' || c == ')'

/-- The signs that may follow a member of a group with other members. -/
def endsMember (c : Char) : Bool := c == '+' || c == ')'

/-- The sign that may follow a group. -/
def endsGroup (c : Char) : Bool := c == ')'

theorem endsHead_of_endsGroup (c : Char) (h : endsGroup c = true) : endsHead c = true := by
  unfold endsHead
  rw [show (c == ')') = true from h, Bool.or_true]

theorem endsHead_of_endsMember (c : Char) (h : endsMember c = true) : endsHead c = true := by
  unfold endsHead
  rw [Bool.or_assoc, show (c == '+' || c == ')') = true from h, Bool.or_true]

/-- The signs that are not part of the front of a head. -/
def isSign (c : Char) : Bool := endsHead c || c == '(' || c == '\x7b'

/-- Nothing, or a payload in braces. -/
def IsPayload (tail : List Char) : Prop :=
  tail = [] ∨ ∃ inner, tail = '\x7b' :: (inner ++ ['\x7d']) ∧ '\x7d' ∉ inner

/-- A front without signs, and possibly a payload in braces. -/
def IsHead (head : List Char) : Prop :=
  ∃ front tail, head = front ++ tail ∧ front ≠ [] ∧ (∀ c ∈ front, isSign c = false) ∧ IsPayload tail

theorem ends_payload {tail rs : List Char} (h : IsPayload tail) (hrs : Ends endsHead rs) :
    Ends isSign (tail ++ rs) := by
  rcases h with rfl | ⟨inner, rfl, -⟩
  · refine Ends.mono hrs ?_
    intro c hc
    simp [isSign, hc]
  · rfl

theorem payload_inj {tail tail' rs ss : List Char} (htail : IsPayload tail)
    (htail' : IsPayload tail') (hrs : Ends endsHead rs) (hss : Ends endsHead ss)
    (h : tail ++ rs = tail' ++ ss) : tail = tail' ∧ rs = ss := by
  have hbrace : ∀ cs : List Char, ¬ Ends endsHead ('\x7b' :: cs) := by
    intro cs hcs
    cases hcs
  rcases htail with rfl | ⟨inner, rfl, hinner⟩
  · rcases htail' with rfl | ⟨inner', rfl, -⟩
    · exact ⟨rfl, h⟩
    · rw [List.nil_append] at h
      exact absurd (h ▸ hrs) (hbrace _)
  · rcases htail' with rfl | ⟨inner', rfl, hinner'⟩
    · rw [List.nil_append] at h
      exact absurd (h ▸ hss) (hbrace _)
    · simp only [List.cons_append, List.append_assoc, List.cons.injEq, true_and] at h
      obtain ⟨rfl, hrest⟩ := append_inj_of_ends (beq_eq_false_of_not_mem hinner)
        (beq_eq_false_of_not_mem hinner') (ends_cons rfl _) (ends_cons rfl _) h
      exact ⟨rfl, (List.cons.inj hrest).2⟩

/-- A head can be told from the sign that follows it. -/
theorem reads_head {head : List Char} (h : IsHead head) : Reads endsHead IsHead id head := by
  intro head' rs ss h' hrs hss heq
  obtain ⟨front, tail, rfl, -, hfront, htail⟩ := h
  obtain ⟨front', tail', rfl, -, hfront', htail'⟩ := h'
  simp only [id, List.append_assoc] at heq
  obtain ⟨rfl, hrest⟩ := append_inj_of_ends hfront hfront' (ends_payload htail hrs)
    (ends_payload htail' hss) heq
  obtain ⟨rfl, hlast⟩ := payload_inj htail htail' hrs hss hrest
  exact ⟨rfl, hlast⟩

/-- A head does not begin with a parenthesis. -/
theorem paren_ne_head {head : List Char} (h : IsHead head) {cs rs : List Char} :
    '(' :: cs ≠ head ++ rs := by
  intro heq
  obtain ⟨front, tail, rfl, hne, hfront, -⟩ := h
  cases front with
  | nil => exact hne rfl
  | cons c front =>
    simp only [List.cons_append, List.cons.injEq] at heq
    have hsign := hfront c List.mem_cons_self
    rw [← heq.1] at hsign
    cases hsign

/-! ## Section 3: Groups -/

namespace Nest

/-- All heads of the nest can be told from what follows them. -/
inductive Readable : Nest → Prop where
  | node {head : List Char} {group : List Nest} (hhead : IsHead head)
      (hgroup : ∀ member ∈ group, Readable member) : Readable (.node head group)

theorem Readable.at_node {head : List Char} {group : List Nest} (h : Readable (.node head group)) :
    IsHead head ∧ ∀ member ∈ group, Readable member := by
  cases h with
  | node hhead hgroup => exact ⟨hhead, hgroup⟩

/-- The nest can be read back by itself in front of what may follow a group, and among others in
front of what may follow a member. -/
def ReadsBack (n : Nest) : Prop :=
  Reads endsGroup Readable (chars false) n ∧ Reads endsMember Readable (chars true) n

theorem ends_groupChars (group : List Nest) {p : Char → Bool} (hp : p '>' = true) {rs : List Char}
    (hrs : Ends p rs) : Ends p (groupChars group ++ rs) := by
  cases group with
  | nil => exact hrs
  | cons first rest =>
    refine ends_cons hp _

/-- A single member cannot be taken for the first of several. -/
theorem alone_ne_first {only first : Nest} (honly : Readable only) (hfirst : Readable first)
    {rs ss : List Char} (hrs : Ends endsGroup rs) :
    chars false only ++ rs ≠ chars true first ++ '+' :: ss := by
  intro h
  obtain ⟨head, group⟩ := only
  obtain ⟨head', group'⟩ := first
  rw [chars_alone, List.append_assoc] at h
  by_cases hgroup : group' = []
  · -- Behind the same head there is a group, or the end of one, but no other member.
    rw [hgroup, chars_bare] at h
    have hends : Ends endsHead (groupChars group ++ rs) := by
      apply ends_groupChars group rfl
      exact Ends.mono hrs endsHead_of_endsGroup
    obtain ⟨-, hrest⟩ := reads_head honly.at_node.1 head' _ _ hfirst.at_node.1 hends
      (ends_cons rfl _) h
    cases group with
    | nil =>
      have hplus : Ends endsGroup ('+' :: ss) := hrest ▸ hrs
      cases hplus
    | cons member rest => cases hrest
  · rw [chars_enclosed head' hgroup] at h
    exact paren_ne_head honly.at_node.1 h.symm

/-- A group can be read back if its members can. -/
theorem reads_group {group : List Nest} (hgroup : ∀ member ∈ group, Readable member)
    (hreads : ∀ member ∈ group, ReadsBack member) :
    Reads endsGroup (fun others => ∀ member ∈ others, Readable member) groupChars group := by
  intro others rs ss hothers hrs hss h
  have hdescend : ∀ cs : List Char, ¬ Ends endsGroup ('>' :: cs) := by
    intro cs hcs
    cases hcs
  have hmember : ∀ {ts : List Char}, Ends endsGroup ts →
      Ends endsMember ts ∧ ts.head? ≠ some '+' := by
    intro ts hts
    cases ts with
    | nil => exact ⟨trivial, by simp⟩
    | cons c ts =>
      obtain rfl : c = ')' := by simpa [Ends, endsGroup] using hts
      exact ⟨rfl, by simp⟩
  match group, others with
  | [], [] => exact ⟨rfl, h⟩
  | [], other :: others =>
    have hrs' : Ends endsGroup (groupChars (other :: others) ++ ss) := h ▸ hrs
    exact absurd hrs' (hdescend _)
  | member :: group, [] =>
    have hss' : Ends endsGroup (groupChars (member :: group) ++ rs) := h ▸ hss
    exact absurd hss' (hdescend _)
  | [member], [other] =>
    rw [groupChars_singleton, groupChars_singleton, List.cons_append, List.cons_append,
      List.cons.injEq] at h
    obtain ⟨rfl, hrest⟩ := (hreads member List.mem_cons_self).1 other rs ss
      (hothers other List.mem_cons_self) hrs hss h.2
    exact ⟨rfl, hrest⟩
  | [member], first :: second :: others =>
    rw [groupChars_singleton, groupChars_cons_cons, List.cons_append, List.cons_append,
      List.cons.injEq, List.append_assoc] at h
    exact absurd h.2 (alone_ne_first (hgroup member List.mem_cons_self)
      (hothers first List.mem_cons_self) hrs)
  | first :: second :: group, [other] =>
    rw [groupChars_singleton, groupChars_cons_cons, List.cons_append, List.cons_append,
      List.cons.injEq, List.append_assoc] at h
    exact absurd h.2.symm (alone_ne_first (hothers other List.mem_cons_self)
      (hgroup first List.mem_cons_self) hss)
  | first :: second :: group, first' :: second' :: others =>
    rw [groupChars_cons_cons, groupChars_cons_cons, List.cons_append, List.cons_append,
      List.cons.injEq] at h
    -- With one more sign before the first member, both rows are of one form.
    have hrows : ((first :: second :: group).flatMap fun member => '+' :: chars true member) ++ rs =
        ((first' :: second' :: others).flatMap fun member => '+' :: chars true member) ++ ss := by
      simpa only [List.flatMap_cons, List.cons_append, List.append_assoc, List.cons.injEq,
        true_and] using h.2
    exact Reads.flatMap rfl (fun member hmember => (hreads member hmember).2) hothers
      (hmember hrs).1 (hmember hss).1 (hmember hrs).2 (hmember hss).2 hrows

/-- A nest can be read back if its head and the members of its group can. -/
theorem readsBack {n : Nest} (h : Readable n) : ReadsBack n := by
  -- The induction is on the heads below the topmost one.
  induction h with
  | @node head group hhead hgroup ih =>
    have hbelow := reads_group hgroup ih
    have hends : ∀ (others : List Nest) {ts : List Char}, Ends endsGroup ts →
        Ends endsHead (groupChars others ++ ts) := by
      intro others ts hts
      apply ends_groupChars others rfl
      exact hts.mono endsHead_of_endsGroup
    constructor
    · intro other rs ss hother hrs hss h
      obtain ⟨head', group'⟩ := other
      rw [chars_alone, chars_alone, List.append_assoc, List.append_assoc] at h
      obtain ⟨rfl, hrest⟩ := reads_head hhead head' _ _ hother.at_node.1 (hends group hrs)
        (hends group' hss) h
      obtain ⟨rfl, hlast⟩ := hbelow group' rs ss hother.at_node.2 hrs hss hrest
      exact ⟨rfl, hlast⟩
    · intro other rs ss hother hrs hss h
      obtain ⟨head', group'⟩ := other
      have hrs' := hrs.mono endsHead_of_endsMember
      have hss' := hss.mono endsHead_of_endsMember
      by_cases hbare : group = []
      · subst hbare
        by_cases hbare' : group' = []
        · subst hbare'
          rw [chars_bare, chars_bare] at h
          obtain ⟨rfl, hlast⟩ := reads_head hhead head' rs ss hother.at_node.1 hrs' hss' h
          exact ⟨rfl, hlast⟩
        · rw [chars_bare, chars_enclosed head' hbare'] at h
          exact absurd h.symm (paren_ne_head hhead)
      · by_cases hbare' : group' = []
        · subst hbare'
          rw [chars_bare, chars_enclosed head hbare] at h
          exact absurd h (paren_ne_head hother.at_node.1)
        · -- The closing parenthesis ends the group inside.
          rw [chars_enclosed head hbare, chars_enclosed head' hbare'] at h
          simp only [List.cons_append, List.append_assoc, List.cons.injEq, true_and] at h
          obtain ⟨rfl, hrest⟩ := reads_head hhead head' _ _ hother.at_node.1
            (hends group (ends_cons rfl _)) (hends group' (ends_cons rfl _)) h
          obtain ⟨rfl, hlast⟩ := hbelow group' _ _ hother.at_node.2 (ends_cons rfl _)
            (ends_cons rfl _) hrest
          exact ⟨rfl, (List.cons.inj hlast).2⟩

/-- Nests with heads that can be told from what follows are written in different ways. -/
theorem chars_injective {m n : Nest} (hm : Readable m) (hn : Readable n)
    (h : chars false m = chars false n) : m = n := by
  have hread := (readsBack hm).1 n [] [] hn trivial trivial
  rw [List.append_nil, List.append_nil] at hread
  exact (hread h).1

end Nest

/-! ## Section 4: Sketches as nests -/

namespace Sketch

mutual

/-- The nest of a sketch: each node is a head together with the text directly after it. -/
def nest : Sketch → Nest
  | .node _ own lead _ group => .node (own ++ lead).toList (nestEach group)

/-- The nests of sketches of one level. -/
def nestEach : List Sketch → List Nest
  | [] => []
  | first :: rest => nest first :: nestEach rest

end

theorem nestEach_eq_map (row : List Sketch) : nestEach row = row.map nest := by
  induction row with
  | nil => rfl
  | cons first rest ih => rw [nestEach, ih, List.map_cons]

theorem nest_eq (s : Sketch) : s.nest = .node (s.own ++ s.lead).toList (s.group.map nest) := by
  obtain ⟨id, own, lead, enclosed, group⟩ := s
  rw [nest, nestEach_eq_map]
  rfl

/-- The node has a text, and the nodes in its group are put in parentheses if there are several. -/
def Settled (s : Sketch) : Prop :=
  s.own ≠ "" ∧ ∀ part ∈ s.group, part.enclosed = decide (1 < s.group.length)

theorem toList_group_line {parts : List String} (h : ∀ part ∈ parts, part ≠ "") :
    (Layout.line.group parts).toList = Nest.behind (parts.map String.toList) := by
  cases parts with
  | nil => rfl
  | cons first rest =>
    have hkept : ((first :: rest).filter fun part => !part.isEmpty) = first :: rest := by
      rw [List.filter_eq_self]
      intro part hpart
      simpa using h part hpart
    have hall : (first :: rest).all String.isEmpty = false := by
      rw [List.all_cons, String.isEmpty_eq_false_iff.mpr (h first List.mem_cons_self),
        Bool.false_and]
    rw [Layout.group, hall, Layout.join, hkept]
    simp [Layout.descend, Layout.sibling, Nest.behind]

/-- On one line, the notation of a sketch is that of its nest. -/
theorem toList_text_line {s : Sketch} (h : s.Everywhere Settled) (level : Nat) :
    (s.text .line level).toList = s.nest.chars s.enclosed := by
  induction h generalizing level with
  | @node s here inside ih =>
    obtain ⟨id, own, lead, enclosed, group⟩ := s
    simp only [Settled, Sketch.own, Sketch.group] at here inside ih
    have hparts : ∀ part ∈ texts .line (level + 1) group, part ≠ "" := by
      rw [texts_eq_map]
      intro part hpart
      obtain ⟨member, hmember, rfl⟩ := List.mem_map.mp hpart
      exact text_ne_empty (inside member hmember).inside.1.1
    have hwritten : (Layout.line.group (texts .line (level + 1) group)).toList =
        Nest.groupChars (nestEach group) := by
      rw [toList_group_line hparts, texts_eq_map, Nest.groupChars, Nest.charsEach_eq_map,
        nestEach_eq_map, List.map_map, List.map_map, List.length_map]
      congr 1
      apply List.map_congr_left
      intro member hmember
      rw [Function.comp_apply, ih member hmember, here.2 member hmember]
      rfl
    have hparens : (!(Layout.line.group (texts .line (level + 1) group)).isEmpty && enclosed) =
        (enclosed && !(nestEach group).isEmpty) := by
      have hempty : (Layout.line.group (texts .line (level + 1) group)).isEmpty =
          (nestEach group).isEmpty := by
        rw [Bool.eq_iff_iff, String.isEmpty_iff, ← String.toList_eq_nil_iff, hwritten,
          Nest.groupChars_eq_nil_iff, List.isEmpty_iff]
      rw [hempty, Bool.and_comm]
    show _ = (nest _).chars enclosed
    rw [text, nest, Nest.chars, ← Nest.groupChars, ← hwritten]
    simp only [hparens, Layout.margin]
    -- Both sides ask for the same parentheses.
    by_cases hboth : (enclosed && !(nestEach group).isEmpty) = true
    · rw [if_pos hboth, if_pos hboth]
      simp
    · rw [if_neg hboth, if_neg hboth]
      simp

end Sketch

end TreeNotation.Writing
