import TreeNotation.Proofs.Writing.Pruning

/-!
# Rows that Shift

If leaving nodes out would move a text to the front of its row, the text stays behind the sign that
leads down, whereas the pruned forest has it directly after the node above. From the first such row
on, the two notations differ.

- **Steps**: `Yields` and `YieldsBoth` speak of the results of steps that succeed;
- **Texts**: `Diverge` says that two texts agree up to a place at which they have different
  characters;
- **Layouts**: `DivergeEach` is the same of rows of texts, kept by `Layout.join` and `Layout.group`;
- **Trees**: `diverge_render` and its companions, one for each function that writes;
- **Conversions**: `text_ne_of_not_settled`.
-/

namespace TreeNotation

namespace Token

variable {κ γ δ ε ζ : Type}

/-! ## Section 1: Results of steps -/

/-- `P` is true of the result of a step that succeeds. -/
def Yields (P : γ → Prop) (m : Rendering κ γ) : Prop :=
  ∀ ledger value after, m ledger = .ok value after → P value

/-- `R` relates the results of two steps that begin with the same books and succeed. -/
def YieldsBoth (R : γ → δ → Prop) (m : Rendering κ γ) (m' : Rendering κ δ) : Prop :=
  ∀ ledger value after value' after', m ledger = .ok value after → m' ledger = .ok value' after' →
    R value value'

theorem Yields.pure {P : γ → Prop} {value : γ} (h : P value) :
    Yields P (pure value : Rendering κ γ) := by
  intro ledger value' after hrun
  cases hrun
  exact h

theorem Yields.trivial (m : Rendering κ γ) : Yields (fun _ => True) m :=
  fun _ _ _ _ => True.intro

theorem Yields.bind {P : γ → Prop} {Q : δ → Prop} {m : Rendering κ γ} (h : Yields P m)
    {next : γ → Rendering κ δ} (hnext : ∀ value, P value → Yields Q (next value)) :
    Yields Q (m >>= next) := by
  intro ledger value after hrun
  obtain ⟨first, mid, hfirst, hrest⟩ := bind_eq_ok_iff.mp hrun
  exact hnext first (h ledger first mid hfirst) mid value after hrest

namespace YieldsBoth

variable {R : γ → δ → Prop} {S : ε → ζ → Prop}

theorem of_yields {P : γ → Prop} {Q : δ → Prop} {m : Rendering κ γ} {m' : Rendering κ δ}
    (h : Yields P m) (h' : Yields Q m') (hR : ∀ value value', P value → Q value' → R value value') :
    YieldsBoth R m m' :=
  fun ledger value after value' after' hrun hrun' =>
    hR value value' (h ledger value after hrun) (h' ledger value' after' hrun')

/-- The same step first. -/
theorem bind {m : Rendering κ ε} {next : ε → Rendering κ γ} {next' : ε → Rendering κ δ}
    (h : ∀ value, YieldsBoth R (next value) (next' value)) :
    YieldsBoth R (m >>= next) (m >>= next') := by
  intro ledger value after value' after' hrun hrun'
  obtain ⟨first, mid, hfirst, hrest⟩ := bind_eq_ok_iff.mp hrun
  obtain ⟨first', mid', hfirst', hrest'⟩ := bind_eq_ok_iff.mp hrun'
  cases hfirst.symm.trans hfirst'
  exact h first mid value after value' after' hrest hrest'

/-- Steps whose results are related, and anything that keeps them so, whatever the books. -/
theorem bind_of {m : Rendering κ ε} {m' : Rendering κ ζ} (h : YieldsBoth S m m')
    {next : ε → Rendering κ γ} {next' : ζ → Rendering κ δ} {P : ε → γ → Prop} {Q : ζ → δ → Prop}
    (hnext : ∀ value, Yields (P value) (next value))
    (hnext' : ∀ value, Yields (Q value) (next' value))
    (hR : ∀ first first' value value', S first first' → P first value → Q first' value' →
      R value value') :
    YieldsBoth R (m >>= next) (m' >>= next') := by
  intro ledger value after value' after' hrun hrun'
  obtain ⟨first, mid, hfirst, hrest⟩ := bind_eq_ok_iff.mp hrun
  obtain ⟨first', mid', hfirst', hrest'⟩ := bind_eq_ok_iff.mp hrun'
  exact hR first first' value value' (h ledger first mid first' mid' hfirst hfirst')
    (hnext first mid value after hrest) (hnext' first' mid' value' after' hrest')

theorem map {m : Rendering κ ε} {m' : Rendering κ ζ} (h : YieldsBoth S m m') {finish : ε → γ}
    {finish' : ζ → δ} (hR : ∀ value value', S value value' → R (finish value) (finish' value')) :
    YieldsBoth R (finish <$> m) (finish' <$> m') := by
  rw [map_eq_pure_bind, map_eq_pure_bind]
  refine h.bind_of (P := fun first value => value = finish first)
    (Q := fun first value => value = finish' first) (fun _ => .pure rfl) (fun _ => .pure rfl) ?_
  rintro first first' _ _ hS rfl rfl
  exact hR first first' hS

end YieldsBoth

end Token

namespace Writing

/-! ## Section 2: Texts that diverge -/

/-- Two texts agree up to a place at which they have different characters. -/
inductive Diverge : List Char → List Char → Prop where
  | here {c c' : Char} (hne : c ≠ c') (s t : List Char) : Diverge (c :: s) (c' :: t)
  | later (c : Char) {s t : List Char} (h : Diverge s t) : Diverge (c :: s) (c :: t)

namespace Diverge

variable {s t : List Char}

theorem ne (h : Diverge s t) : s ≠ t := by
  induction h with
  | here hne s t => exact fun heq => hne (List.cons.inj heq).1
  | later c _ ih => exact fun heq => ih (List.cons.inj heq).2

theorem ne_nil (h : Diverge s t) : s ≠ [] ∧ t ≠ [] := by
  cases h with
  | here => exact ⟨List.cons_ne_nil _ _, List.cons_ne_nil _ _⟩
  | later => exact ⟨List.cons_ne_nil _ _, List.cons_ne_nil _ _⟩

theorem append_left (before : List Char) (h : Diverge s t) :
    Diverge (before ++ s) (before ++ t) := by
  induction before with
  | nil => exact h
  | cons c before ih => exact .later c ih

theorem append_right (h : Diverge s t) (after after' : List Char) :
    Diverge (s ++ after) (t ++ after') := by
  induction h with
  | here hne s t => exact .here hne (s ++ after) (t ++ after')
  | later c _ ih => exact .later c ih

/-- A text with a sign before it and one with another sign after it. -/
theorem of_around {c c' : Char} (hne : c ≠ c') (own after after' : List Char) :
    Diverge (c :: (own ++ after)) (own ++ c' :: after') := by
  -- The induction is on the text; as long as it begins with the sign, it goes on in both.
  induction own with
  | nil => exact .here hne after after'
  | cons first own ih =>
    by_cases hfirst : c = first
    · rw [← hfirst]
      exact .later c ih
    · exact .here hfirst _ _

end Diverge

/-! ## Section 3: Rows of texts -/

open Layout (traces traces_cons_empty)

/-- Two rows agree up to texts that diverge, as far as their texts leave traces. -/
def DivergeEach (parts parts' : List String) : Prop :=
  ∃ common s t rest rest', traces parts = common ++ s :: rest ∧
    traces parts' = common ++ t :: rest' ∧ Diverge s.toList t.toList

namespace DivergeEach

variable {parts parts' : List String}

theorem head {s t : String} (h : Diverge s.toList t.toList) (rest rest' : List String) :
    DivergeEach (s :: rest) (t :: rest') := by
  obtain ⟨hs, ht⟩ := h.ne_nil
  have hkept : ∀ (s : String) (rest : List String), s.toList ≠ [] →
      traces (s :: rest) = s :: traces rest := by
    intro s rest hs
    exact List.filter_cons_of_pos (by simpa using hs)
  exact ⟨[], s, t, traces rest, traces rest', hkept s rest hs, hkept t rest' ht, h⟩

theorem cons (part : String) (h : DivergeEach parts parts') :
    DivergeEach (part :: parts) (part :: parts') := by
  obtain ⟨common, s, t, rest, rest', hleft, hright, hdiverge⟩ := h
  by_cases hpart : part.isEmpty = true
  · rw [String.isEmpty_iff.mp hpart]
    refine ⟨common, s, t, rest, rest', ?_, ?_, hdiverge⟩ <;> rwa [traces_cons_empty]
  · have hkept : ∀ parts : List String, traces (part :: parts) = part :: traces parts :=
      fun parts => List.filter_cons_of_pos (by simpa using hpart)
    refine ⟨part :: common, s, t, rest, rest', ?_, ?_, hdiverge⟩
    · rw [hkept, hleft, List.cons_append]
    · rw [hkept, hright, List.cons_append]

theorem cons_empty_left (h : DivergeEach parts parts') : DivergeEach ("" :: parts) parts' := by
  obtain ⟨common, s, t, rest, rest', hleft, hright, hdiverge⟩ := h
  exact ⟨common, s, t, rest, rest', (traces_cons_empty parts).trans hleft, hright, hdiverge⟩

theorem traces_ne_nil (h : DivergeEach parts parts') : traces parts ≠ [] ∧ traces parts' ≠ [] := by
  obtain ⟨common, s, t, rest, rest', hleft, hright, -⟩ := h
  rw [hleft, hright]
  simp

end DivergeEach

theorem exists_intercalate_eq (sign : List Char) (before : List (List Char)) (s : List Char)
    (rest : List (List Char)) :
    ∃ after, sign.intercalate (before ++ s :: rest) =
      (before.flatMap fun item => item ++ sign) ++ (s ++ after) := by
  induction before with
  | nil =>
    cases rest with
    | nil => exact ⟨[], by simp⟩
    | cons next rest => exact ⟨sign ++ sign.intercalate (next :: rest), by simp⟩
  | cons item before ih =>
    obtain ⟨after, hafter⟩ := ih
    refine ⟨after, ?_⟩
    obtain ⟨next, more, hmore⟩ := List.exists_cons_of_ne_nil
      (show before ++ s :: rest ≠ [] by simp)
    rw [List.cons_append, hmore, List.intercalate_cons_cons, ← hmore, hafter]
    simp

namespace Layout

variable {layout : Layout} {parts parts' : List String}

theorem diverge_join (h : DivergeEach parts parts') :
    Diverge (layout.join parts).toList (layout.join parts').toList := by
  obtain ⟨common, s, t, rest, rest', hleft, hright, hdiverge⟩ := h
  have hjoin : ∀ parts, (layout.join parts).toList =
      layout.sibling.toList.intercalate ((traces parts).map String.toList) :=
    fun parts => String.toList_intercalate
  obtain ⟨after, hafter⟩ := exists_intercalate_eq layout.sibling.toList (common.map String.toList)
    s.toList (rest.map String.toList)
  obtain ⟨after', hafter'⟩ := exists_intercalate_eq layout.sibling.toList
    (common.map String.toList) t.toList (rest'.map String.toList)
  rw [hjoin, hjoin, hleft, hright, List.map_append, List.map_append, List.map_cons, List.map_cons,
    hafter, hafter']
  exact (hdiverge.append_right after after').append_left _

/-- A group that leaves traces begins with the sign that leads down. -/
theorem group_eq (h : traces parts ≠ []) :
    layout.group parts = layout.descend ++ layout.join parts := by
  have hall : ¬ parts.all String.isEmpty = true := by
    intro hall
    refine h (List.filter_eq_nil_iff.mpr fun part hpart => ?_)
    simp [List.all_eq_true.mp hall part hpart]
  rw [group, if_neg hall]

theorem diverge_group (layout : Layout) (h : DivergeEach parts parts') :
    Diverge (layout.group parts).toList (layout.group parts').toList := by
  obtain ⟨hleft, hright⟩ := h.traces_ne_nil
  rw [group_eq hleft, group_eq hright, String.toList_append, String.toList_append]
  exact (diverge_join h).append_left _

theorem exists_group_eq (layout : Layout) (h : traces parts ≠ []) :
    ∃ after, (layout.group parts).toList = '>' :: after := by
  obtain ⟨more, hmore⟩ : ∃ more, layout.descend.toList = '>' :: more := by
    cases layout with
    | line => exact ⟨[], rfl⟩
    | indented width => exact ⟨['\n'], by simp [descend]⟩
  rw [group_eq h, String.toList_append, hmore]
  exact ⟨_, List.cons_append⟩

theorem group_ne_empty (h : traces parts ≠ []) : (layout.group parts).isEmpty = false := by
  obtain ⟨after, hafter⟩ := exists_group_eq layout h
  rw [Bool.eq_false_iff]
  intro hempty
  simp [String.isEmpty_iff.mp hempty] at hafter

end Layout

namespace Dialect

open Token (Ledger Rendering Supply Yields YieldsBoth)

variable {α κ : Type} {d : Dialect α κ}

/-! ## Section 4: One node -/

/-- A text begins with a brace. -/
def BeginsBraced (text : String) : Prop := ∃ after, text.toList = '\x7b' :: after

theorem diverge_parentheses {s t : String} (h : Diverge s.toList t.toList) :
    Diverge ("(" ++ s ++ ")").toList ("(" ++ t ++ ")").toList := by
  simp only [String.toList_append, List.append_assoc]
  exact (h.append_right _ _).append_left _

/-- The same node before groups that diverge. -/
theorem diverge_assemble (id : NodeId) (level : Nat) (own lead : String)
    {parts parts' : List String} (h : DivergeEach parts parts') :
    Diverge (d.assemble id level own lead (d.layout.group parts)).toList
      (d.keepingAll.assemble id level own lead (d.layout.group parts')).toList := by
  obtain ⟨hleft, hright⟩ := h.traces_ne_nil
  have hbody : Diverge (own ++ lead ++ d.layout.group parts).toList
      (own ++ lead ++ d.layout.group parts').toList := by
    simpa using (d.layout.diverge_group h).append_left (own ++ lead).toList
  unfold assemble
  -- Neither of the groups is empty, so both nodes are put in parentheses, or none.
  rw [Layout.group_ne_empty hleft, Layout.group_ne_empty hright, String.toList_append,
    String.toList_append]
  refine Diverge.append_left _ ?_
  by_cases hencloses : d.encloses id = true
  · simpa [keepingAll, hencloses] using diverge_parentheses hbody
  · simpa [keepingAll, hencloses] using hbody

/-- A node with a group and the same node with a text directly after it. -/
theorem diverge_assemble_of_lead (id : NodeId) (level : Nat) (own : String) {lead : String}
    (hlead : BeginsBraced lead) {parts : List String}
    (hparts : traces parts ≠ []) (group : String) :
    Diverge (d.assemble id level own "" (d.layout.group parts)).toList
      (d.keepingAll.assemble id level own lead group).toList := by
  obtain ⟨after, hafter⟩ := hlead
  obtain ⟨more, hmore⟩ := d.layout.exists_group_eq hparts
  have hbody : Diverge (own ++ "" ++ d.layout.group parts).toList
      (own ++ lead ++ group).toList := by
    have hsigns : '>' ≠ '\x7b' := by decide
    simpa [hafter, hmore] using (Diverge.here hsigns more _).append_left own.toList
  unfold assemble
  rw [Layout.group_ne_empty hparts, String.toList_append, String.toList_append]
  refine Diverge.append_left _ ?_
  by_cases hencloses : d.encloses id = true
  · by_cases hgroup : group.isEmpty = true
    · -- Only the node with a group is put in parentheses.
      have hsigns : '(' ≠ '\x7b' := by decide
      simpa [keepingAll, hencloses, hgroup, hafter] using
        Diverge.of_around hsigns own.toList _ _
    · simpa [keepingAll, hencloses, hgroup] using diverge_parentheses hbody
  · simpa [keepingAll, hencloses] using hbody

/-! ## Section 5: Rows that shift -/

/-- What is written of plain text begins with a brace. -/
def Braces (d : Dialect α κ) : Prop :=
  ∀ id label, d.inlines label = true → Yields BeginsBraced (d.own id label)

theorem assemble_isEmpty (id : NodeId) (level : Nat) {own : String} (h : own ≠ "")
    (lead group : String) : (d.assemble id level own lead group).isEmpty = false := by
  rw [Bool.eq_false_iff, ne_eq, String.isEmpty_iff, assemble]
  split <;> simp [h]

theorem yields_render (hbraces : d.Braces) (level : Nat) :
    ∀ {tree : Tree α}, d.inlines tree.label = true → d.skips tree.label = false →
      Yields (fun text => text.isEmpty = false) (d.render level tree)
  | .node id label children, hinlines, hkept => by
    have hlabel : d.skips label = false := hkept
    rw [render, hlabel, if_neg Bool.false_ne_true]
    refine (hbraces id label hinlines).bind fun own hown => ?_
    have hne : own ≠ "" := by
      obtain ⟨rest, hrest⟩ := hown
      rintro rfl
      cases hrest
    exact (Yields.trivial _).bind fun below _ => .pure (assemble_isEmpty id level hne _ _)

/-- Of a row in which the first node that is not left out is plain text, something is to be seen. -/
theorem yields_traces (hbraces : d.Braces) (level : Nat) {trees : List (Tree α)}
    (hfind : (trees.find? fun tree => !d.skips tree.label).any (fun tree => d.inlines tree.label)) :
    Yields (fun parts => traces parts ≠ []) (d.renderEach level trees) := by
  induction trees with
  | nil => cases hfind
  | cons first rest ih =>
    by_cases hskips : d.skips first.label = true
    · rw [List.find?_cons_of_neg (by simp [hskips])] at hfind
      rw [renderEach, render_of_skips level hskips, pure_bind]
      exact (ih hfind).bind fun parts hparts => .pure (by rwa [traces_cons_empty])
    · rw [List.find?_cons_of_pos (by simp [hskips]), Option.any_some] at hfind
      have hkept : d.skips first.label = false := Bool.eq_false_iff.mpr hskips
      rw [renderEach]
      refine (yields_render hbraces level hfind hkept).bind fun part hpart => ?_
      exact (Yields.trivial _).bind fun parts _ => .pure (by simp [traces, hpart])

/-- A text that comes first in its row is written directly after the node above. -/
theorem yields_lead (hbraces : d.Braces) (level : Nat) {trees : List (Tree α)} {label : α}
    (hhead : trees.head?.map Tree.label = some label) (hinlines : d.inlines label = true) :
    Yields (fun below => BeginsBraced below.1) (d.renderBelow level trees) := by
  cases trees with
  | nil => cases hhead
  | cons first rest =>
    cases hhead
    rw [renderBelow, if_pos hinlines]
    refine (hbraces first.id first.label hinlines).bind fun lead hlead => ?_
    exact (Yields.trivial _).bind fun parts _ => .pure hlead

/-- In a row that shifts, the text stays among the trees below the node. -/
theorem yields_below_of_shifts (hbraces : d.Braces) (level : Nat) {rest : List (Tree α)}
    (hfind : (rest.find? fun tree => !d.skips tree.label).any (fun tree => d.inlines tree.label)) :
    Yields (fun below => below.1 = "" ∧ traces below.2 ≠ []) (do
      let parts ← d.renderEach level rest
      return ("", "" :: parts)) :=
  (yields_traces hbraces level hfind).bind fun parts hparts =>
    .pure ⟨rfl, by rwa [traces_cons_empty]⟩

/-- In the pruned row it is the text directly after the node. -/
theorem yields_lead_of_shifts (hbraces : d.Braces) (level : Nat) {rest : List (Tree α)}
    (hfind : (rest.find? fun tree => !d.skips tree.label).any (fun tree => d.inlines tree.label)) :
    Yields (fun below => BeginsBraced below.1)
      (d.keepingAll.renderBelow level (Tree.prunedEach d.skips rest)) := by
  obtain ⟨tree, htree, hinlines⟩ := (Option.any_eq_true _ _).mp hfind
  have hhead := head_prunedEach d.skips rest
  rw [htree] at hhead
  exact yields_lead (d := d.keepingAll) hbraces level hhead hinlines

/-- What is written below a node with and without the nodes that are left out: the same text
directly after the node and rows that diverge, or a text that has moved there from its row. -/
def DivergeBelow (below below' : String × List String) : Prop :=
  (below.1 = below'.1 ∧ DivergeEach below.2 below'.2) ∨
    (below.1 = "" ∧ traces below.2 ≠ [] ∧ BeginsBraced below'.1)

theorem diverge_assemble_below (id : NodeId) (level : Nat) (own : String)
    {below below' : String × List String} (h : DivergeBelow below below') :
    Diverge (d.assemble id level own below.1 (d.layout.group below.2)).toList
      (d.keepingAll.assemble id level own below'.1 (d.layout.group below'.2)).toList := by
  rcases h with ⟨hlead, hparts⟩ | ⟨hlead, hparts, hlead'⟩
  · rw [← hlead]
    exact diverge_assemble id level own below.1 hparts
  · rw [hlead]
    exact diverge_assemble_of_lead id level own hlead' hparts _

/-! ## Section 6: Trees -/

theorem settled_of_skips : ∀ {tree : Tree α}, d.skips tree.label = true → d.Settled tree
  | .node _ _ _, hskips => fun hkept => absurd hskips (by simp [Tree.label, hkept])

/-- Two rows whose first trees are written alike or diverge, as do the others. -/
theorem diverge_renderEach_cons {level : Nat} {first first' : Tree α} {rest rest' : List (Tree α)}
    (h : (d.render level first = d.keepingAll.render level first' ∧
        YieldsBoth DivergeEach (d.renderEach level rest) (d.keepingAll.renderEach level rest')) ∨
      YieldsBoth (fun s t => Diverge s.toList t.toList) (d.render level first)
        (d.keepingAll.render level first')) :
    YieldsBoth DivergeEach (d.renderEach level (first :: rest))
      (d.keepingAll.renderEach level (first' :: rest')) := by
  rw [renderEach, renderEach]
  rcases h with ⟨hfirst, hrest⟩ | hfirst
  · rw [hfirst]
    refine YieldsBoth.bind fun part => ?_
    simp only [bind_pure_comp]
    exact hrest.map fun parts parts' => DivergeEach.cons part
  · have hbegins : ∀ (m : Rendering κ (List String)) (part : String),
        Yields (fun parts => ∃ rest, parts = part :: rest) (do
          let rest ← m
          return part :: rest) :=
      fun m part => (Yields.trivial m).bind fun rest _ => .pure ⟨rest, rfl⟩
    refine hfirst.bind_of (hbegins _) (hbegins _) ?_
    rintro part part' _ _ hdiverge ⟨others, rfl⟩ ⟨others', rfl⟩
    exact DivergeEach.head hdiverge others others'

mutual

/-- If a row shifts in a tree, the notation of the tree diverges from that of the pruned one. -/
theorem diverge_render (hkeeps : ∀ label, d.inlines label = true → d.skips label = false)
    (hbraces : d.Braces) (level : Nat) :
    ∀ tree : Tree α, d.skips tree.label = false → ¬ d.Settled tree →
      YieldsBoth (fun s t => Diverge s.toList t.toList) (d.render level tree)
        (d.keepingAll.render level (tree.pruned d.skips))
  | .node id label children, hkept, hsettled => by
    have hlabel : d.skips label = false := hkept
    have hbelow := diverge_renderBelow hkeeps hbraces (level + 1) children fun hshifts hbelow =>
      hsettled fun _ => ⟨hshifts, hbelow⟩
    rw [render, Tree.pruned, render, if_neg (by simp [hlabel]), if_neg (by simp [keepingAll])]
    refine YieldsBoth.bind fun own => ?_
    simp only [bind_pure_comp]
    exact hbelow.map fun below below' => diverge_assemble_below id level own

theorem diverge_renderBelow (hkeeps : ∀ label, d.inlines label = true → d.skips label = false)
    (hbraces : d.Braces) (level : Nat) :
    ∀ trees : List (Tree α), (d.shifts trees = false → ¬ d.SettledBelow trees) →
      YieldsBoth DivergeBelow (d.renderBelow level trees)
        (d.keepingAll.renderBelow level (Tree.prunedEach d.skips trees))
  | [], hsettled => (hsettled rfl trivial).elim
  | first :: rest, hsettled => by
    by_cases hskips : d.skips first.label = true
    · have hinlines : ¬ d.inlines first.label = true := fun hinlines =>
        absurd hskips (by simp [hkeeps first.label hinlines])
      rw [Tree.prunedEach_cons_of_pos hskips, renderBelow, if_neg hinlines,
        render_of_skips level hskips, pure_bind]
      cases hshifts : d.shifts (first :: rest) with
      | true =>
        -- The text that moves to the front in the pruned row stays in this one.
        rw [shifts, hskips, Bool.true_and] at hshifts
        exact YieldsBoth.of_yields (yields_below_of_shifts hbraces level hshifts)
          (yields_lead_of_shifts hbraces level hshifts)
          fun below below' h hlead => Or.inr ⟨h.1, h.2, hlead⟩
      | false =>
        have hrest := diverge_renderEach hkeeps hbraces level rest fun hrest =>
          hsettled hshifts ⟨fun _ => settled_of_skips hskips, hrest⟩
        have hhead := inlines_head_of_shifts hskips hshifts
        rw [renderBelow_eq_renderEach (d := d.keepingAll) level hhead, bind_pure_comp]
        exact hrest.map fun parts parts' h => Or.inl ⟨rfl, h.cons_empty_left⟩
    · have hkept : d.skips first.label = false := Bool.eq_false_iff.mpr hskips
      have hbelow : ¬ d.SettledBelow (first :: rest) := hsettled (by simp [shifts, hkept])
      rw [Tree.prunedEach_cons_of_neg hskips]
      by_cases hinlines : d.inlines first.label = true
      · have hrest := diverge_renderEach hkeeps hbraces level rest fun hrest =>
          hbelow ⟨fun hnot => absurd hinlines (by simp [hnot]), hrest⟩
        rw [renderBelow, if_pos hinlines, renderBelow,
          if_pos (by simpa [keepingAll] using hinlines)]
        simp only [Tree.label_pruned, Tree.id_pruned, bind_pure_comp]
        exact YieldsBoth.bind fun lead => hrest.map fun parts parts' h => Or.inl ⟨rfl, h⟩
      · have hfalse : d.inlines first.label = false := Bool.eq_false_iff.mpr hinlines
        rw [renderBelow_eq_renderEach level (by simpa using hfalse),
          renderBelow_eq_renderEach (d := d.keepingAll) level
            (by simpa [keepingAll] using hfalse)]
        refine YieldsBoth.map (diverge_renderEach_cons ?_) fun parts parts' h => Or.inl ⟨rfl, h⟩
        by_cases hfirst : d.Settled first
        · exact Or.inl ⟨render_pruned hkeeps level first hkept hfirst,
            diverge_renderEach hkeeps hbraces level rest fun hrest =>
              hbelow ⟨fun _ => hfirst, hrest⟩⟩
        · exact Or.inr (diverge_render hkeeps hbraces level first hkept hfirst)

theorem diverge_renderEach (hkeeps : ∀ label, d.inlines label = true → d.skips label = false)
    (hbraces : d.Braces) (level : Nat) :
    ∀ trees : List (Tree α), ¬ d.SettledEach trees →
      YieldsBoth DivergeEach (d.renderEach level trees)
        (d.keepingAll.renderEach level (Tree.prunedEach d.skips trees))
  | [], hsettled => (hsettled trivial).elim
  | first :: rest, hsettled => by
    by_cases hskips : d.skips first.label = true
    · have hrest := diverge_renderEach hkeeps hbraces level rest fun hrest =>
        hsettled ⟨settled_of_skips hskips, hrest⟩
      rw [Tree.prunedEach_cons_of_pos hskips, renderEach, render_of_skips level hskips, pure_bind,
        bind_pure_comp, ← id_map (d.keepingAll.renderEach _ _)]
      exact hrest.map fun parts parts' h => h.cons_empty_left
    · have hkept : d.skips first.label = false := Bool.eq_false_iff.mpr hskips
      rw [Tree.prunedEach_cons_of_neg hskips]
      apply diverge_renderEach_cons
      by_cases hfirst : d.Settled first
      · exact Or.inl ⟨render_pruned hkeeps level first hkept hfirst,
          diverge_renderEach hkeeps hbraces level rest fun hrest => hsettled ⟨hfirst, hrest⟩⟩
      · exact Or.inr (diverge_render hkeeps hbraces level first hkept hfirst)

end

/-! ## Section 7: Forests -/

theorem diverge_convert (hkeeps : ∀ label, d.inlines label = true → d.skips label = false)
    (hbraces : d.Braces) {f : Forest α} (hf : f.WellFormed) (hsettled : ¬ d.SettledEach f.trees) :
    YieldsBoth (fun s t => Diverge s.toList t.toList) (d.convert f)
      (d.keepingAll.convert (f.pruned d.skips)) := by
  rw [convert_eq hf, convert_eq (hf.pruned d.skips), Forest.trees_pruned hf]
  simp only [bind_pure_comp]
  exact (diverge_renderEach hkeeps hbraces 0 f.trees hsettled).map
    fun parts parts' => Layout.diverge_join

/-- If a row shifts, the pruned forest has another notation. -/
theorem text_ne_of_not_settled (hkeeps : ∀ label, d.inlines label = true → d.skips label = false)
    (hbraces : d.Braces) {f : Forest α} (hf : f.WellFormed) (hsettled : ¬ d.SettledEach f.trees)
    {μ : Type} {tables : Ledger κ → μ} {a : Supply} {result result' : Conversion μ}
    (hleft : d.convertWith tables a f = .ok result)
    (hright : d.keepingAll.convertWith tables a (f.pruned d.skips) = .ok result') :
    result.text ≠ result'.text := by
  obtain ⟨text, after, htext, rfl⟩ := convertWith_eq_ok_iff.mp hleft
  obtain ⟨text', after', htext', rfl⟩ := convertWith_eq_ok_iff.mp hright
  have hdiverge := diverge_convert hkeeps hbraces hf hsettled _ text after text' after' htext htext'
  exact fun heq => hdiverge.ne (congrArg String.toList heq)

end Dialect

end Writing

end TreeNotation
