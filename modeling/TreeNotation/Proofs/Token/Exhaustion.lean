import Mathlib.Data.Finset.Card
import TreeNotation.Proofs.Token.Assignment

/-!
# Running out of Names

Whether a vocabulary is enough for some keys can be told by counting both, but for one case: with as
many names as keys, only one name is left for the last key, and that name may be its own text.

- **Books**: `Fills` says that a book has a name for each key, and `assign_cases` follows a run to
  its end or to the key that no name is left for;
- **Counting**: `exists_assign_of_card_lt` and `assign_exhausted_of_card_lt`;
- **Boundary**: `exists_last_new` splits a list at the last key that is new, and `assign_last` says
  what becomes of that one;
- **Main result**: `Decided` puts the three cases together, and `Decided.of_map_eq` carries them to
  all that succeeds and fails as an assignment does.
-/

namespace TreeNotation.Token

variable {κ : Type} {names : List String} {literal : κ → String} {keys : List κ}
  {book : List (κ × String)}

/-! ## Section 1: Books -/

/-- The names of a vocabulary that no key has. -/
def unused (names : List String) (book : List (κ × String)) : Finset String :=
  names.toFinset \ (book.map Prod.snd).toFinset

/-- The book has a name for each of the keys and for nothing else. The names are different names of
the vocabulary. -/
structure Fills (names : List String) (keys : List κ) (book : List (κ × String)) : Prop where
  mem_iff : ∀ key, key ∈ book.map Prod.fst ↔ key ∈ keys
  nodup_keys : (book.map Prod.fst).Nodup
  nodup_names : (book.map Prod.snd).Nodup
  subset : book.map Prod.snd ⊆ names

theorem mem_unused_iff {name : String} :
    name ∈ unused names book ↔ name ∈ names ∧ name ∉ book.map Prod.snd := by
  rw [unused, Finset.mem_sdiff, List.mem_toFinset, List.mem_toFinset]

theorem Fills.card_unused (h : Fills names keys book) :
    (unused names book).card + book.length = names.toFinset.card := by
  have hsubset : (book.map Prod.snd).toFinset ⊆ names.toFinset := by
    intro name hname
    exact List.mem_toFinset.mpr (h.subset (List.mem_toFinset.mp hname))
  have hcard := Finset.card_sdiff_add_card_eq_card hsubset
  rwa [List.toFinset_card_of_nodup h.nodup_names, List.length_map] at hcard

/-- A book with one more key and an unused name for it. -/
theorem Fills.append (h : Fills names keys book) {key : κ} {name : String} (hnew : key ∉ keys)
    (hname : name ∈ unused names book) :
    Fills names (keys ++ [key]) (book ++ [(key, name)]) := by
  obtain ⟨hmem, hfree⟩ := mem_unused_iff.mp hname
  refine ⟨fun other => ?mem, ?keys, ?names, ?subset⟩
  case mem => simp only [List.map_append, List.mem_append, h.mem_iff, List.map_singleton]
  case keys =>
    rw [List.map_append, List.map_singleton, ← List.concat_eq_append]
    exact h.nodup_keys.concat fun hold => hnew ((h.mem_iff key).mp hold)
  case names =>
    rw [List.map_append, List.map_singleton, ← List.concat_eq_append]
    exact h.nodup_names.concat hfree
  case subset =>
    rw [List.map_append, List.map_singleton]
    exact List.append_subset.mpr ⟨h.subset, by simpa using hmem⟩

variable [DecidableEq κ]

theorem Fills.length_eq (h : Fills names keys book) : book.length = keys.toFinset.card := by
  have hkeys : keys.toFinset = (book.map Prod.fst).toFinset := by
    ext key
    rw [List.mem_toFinset, List.mem_toFinset, h.mem_iff]
  rw [hkeys, List.toFinset_card_of_nodup h.nodup_keys, List.length_map]

/-- A new key gets an unused name that is not its own text, unless there is none. -/
theorem enter_of_not_mem (names : List String) (literal : κ → String) {key : κ}
    (hnew : key ∉ book.map Prod.fst) :
    (∃ name ∈ unused names book, name ≠ literal key ∧
      enter names literal book key = .ok (book ++ [(key, name)])) ∨
    ((∀ name ∈ unused names book, name = literal key) ∧
      enter names literal book key = .error (.exhausted book.length)) := by
  rw [enter, if_neg hnew]
  cases hfind : names.find? fun name => name ∉ book.map Prod.snd && name ≠ literal key with
  | some name =>
    have hallowed := List.find?_some hfind
    rw [Bool.and_eq_true, decide_eq_true_iff, decide_eq_true_iff] at hallowed
    have hmem := mem_unused_iff.mpr ⟨List.mem_of_find?_eq_some hfind, hallowed.1⟩
    exact .inl ⟨name, hmem, hallowed.2, rfl⟩
  | none =>
    refine .inr ⟨fun name hname => ?_, rfl⟩
    obtain ⟨hname, hfree⟩ := mem_unused_iff.mp hname
    have hrefused := List.find?_eq_none.mp hfind name hname
    by_contra hne
    exact hrefused (by simp only [hfree, hne, not_false_eq_true, ne_eq, decide_true, Bool.and_self])

theorem assign_append (earlier later : List κ) :
    assign names literal (earlier ++ later) =
      assign names literal earlier >>= fun book => later.foldlM (enter names literal) book :=
  List.foldlM_append

theorem assign_concat (h : assign names literal keys = .ok book) (key : κ) :
    assign names literal (keys ++ [key]) = enter names literal book key := by
  rw [assign_append, h]
  exact bind_pure (enter names literal book key)

/-- An assignment comes to its end, or to a key that no name is left for but its own text. -/
theorem assign_cases (names : List String) (literal : κ → String) (keys : List κ) :
    (∃ book, assign names literal keys = .ok book ∧ Fills names keys book) ∨
    ∃ earlier last rest book, keys = earlier ++ last :: rest ∧ last ∉ earlier ∧
      Fills names earlier book ∧ (∀ name ∈ unused names book, name = literal last) ∧
      assign names literal keys = .error (.exhausted book.length) := by
  -- The induction adds keys at the end, as the run does.
  induction keys using List.reverseRecOn with
  | nil => exact .inl ⟨[], rfl, ⟨by simp, List.nodup_nil, List.nodup_nil, List.nil_subset _⟩⟩
  | append_singleton keys key ih =>
    rcases ih with ⟨book, hassign, hfills⟩ | ⟨earlier, last, rest, book, hkeys, ih⟩
    · have hstep := assign_concat hassign key
      by_cases hold : key ∈ keys
      · -- The key has its name already.
        have henter : enter names literal book key = .ok book :=
          if_pos ((hfills.mem_iff key).mpr hold)
        refine .inl ⟨book, hstep.trans henter, fun other => ?_, hfills.nodup_keys,
          hfills.nodup_names, hfills.subset⟩
        rw [hfills.mem_iff, List.mem_append, List.mem_singleton, or_iff_left_of_imp]
        intro hother
        exact hother ▸ hold
      · have hnew : key ∉ book.map Prod.fst := fun hmem => hold ((hfills.mem_iff key).mp hmem)
        rcases enter_of_not_mem names literal hnew with
          ⟨name, hname, -, henter⟩ | ⟨hown, henter⟩
        · exact .inl ⟨_, hstep.trans henter, hfills.append hold hname⟩
        · exact .inr ⟨keys, key, [], book, rfl, hold, hfills, hown, hstep.trans henter⟩
    · -- The run has come to an end before.
      obtain ⟨hlast, hfills, hown, hassign⟩ := ih
      refine .inr ⟨earlier, last, rest ++ [key], book, ?_, hlast, hfills, hown, ?_⟩
      · rw [hkeys, List.append_assoc, List.cons_append]
      · rw [assign_append, hassign]
        rfl

/-! ## Section 2: Counting -/

theorem card_lt_card_append {earlier : List κ} {last : κ} (hlast : last ∉ earlier)
    (rest : List κ) :
    earlier.toFinset.card < (earlier ++ last :: rest).toFinset.card := by
  have hinsert : insert last earlier.toFinset ⊆ (earlier ++ last :: rest).toFinset := by
    intro key hkey
    rw [Finset.mem_insert, List.mem_toFinset] at hkey
    rw [List.mem_toFinset, List.mem_append, List.mem_cons]
    exact hkey.elim (fun h => .inr (.inl h)) .inl
  have hcard := Finset.card_le_card hinsert
  rwa [Finset.card_insert_of_notMem (mt List.mem_toFinset.mp hlast)] at hcard

/-- With a name to spare, all keys get one. -/
theorem exists_assign_of_card_lt (literal : κ → String)
    (h : keys.toFinset.card < names.toFinset.card ∨ keys.toFinset.card = 0) :
    ∃ book, assign names literal keys = .ok book ∧ Fills names keys book := by
  rcases assign_cases names literal keys with hok | ⟨earlier, last, rest, book, hkeys, hfail⟩
  · exact hok
  · exfalso
    obtain ⟨hlast, hfills, hown, -⟩ := hfail
    have hearlier := card_lt_card_append hlast rest
    rw [← hkeys, ← hfills.length_eq] at hearlier
    -- All names but one at most have gone to the keys before.
    have hleft : (unused names book).card ≤ 1 := by
      apply Finset.card_le_one.mpr
      intro name hname other hother
      rw [hown name hname, hown other hother]
    have hcard := hfills.card_unused
    omega

theorem assign_exhausted_of_card_lt (h : names.toFinset.card < keys.toFinset.card) :
    ∃ issued, assign names literal keys = .error (.exhausted issued) := by
  rcases assign_cases names literal keys with ⟨book, -, hfills⟩ | ⟨_, _, _, book, -, hfail⟩
  · -- So many different names there are not.
    have hcard := hfills.card_unused
    rw [hfills.length_eq] at hcard
    omega
  · exact ⟨_, hfail.2.2.2⟩

/-! ## Section 3: As many keys as names -/

/-- The last key of a list that does not come before: all keys after it do. -/
theorem exists_last_new (h : keys ≠ []) : ∃ earlier last rest, keys = earlier ++ last :: rest ∧
    last ∉ earlier ∧ ∀ key ∈ rest, key ∈ earlier ∨ key = last := by
  induction keys using List.reverseRecOn with
  | nil => exact absurd rfl h
  | append_singleton keys key ih =>
    by_cases hold : key ∈ keys
    · obtain ⟨earlier, last, rest, hkeys, hlast, hrest⟩ := ih (List.ne_nil_of_mem hold)
      refine ⟨earlier, last, rest ++ [key], ?_, hlast, fun other hother => ?_⟩
      · rw [hkeys, List.append_assoc, List.cons_append]
      · rcases List.mem_append.mp hother with hother | hother
        · exact hrest other hother
        · -- A key that comes again comes before the last new one, is that one or comes after it.
          rw [List.mem_singleton.mp hother]
          rw [hkeys, List.mem_append, List.mem_cons] at hold
          rcases hold with hold | hold | hold
          · exact .inl hold
          · exact .inr hold
          · exact hrest key hold
    · exact ⟨keys, key, [], rfl, hold, by simp⟩

theorem foldlM_enter_of_mem (h : ∀ key ∈ keys, key ∈ book.map Prod.fst) :
    keys.foldlM (enter names literal) book = .ok book := by
  induction keys with
  | nil => rfl
  | cons key keys ih =>
    have henter : enter names literal book key = .ok book := if_pos (h key List.mem_cons_self)
    rw [List.foldlM_cons, henter]
    exact ih fun other hother => h other (List.mem_cons_of_mem key hother)

/-- With one name left for the last key that is new, that name has to be another text. -/
theorem assign_last {earlier rest : List κ} {last : κ} {name : String} (hlast : last ∉ earlier)
    (hrest : ∀ key ∈ rest, key ∈ earlier ∨ key = last)
    (hassign : assign names literal earlier = .ok book) (hfills : Fills names earlier book)
    (hleft : unused names book = {name}) :
    assign names literal (earlier ++ last :: rest) =
      if name = literal last then .error (.exhausted book.length)
      else .ok (book ++ [(last, name)]) := by
  have hnew : last ∉ book.map Prod.fst := fun hmem => hlast ((hfills.mem_iff last).mp hmem)
  have hstep : assign names literal (earlier ++ last :: rest) =
      enter names literal book last >>= fun filled =>
        rest.foldlM (enter names literal) filled := by
    rw [assign_append, hassign]
    rfl
  rw [hstep]
  rcases enter_of_not_mem names literal hnew with
    ⟨other, hother, hne, henter⟩ | ⟨hown, henter⟩
  · rw [hleft, Finset.mem_singleton] at hother
    rw [hother] at hne henter
    rw [if_neg hne, henter]
    -- The keys after it have their names.
    apply foldlM_enter_of_mem
    intro key hkey
    rw [List.map_append, List.mem_append, hfills.mem_iff]
    exact (hrest key hkey).imp_right List.mem_singleton.mpr
  · rw [if_pos (hown name (hleft ▸ Finset.mem_singleton_self name)), henter]
    rfl

/-! ## Section 4: All cases -/

/-- What becomes of something that needs names for some keys, by the number of different keys and
of different names. -/
structure Decided {ρ : Type} (names : List String) (literal : κ → String) (keys : List κ)
    (outcome : Except Error ρ) : Prop where
  spare : keys.toFinset.card < names.toFinset.card ∨ keys.toFinset.card = 0 →
    ∃ result, outcome = .ok result
  scarce : names.toFinset.card < keys.toFinset.card → ∃ issued, outcome = .error (.exhausted issued)
  /-- Nothing but a lack of names makes it fail. -/
  exhausted : ∀ e, outcome = .error e → ∃ issued, e = .exhausted issued
  /-- One name is left when the last key comes that is new, and it is the text of that key or
  not. -/
  tight : keys.toFinset.card = names.toFinset.card → 0 < names.toFinset.card →
    ∃ earlier last rest book name, keys = earlier ++ last :: rest ∧ last ∉ earlier ∧
      (∀ key ∈ rest, key ∈ earlier ∨ key = last) ∧ assign names literal earlier = .ok book ∧
      (∀ other, other ∈ names ∧ other ∉ book.map Prod.snd ↔ other = name) ∧
      if name = literal last then ∃ issued, outcome = .error (.exhausted issued)
      else ∃ result, outcome = .ok result

theorem decided_assign (names : List String) (literal : κ → String) (keys : List κ) :
    Decided names literal keys (assign names literal keys) where
  spare h := (exists_assign_of_card_lt literal h).imp fun _ => And.left
  scarce := assign_exhausted_of_card_lt
  exhausted e he := by
    rcases assign_cases names literal keys with ⟨_, hok, -⟩ | ⟨_, _, _, book, -, -, -, -, hfail⟩
    · cases he.symm.trans hok
    · exact ⟨book.length, Except.error.inj (he.symm.trans hfail)⟩
  tight hcard hpos := by
    have hne : keys ≠ [] := by
      intro hnil
      rw [← hcard, hnil] at hpos
      exact Nat.lt_irrefl 0 hpos
    obtain ⟨earlier, last, rest, hkeys, hlast, hrest⟩ := exists_last_new hne
    -- The keys before the last one are one less, so there are names enough for them.
    have hinsert : keys.toFinset = insert last earlier.toFinset := by
      ext key
      have := hrest key
      simp only [hkeys, List.mem_toFinset, List.mem_append, List.mem_cons, Finset.mem_insert]
      tauto
    have hearlier : earlier.toFinset.card + 1 = names.toFinset.card := by
      rw [← hcard, hinsert, Finset.card_insert_of_notMem (mt List.mem_toFinset.mp hlast)]
    obtain ⟨book, hassign, hfills⟩ := exists_assign_of_card_lt literal
      (.inl (Nat.lt_of_succ_le (Nat.le_of_eq hearlier)))
    have hone : (unused names book).card = 1 := by
      have hunused := hfills.card_unused
      rw [hfills.length_eq] at hunused
      omega
    obtain ⟨name, hleft⟩ := Finset.card_eq_one.mp hone
    refine ⟨earlier, last, rest, book, name, hkeys, hlast, hrest, hassign, fun other => ?_, ?_⟩
    · rw [← mem_unused_iff, hleft, Finset.mem_singleton]
    · rw [hkeys, assign_last hlast hrest hassign hfills hleft]
      split
      case isTrue => exact ⟨_, rfl⟩
      case isFalse => exact ⟨_, rfl⟩

section Outcomes

variable {ρ σ ν : Type} {outcome : Except Error ρ} {decided : Except Error σ} {f : ρ → ν}
  {g : σ → ν}

theorem exists_ok_of_map_eq (h : outcome.map f = decided.map g) :
    (∃ result, decided = .ok result) → ∃ result, outcome = .ok result := by
  intro hok
  obtain ⟨result, rfl⟩ := hok
  cases outcome with
  | ok result => exact ⟨result, rfl⟩
  | error e => cases h

theorem eq_error_iff_of_map_eq (h : outcome.map f = decided.map g) {e : Error} :
    outcome = .error e ↔ decided = .error e := by
  -- A failure is left alone on both sides.
  cases outcome with
  | ok result =>
    cases decided with
    | ok other => exact iff_of_false nofun nofun
    | error other => cases h
  | error failure =>
    cases decided with
    | ok other => cases h
    | error other =>
      have hsame : failure = other := Except.error.inj h
      rw [Except.error.injEq, Except.error.injEq, hsame]

/-- What succeeds and fails together with something else is decided like it. -/
theorem Decided.of_map_eq (hdecided : Decided names literal keys decided)
    (h : outcome.map f = decided.map g) : Decided names literal keys outcome where
  spare hcard := exists_ok_of_map_eq h (hdecided.spare hcard)
  scarce hcard := (hdecided.scarce hcard).imp fun _ => (eq_error_iff_of_map_eq h).mpr
  exhausted e he := hdecided.exhausted e ((eq_error_iff_of_map_eq h).mp he)
  tight hcard hpos := by
    obtain ⟨earlier, last, rest, book, name, hkeys, hlast, hrest, hassign, hleft, hend⟩ :=
      hdecided.tight hcard hpos
    refine ⟨earlier, last, rest, book, name, hkeys, hlast, hrest, hassign, hleft, ?_⟩
    split
    case isTrue hown =>
      rw [if_pos hown] at hend
      exact hend.imp fun _ => (eq_error_iff_of_map_eq h).mpr
    case isFalse hother =>
      rw [if_neg hother] at hend
      exact exists_ok_of_map_eq h hend

end Outcomes

end TreeNotation.Token
