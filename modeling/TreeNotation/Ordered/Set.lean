/-!
# Insertion-Ordered Sets

Finite sets that remember the order in which their members were first inserted.

Main statements:
- `mem_insert`: inserting a member adds that member and nothing else;
- `insert_of_mem`: inserting a member that is already there changes nothing;
- `mem_ofList`: the set of a list has exactly the members of the list.
-/

namespace TreeNotation

/-- A finite set listed in order of first insertion. -/
structure OrderedSet (α : Type) where
  /-- The members, first inserted first. -/
  toList : List α
  /-- No member is listed twice. -/
  nodup : toList.Nodup

namespace OrderedSet

variable {α : Type}

/-- The set without members. -/
def empty : OrderedSet α := ⟨[], List.nodup_nil⟩

instance : Inhabited (OrderedSet α) := ⟨empty⟩

instance : Membership α (OrderedSet α) := ⟨fun s a => a ∈ s.toList⟩

theorem mem_def {s : OrderedSet α} {a : α} : a ∈ s ↔ a ∈ s.toList := Iff.rfl

@[ext]
theorem ext_toList {s t : OrderedSet α} (h : s.toList = t.toList) : s = t := by
  cases s; cases t; cases h; rfl

/-- Number of members. -/
def size (s : OrderedSet α) : Nat := s.toList.length

variable [DecidableEq α]

instance (s : OrderedSet α) (a : α) : Decidable (a ∈ s) :=
  inferInstanceAs (Decidable (a ∈ s.toList))

/-- Whether `a` is a member. -/
def contains (s : OrderedSet α) (a : α) : Bool := decide (a ∈ s)

/-- Adds `a` as the last member; a member that is already there keeps its place. -/
def insert (s : OrderedSet α) (a : α) : OrderedSet α :=
  if h : a ∈ s.toList then s
  else ⟨s.toList ++ [a], by
    refine List.nodup_append.2 ⟨s.nodup, by simp, ?_⟩
    rintro b hb c hc rfl
    exact h (List.mem_singleton.1 hc ▸ hb)⟩

/-- The set of the members of a list, each at its first position. -/
def ofList (l : List α) : OrderedSet α := l.foldl insert empty

/-- Removes a member; the others keep their order. -/
def erase (s : OrderedSet α) (a : α) : OrderedSet α := ⟨s.toList.erase a, s.nodup.erase a⟩

/-! ## Membership after each operation -/

theorem insert_of_mem {s : OrderedSet α} {a : α} (h : a ∈ s) : s.insert a = s :=
  dif_pos h

theorem toList_insert_of_not_mem {s : OrderedSet α} {a : α} (h : a ∉ s) :
    (s.insert a).toList = s.toList ++ [a] := by
  rw [insert, dif_neg (mt mem_def.2 h)]

@[simp]
theorem mem_insert {s : OrderedSet α} {a b : α} : b ∈ s.insert a ↔ b ∈ s ∨ b = a := by
  by_cases h : a ∈ s
  · rw [insert_of_mem h]
    constructor
    · exact Or.inl
    · rintro (hb | rfl)
      · exact hb
      · exact h
  · rw [mem_def, toList_insert_of_not_mem h, List.mem_append, List.mem_singleton, mem_def]

theorem mem_foldl_insert {l : List α} {s : OrderedSet α} {b : α} :
    b ∈ l.foldl insert s ↔ b ∈ s ∨ b ∈ l := by
  induction l generalizing s with
  | nil => simp
  | cons a l ih => rw [List.foldl_cons, ih, mem_insert, List.mem_cons, or_assoc]

@[simp]
theorem mem_ofList {l : List α} {b : α} : b ∈ ofList l ↔ b ∈ l := by
  rw [ofList, mem_foldl_insert]
  simp [mem_def, empty]

@[simp]
theorem toList_erase (s : OrderedSet α) (a : α) : (s.erase a).toList = s.toList.erase a := rfl

@[simp]
theorem contains_iff {s : OrderedSet α} {a : α} : s.contains a = true ↔ a ∈ s := by
  simp [contains]

end OrderedSet

end TreeNotation
