/-!
# Insertion-Ordered Maps

Finite maps that list their entries in order of first insertion. Inserting a key that is
already present replaces its value and keeps its place.

Main statements:
- `keys_insert`: the key list grows at its end, and only by a new key;
- `get?_insert`: looking a key up after an insertion;
- `entries_ofList`: a list that repeats no key is the list of entries of its map;
- `insert_of_mem`: storing a value under a key that is present changes that one value.
-/

namespace TreeNotation

/-- A finite map listed in order of first insertion. -/
structure OrderedMap (κ ν : Type) where
  /-- The entries, first inserted first. -/
  entries : List (κ × ν)
  /-- No key is listed twice. -/
  nodup_keys : (entries.map Prod.fst).Nodup

namespace OrderedMap

variable {κ ν : Type}

/-- The map without entries. -/
def empty : OrderedMap κ ν := ⟨[], List.nodup_nil⟩

instance : Inhabited (OrderedMap κ ν) := ⟨empty⟩

@[ext]
theorem ext_entries {m n : OrderedMap κ ν} (h : m.entries = n.entries) : m = n := by
  cases m; cases n; cases h; rfl

/-- The keys in order of first insertion. -/
def keys (m : OrderedMap κ ν) : List κ := m.entries.map Prod.fst

/-- Number of entries. -/
def size (m : OrderedMap κ ν) : Nat := m.entries.length

/-- Whether the map has no entry. -/
def isEmpty (m : OrderedMap κ ν) : Bool := m.entries.isEmpty

/-- The entries that satisfy `p`, in their order. -/
def filter (p : κ → ν → Bool) (m : OrderedMap κ ν) : OrderedMap κ ν :=
  ⟨m.entries.filter fun e => p e.1 e.2, (List.filter_sublist.map Prod.fst).nodup m.nodup_keys⟩

/-- The same keys with each value replaced by `f` of its entry. -/
def mapValues {μ : Type} (f : κ → ν → μ) (m : OrderedMap κ ν) : OrderedMap κ μ :=
  ⟨m.entries.map fun e => (e.1, f e.1 e.2), by
    simpa [List.map_map, Function.comp_def] using m.nodup_keys⟩

variable [DecidableEq κ]

/-- The value stored under `key`. -/
def get? (m : OrderedMap κ ν) (key : κ) : Option ν :=
  (m.entries.find? fun e => e.1 = key).map Prod.snd

/-- Replaces the value of the first entry under `key`, or adds an entry at the end. -/
def upsert (key : κ) (value : ν) : List (κ × ν) → List (κ × ν)
  | [] => [(key, value)]
  | e :: rest => if e.1 = key then (key, value) :: rest else e :: upsert key value rest

theorem map_fst_upsert (key : κ) (value : ν) (l : List (κ × ν)) :
    (upsert key value l).map Prod.fst =
      if key ∈ l.map Prod.fst then l.map Prod.fst else l.map Prod.fst ++ [key] := by
  induction l with
  | nil => rfl
  | cons e rest ih =>
    by_cases h : e.1 = key
    · simp [upsert, h]
    · have h' : ¬ key = e.1 := fun hk => h hk.symm
      by_cases hk : key ∈ rest.map Prod.fst
      · simp only [upsert, h, if_false, List.map_cons, ih, hk, if_true, List.mem_cons, or_true]
      · simp only [upsert, h, if_false, List.map_cons, ih, hk, List.mem_cons, h', or_self,
          List.cons_append]

/-- Stores `value` under `key`: in place if the key is present, else as the last entry. -/
def insert (m : OrderedMap κ ν) (key : κ) (value : ν) : OrderedMap κ ν :=
  ⟨upsert key value m.entries, by
    rw [map_fst_upsert]
    split
    · exact m.nodup_keys
    · next h =>
      refine List.nodup_append.2 ⟨m.nodup_keys, by simp, ?_⟩
      rintro a ha b hb rfl
      exact h (List.mem_singleton.1 hb ▸ ha)⟩

/-- The map built by inserting the pairs of a list from left to right. -/
def ofList (l : List (κ × ν)) : OrderedMap κ ν :=
  l.foldl (fun m e => m.insert e.1 e.2) empty

/-! ## Keys and look-up after an insertion -/

theorem keys_insert (m : OrderedMap κ ν) (key : κ) (value : ν) :
    (m.insert key value).keys = if key ∈ m.keys then m.keys else m.keys ++ [key] :=
  map_fst_upsert key value m.entries

theorem find?_upsert (key key' : κ) (value : ν) (l : List (κ × ν)) :
    ((upsert key value l).find? fun e => e.1 = key').map Prod.snd =
      if key = key' then some value else (l.find? fun e => e.1 = key').map Prod.snd := by
  induction l with
  | nil => by_cases h : key = key' <;> simp [upsert, h]
  | cons e rest ih =>
    by_cases he : e.1 = key
    · by_cases h : key = key'
      · simp [upsert, he, h]
      · simp [upsert, he, h]
    · rw [upsert, if_neg he, List.find?_cons, List.find?_cons]
      by_cases h : e.1 = key'
      · have hk : ¬ key = key' := fun hk => he (h.trans hk.symm)
        simp [h, hk]
      · simpa [h] using ih

@[simp]
theorem get?_insert (m : OrderedMap κ ν) (key key' : κ) (value : ν) :
    (m.insert key value).get? key' = if key = key' then some value else m.get? key' :=
  find?_upsert key key' value m.entries

theorem get?_eq_none_iff {m : OrderedMap κ ν} {key : κ} : m.get? key = none ↔ key ∉ m.keys := by
  unfold get? keys
  rw [Option.map_eq_none_iff, List.find?_eq_none]
  simp only [decide_eq_true_eq, List.mem_map]
  constructor
  · rintro h ⟨e, he, rfl⟩
    exact h e he rfl
  · rintro h e he rfl
    exact h ⟨e, he, rfl⟩

theorem get?_eq_some_iff {m : OrderedMap κ ν} {key : κ} {value : ν} :
    m.get? key = some value ↔ (key, value) ∈ m.entries := by
  obtain ⟨entries, hnodup⟩ := m
  unfold get?
  simp only
  induction entries with
  | nil => simp
  | cons e rest ih =>
    rw [List.map_cons, List.nodup_cons] at hnodup
    rw [List.find?_cons]
    by_cases h : e.1 = key
    · -- The key of the first entry comes no second time.
      have hrest : (key, value) ∉ rest := fun hmem => hnodup.1 (h ▸ List.mem_map_of_mem hmem)
      obtain ⟨first, second⟩ := e
      cases h
      simp [hrest, eq_comm]
    · have hne : (key, value) ≠ e := by rintro rfl; exact h rfl
      simpa [h, hne] using ih hnodup.2

/-! ## Entries after an insertion -/

theorem upsert_of_not_mem {key : κ} {l : List (κ × ν)} (h : key ∉ l.map Prod.fst) (value : ν) :
    upsert key value l = l ++ [(key, value)] := by
  induction l with
  | nil => rfl
  | cons e rest ih =>
    simp only [List.map_cons, List.mem_cons, not_or] at h
    rw [upsert, if_neg fun heq => h.1 heq.symm, ih h.2, List.cons_append]

theorem entries_insert_of_not_mem {m : OrderedMap κ ν} {key : κ} (h : key ∉ m.keys) (value : ν) :
    (m.insert key value).entries = m.entries ++ [(key, value)] :=
  upsert_of_not_mem h value

theorem entries_foldl_insert {l : List (κ × ν)} {m : OrderedMap κ ν}
    (h : (m.keys ++ l.map Prod.fst).Nodup) :
    (l.foldl (fun m e => m.insert e.1 e.2) m).entries = m.entries ++ l := by
  induction l generalizing m with
  | nil => simp
  | cons e rest ih =>
    have hnew : e.1 ∉ m.keys := by
      intro hmem
      have := (List.nodup_append.mp h).2.2 e.1 hmem e.1 (by simp)
      exact this rfl
    have hentries := entries_insert_of_not_mem hnew e.2
    rw [List.foldl_cons, ih, hentries, List.append_assoc, List.singleton_append]
    rw [keys_insert, if_neg hnew, List.append_assoc]
    exact h

/-- A list that repeats no key is the list of entries of its map. -/
theorem entries_ofList {l : List (κ × ν)} (h : (l.map Prod.fst).Nodup) :
    (ofList l).entries = l := by
  rw [ofList, entries_foldl_insert (by simpa [keys, empty] using h)]
  rfl

/-! ## Values changed in place -/

theorem get?_mapValues {μ : Type} (f : κ → ν → μ) (m : OrderedMap κ ν) (key : κ) :
    (m.mapValues f).get? key = (m.get? key).map (f key) := by
  unfold get? mapValues
  simp only
  induction m.entries with
  | nil => rfl
  | cons e rest ih =>
    rw [List.map_cons, List.find?_cons, List.find?_cons]
    by_cases h : e.1 = key
    · simp [h]
    · simpa [h] using ih

theorem upsert_of_mem {key : κ} {l : List (κ × ν)} (h : key ∈ l.map Prod.fst)
    (hnodup : (l.map Prod.fst).Nodup) (value : ν) :
    upsert key value l = l.map fun e => (e.1, if e.1 = key then value else e.2) := by
  induction l with
  | nil => cases h
  | cons e rest ih =>
    rw [List.map_cons, List.nodup_cons] at hnodup
    rw [List.map_cons] at h
    by_cases hkey : e.1 = key
    · -- No other entry has this key.
      have hrest : rest.map (fun e => (e.1, if e.1 = key then value else e.2)) = rest := by
        rw [List.map_congr_left (g := id), List.map_id]
        intro other hother
        have hne : other.1 ≠ key := by
          rintro rfl
          exact hnodup.1 (hkey ▸ List.mem_map_of_mem hother)
        rw [if_neg hne]
        rfl
      rw [upsert, if_pos hkey, List.map_cons, if_pos hkey, hrest, hkey]
    · have hmem : key ∈ rest.map Prod.fst := by
        rcases List.mem_cons.mp h with heq | hmem
        · exact absurd heq.symm hkey
        · exact hmem
      rw [upsert, if_neg hkey, List.map_cons, if_neg hkey, ih hmem hnodup.2]

/-- Storing a value under a key that is present changes that one value. -/
theorem insert_of_mem {m : OrderedMap κ ν} {key : κ} (h : key ∈ m.keys) (value : ν) :
    m.insert key value = m.mapValues fun other old => if other = key then value else old :=
  ext_entries (upsert_of_mem h m.nodup_keys value)

end OrderedMap

end TreeNotation
