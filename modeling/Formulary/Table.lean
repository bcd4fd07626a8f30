/-!
# Tables of named things

A table binds names to things and remembers in which order they came. Binding a name that is bound
already changes what it is bound to and keeps its place; a name that was removed and comes back is
the last one.

Main statements: `find?_insert` and `find?_erase`, what a name is bound to after a change, and
`mem_keys_iff` and `mem_entries_iff`, that the names of a table are those with a binding, and its
entries are the bindings.
-/

namespace Formulary

/-- Names bound to things, in the order of their first binding. -/
structure Table (α : Type) where
  entries : List (String × α)
  nodup_keys : (entries.map (·.1)).Nodup

namespace Table

variable {α : Type}

/-- The table without names. -/
def empty : Table α := ⟨[], List.nodup_nil⟩

instance : Inhabited (Table α) := ⟨empty⟩

/-- The names, in order. -/
def keys (t : Table α) : List String := t.entries.map (·.1)

/-- The number of names. -/
def size (t : Table α) : Nat := t.entries.length

/-- What `k` is bound to in a list of entries. -/
def lookup (k : String) : List (String × α) → Option α
  | [] => none
  | (k', a) :: es => if k' = k then some a else lookup k es

/-- What a name is bound to. -/
def find? (t : Table α) (k : String) : Option α := lookup k t.entries

/-- Binds `k` to `a` where it stands in a list of entries, or behind the last one. -/
def insertEntry (k : String) (a : α) : List (String × α) → List (String × α)
  | [] => [(k, a)]
  | (k', a') :: es => if k' = k then (k, a) :: es else (k', a') :: insertEntry k a es

theorem mem_keys_insertEntry {k k' : String} {a : α} {es : List (String × α)} :
    k' ∈ (insertEntry k a es).map (·.1) ↔ k' = k ∨ k' ∈ es.map (·.1) := by
  induction es with
  | nil => simp [insertEntry]
  | cons e es ih =>
    obtain ⟨k₀, a₀⟩ := e
    by_cases h : k₀ = k
    · subst h; simp [insertEntry]
    · simp only [insertEntry, h, ↓reduceIte, List.map_cons, List.mem_cons, ih]
      constructor
      · rintro (h | h | h) <;> simp [h]
      · rintro (h | h | h) <;> simp [h]

theorem nodup_insertEntry (k : String) (a : α) {es : List (String × α)}
    (h : (es.map (·.1)).Nodup) : ((insertEntry k a es).map (·.1)).Nodup := by
  induction es with
  | nil => simp [insertEntry]
  | cons e es ih =>
    obtain ⟨k₀, a₀⟩ := e
    simp only [List.map_cons, List.nodup_cons] at h
    by_cases hk : k₀ = k
    · subst hk; simpa [insertEntry] using h
    · simp only [insertEntry, hk, ↓reduceIte, List.map_cons, List.nodup_cons]
      refine ⟨fun hm => ?_, ih h.2⟩
      rcases mem_keys_insertEntry.1 hm with hm | hm
      · exact hk hm
      · exact h.1 hm

/-- Binds a name. -/
def insert (t : Table α) (k : String) (a : α) : Table α :=
  ⟨insertEntry k a t.entries, nodup_insertEntry k a t.nodup_keys⟩

/-- Removes a name, if it is there. -/
def erase (t : Table α) (k : String) : Table α :=
  ⟨t.entries.filter (·.1 != k), t.nodup_keys.sublist (List.filter_sublist.map _)⟩

/-- The table with these bindings, made one after the other. -/
def ofList (es : List (String × α)) : Table α :=
  es.foldl (fun t (k, a) => t.insert k a) empty

/-! ## What is bound -/

@[simp] theorem find?_empty (k : String) : (empty : Table α).find? k = none := rfl

theorem find?_insert (t : Table α) (k k' : String) (a : α) :
    (t.insert k a).find? k' = if k = k' then some a else t.find? k' := by
  simp only [insert, find?]
  induction t.entries with
  | nil => rfl
  | cons e es ih =>
    obtain ⟨k₀, a₀⟩ := e
    by_cases h₀ : k₀ = k
    · subst h₀
      by_cases h : k₀ = k' <;> simp [insertEntry, lookup, h]
    · simp only [insertEntry, h₀, ↓reduceIte, lookup, ih]
      by_cases h : k₀ = k'
      · subst h; simp [Ne.symm h₀]
      · simp [h]

theorem find?_erase (t : Table α) (k k' : String) :
    (t.erase k).find? k' = if k = k' then none else t.find? k' := by
  simp only [erase, find?]
  induction t.entries with
  | nil => simp [lookup]
  | cons e es ih =>
    obtain ⟨k₀, a₀⟩ := e
    by_cases h₀ : k₀ = k
    · subst h₀
      by_cases h : k₀ = k' <;> simp_all [lookup]
    · by_cases h : k₀ = k'
      · subst h; simp [lookup, h₀, Ne.symm h₀]
      · simp [lookup, h₀, h, ih]

theorem mem_keys_iff {t : Table α} {k : String} : k ∈ t.keys ↔ ∃ a, t.find? k = some a := by
  simp only [keys, find?]
  induction t.entries with
  | nil => simp [lookup]
  | cons e es ih =>
    obtain ⟨k₀, a₀⟩ := e
    by_cases h : k₀ = k
    · subst h; simp [lookup]
    · simp [lookup, h, Ne.symm h, ih]

theorem mem_entries_iff {t : Table α} {k : String} {a : α} :
    (k, a) ∈ t.entries ↔ t.find? k = some a := by
  obtain ⟨es, hes⟩ := t
  simp only [find?]
  induction es with
  | nil => simp [lookup]
  | cons e es ih =>
    obtain ⟨k₀, a₀⟩ := e
    simp only [List.map_cons, List.nodup_cons] at hes
    by_cases h : k₀ = k
    · subst h
      have hmem : (k₀, a) ∉ es := fun hm => hes.1 (List.mem_map_of_mem hm)
      simp [lookup, hmem, eq_comm]
    · simp [lookup, h, Ne.symm h, ih hes.2]

theorem length_keys (t : Table α) : t.keys.length = t.size := by simp [keys, size]

end Table

end Formulary
