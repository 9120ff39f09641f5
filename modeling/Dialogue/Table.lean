/-!
# Tables

Values under names, in the order in which the names were first given. Giving a
name again changes its value and not its place: `find?_insert` and `keys_insert`
say what an insertion does to the values and to the order.
-/

namespace Dialogue

structure Table (α : Type) where
  entries : List (String × α) := []
  deriving DecidableEq, Repr

namespace Table

variable {α : Type}

def empty : Table α := {}

def keys (table : Table α) : List String := table.entries.map Prod.fst

def values (table : Table α) : List α := table.entries.map Prod.snd

def size (table : Table α) : Nat := table.entries.length

def isEmpty (table : Table α) : Bool := table.entries.isEmpty

def findIn (name : String) : List (String × α) → Option α
  | [] => none
  | (key, value) :: rest => if key = name then some value else findIn name rest

def find? (table : Table α) (name : String) : Option α := findIn name table.entries

def contains (table : Table α) (name : String) : Bool := (table.find? name).isSome

def insertIn (name : String) (value : α) : List (String × α) → List (String × α)
  | [] => [(name, value)]
  | (key, old) :: rest =>
    if key = name then (name, value) :: rest else (key, old) :: insertIn name value rest

def insert (table : Table α) (name : String) (value : α) : Table α :=
  ⟨insertIn name value table.entries⟩

/-- Later entries of a name replace the value of earlier ones. -/
def ofList (entries : List (String × α)) : Table α :=
  entries.foldl (fun table (name, value) => table.insert name value) empty

theorem findIn_insertIn (name other : String) (value : α) (entries : List (String × α)) :
    findIn other (insertIn name value entries) =
      if name = other then some value else findIn other entries := by
  induction entries with
  | nil => simp [insertIn, findIn]
  | cons entry rest ih =>
    obtain ⟨key, old⟩ := entry
    by_cases hk : key = name
    · subst hk
      by_cases ho : key = other
      · simp [insertIn, findIn, ho]
      · simp [insertIn, findIn, ho]
    · by_cases ho : key = other
      · subst ho
        simp [insertIn, findIn, hk, Ne.symm hk]
      · simp [insertIn, findIn, hk, ho, ih]

@[simp] theorem find?_insert (table : Table α) (name other : String) (value : α) :
    (table.insert name value).find? other = if name = other then some value else table.find? other :=
  findIn_insertIn name other value table.entries

@[simp] theorem find?_empty (name : String) : (empty : Table α).find? name = none := rfl

theorem isSome_findIn (name : String) (entries : List (String × α)) :
    (findIn name entries).isSome = true ↔ name ∈ entries.map Prod.fst := by
  induction entries with
  | nil => simp [findIn]
  | cons entry rest ih =>
    obtain ⟨key, value⟩ := entry
    by_cases hk : key = name
    · simp [findIn, hk]
    · simp [findIn, hk, Ne.symm hk, ih]

theorem contains_iff (table : Table α) (name : String) :
    table.contains name = true ↔ name ∈ table.keys :=
  isSome_findIn name table.entries

theorem keys_insertIn (name : String) (value : α) (entries : List (String × α)) :
    (insertIn name value entries).map Prod.fst =
      if name ∈ entries.map Prod.fst then entries.map Prod.fst
      else entries.map Prod.fst ++ [name] := by
  induction entries with
  | nil => simp [insertIn]
  | cons entry rest ih =>
    obtain ⟨key, old⟩ := entry
    by_cases hk : key = name
    · simp [insertIn, hk]
    · by_cases hm : name ∈ rest.map Prod.fst
      · rw [if_pos hm] at ih
        simp only [insertIn, if_neg hk, List.map_cons, ih, List.mem_cons, hm, or_true, if_true]
      · rw [if_neg hm] at ih
        simp only [insertIn, if_neg hk, List.map_cons, ih, List.mem_cons, hm, Ne.symm hk, or_false,
          if_false, List.cons_append]

/-- A new name goes to the end; a known one stays where it is. -/
theorem keys_insert (table : Table α) (name : String) (value : α) :
    (table.insert name value).keys =
      if name ∈ table.keys then table.keys else table.keys ++ [name] :=
  keys_insertIn name value table.entries

theorem find?_eq_none_iff (table : Table α) (name : String) :
    table.find? name = none ↔ name ∉ table.keys := by
  rw [← contains_iff, contains]
  cases table.find? name <;> simp

theorem exists_find?_of_mem_keys {table : Table α} {name : String} (h : name ∈ table.keys) :
    ∃ value, table.find? name = some value :=
  Option.isSome_iff_exists.mp ((isSome_findIn name table.entries).mpr h)

theorem insertIn_of_notMem (name : String) (value : α) {entries : List (String × α)}
    (h : name ∉ entries.map Prod.fst) : insertIn name value entries = entries ++ [(name, value)] := by
  induction entries with
  | nil => rfl
  | cons entry rest ih =>
    obtain ⟨key, old⟩ := entry
    simp only [List.map_cons, List.mem_cons, not_or] at h
    simp [insertIn, Ne.symm h.1, ih h.2]

theorem entries_insert {table : Table α} {name : String} (h : table.find? name = none) (value : α) :
    (table.insert name value).entries = table.entries ++ [(name, value)] :=
  insertIn_of_notMem name value ((find?_eq_none_iff table name).mp h)

theorem mem_of_findIn {name : String} {value : α} {entries : List (String × α)}
    (h : findIn name entries = some value) : (name, value) ∈ entries := by
  induction entries with
  | nil => simp [findIn] at h
  | cons entry rest ih =>
    obtain ⟨key, old⟩ := entry
    by_cases hk : key = name
    · simp only [findIn, if_pos hk, Option.some.injEq] at h
      simp [hk, h]
    · simp only [findIn, if_neg hk] at h
      exact List.mem_cons_of_mem _ (ih h)

theorem mem_of_find? {table : Table α} {name : String} {value : α}
    (h : table.find? name = some value) : (name, value) ∈ table.entries :=
  mem_of_findIn h

theorem findIn_of_mem {name : String} {value : α} {entries : List (String × α)}
    (hkeys : (entries.map Prod.fst).Nodup) (h : (name, value) ∈ entries) :
    findIn name entries = some value := by
  induction entries with
  | nil => simp at h
  | cons entry rest ih =>
    obtain ⟨key, old⟩ := entry
    simp only [List.map_cons, List.nodup_cons] at hkeys
    rcases List.mem_cons.mp h with heq | hrest
    · cases heq
      simp [findIn]
    · have hne : key ≠ name := by
        rintro rfl
        exact hkeys.1 (List.mem_map.mpr ⟨_, hrest, rfl⟩)
      simp [findIn, hne, ih hkeys.2 hrest]

theorem find?_of_mem {table : Table α} {name : String} {value : α} (hkeys : table.keys.Nodup)
    (h : (name, value) ∈ table.entries) : table.find? name = some value :=
  findIn_of_mem hkeys h

end Table

end Dialogue
