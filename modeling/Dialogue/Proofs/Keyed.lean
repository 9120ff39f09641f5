import Dialogue.Proofs.Plan
import Mathlib.Data.List.Nodup

/-!
# Scripts whose nodes go by their keys

Both ways of making a script give every node the name that it is kept under and
keep no two nodes under one name (`Script.keyed_ofNodes`, `Node.keyed_tableOf`).
In such a script the nodes that are compiled are the entry node and the others,
all of different names.
-/

namespace Dialogue

-- ---------------------------------------------------------------------------
-- Tables
-- ---------------------------------------------------------------------------

namespace Table

def map (f : α → β) (table : Table α) : Table β :=
  ⟨table.entries.map fun entry => (entry.1, f entry.2)⟩

@[simp] theorem size_map (f : α → β) (table : Table α) : (table.map f).size = table.size :=
  List.length_map _

theorem find?_map (f : α → β) (table : Table α) (name : String) :
    (table.map f).find? name = (table.find? name).map f := by
  obtain ⟨entries⟩ := table
  show findIn name (entries.map _) = (findIn name entries).map f
  induction entries with
  | nil => rfl
  | cons entry rest ih =>
    rw [List.map_cons, findIn, findIn]
    split
    · rfl
    · exact ih

theorem map_insert (f : α → β) {table : Table α} (h : table.find? name = none) (value : α) :
    (table.insert name value).map f = (table.map f).insert name (f value) := by
  have hmap : (table.map f).find? name = none := by rw [find?_map, h]; rfl
  have hentries : ((table.insert name value).map f).entries =
      ((table.map f).insert name (f value)).entries := by
    rw [entries_insert hmap, map, entries_insert h, List.map_append]
    rfl
  exact congrArg Table.mk hentries

theorem nodup_keys_insert {table : Table α} (h : table.keys.Nodup) (name : String) (value : α) :
    (table.insert name value).keys.Nodup := by
  rw [keys_insert]
  split
  · exact h
  · rename_i hnew
    rw [List.nodup_append]
    refine ⟨h, List.nodup_singleton name, ?_⟩
    intro old hold new hmem heq
    rw [List.mem_singleton.mp hmem] at heq
    exact hnew (heq ▸ hold)

theorem mem_insertIn {entries : List (String × α)} (h : entry ∈ insertIn name value entries) :
    entry = (name, value) ∨ entry ∈ entries := by
  induction entries with
  | nil => exact .inl (List.mem_singleton.mp h)
  | cons head rest ih =>
    obtain ⟨key, old⟩ := head
    simp only [insertIn] at h
    split at h
    · rcases List.mem_cons.mp h with heq | hrest
      · exact .inl heq
      · exact .inr (List.mem_cons_of_mem _ hrest)
    · rcases List.mem_cons.mp h with heq | hrest
      · exact .inr (heq ▸ List.mem_cons_self)
      · rcases ih hrest with heq | hmem
        · exact .inl heq
        · exact .inr (List.mem_cons_of_mem _ hmem)

/-- What one insertion keeps holds of a table made of a list. -/
theorem foldl_insert {motive : Table α → Prop} (entries : List (String × α)) (table : Table α)
    (h : motive table) (step : ∀ table, ∀ entry ∈ entries, motive table →
      motive (table.insert entry.1 entry.2)) :
    motive (entries.foldl (fun table entry => table.insert entry.1 entry.2) table) := by
  induction entries generalizing table with
  | nil => exact h
  | cons entry rest ih =>
    refine ih (table.insert entry.1 entry.2) (step table entry List.mem_cons_self h) ?_
    intro other item hitem
    exact step other item (List.mem_cons_of_mem _ hitem)

theorem nodup_keys_ofList (entries : List (String × α)) : (ofList entries).keys.Nodup :=
  foldl_insert (motive := fun table => table.keys.Nodup) entries empty List.nodup_nil
    fun _ entry _ h => nodup_keys_insert h entry.1 entry.2

theorem mem_ofList {entries : List (String × α)} (h : entry ∈ (ofList entries).entries) :
    entry ∈ entries := by
  refine foldl_insert (motive := fun table => ∀ item ∈ table.entries, item ∈ entries) entries
    empty ?_ ?_ entry h
  · intro item hitem
    exact absurd hitem List.not_mem_nil
  · intro table inserted hinserted ih item hitem
    rcases mem_insertIn hitem with heq | hmem
    · exact heq ▸ hinserted
    · exact ih item hmem

end Table

-- ---------------------------------------------------------------------------
-- Keyed scripts
-- ---------------------------------------------------------------------------

/-- Every node has the name that it is kept under, and no name is kept twice. -/
structure Script.Keyed (script : Script) : Prop where
  keys : script.nodes.keys.Nodup
  names : ∀ entry ∈ script.nodes.entries, entry.2.name = entry.1

namespace Script

theorem keyed_ofNodes (name : String) (nodes : List Node) : (ofNodes name nodes).Keyed where
  keys := Table.nodup_keys_ofList _
  names := by
    intro entry hentry
    obtain ⟨node, _, rfl⟩ := List.mem_map.mp (Table.mem_ofList hentry)
    rfl

theorem keyed_tableOf (name : String) (members : List (String × Node)) :
    Keyed ⟨name, Node.tableOf members⟩ where
  keys := Table.nodup_keys_ofList _
  names := by
    intro entry hentry
    obtain ⟨member, _, rfl⟩ := List.mem_map.mp (Table.mem_ofList hentry)
    rfl

theorem mem_entries_of_mem_order {script : Script} {entry : String} {first source : Node}
    (hfirst : script.nodes.find? entry = some first) (h : source ∈ first :: script.others entry) :
    ∃ key, (key, source) ∈ script.nodes.entries := by
  rcases List.mem_cons.mp h with rfl | hother
  · exact ⟨entry, Table.mem_of_find? hfirst⟩
  · obtain ⟨⟨key, _⟩, hpair, rfl⟩ := List.mem_map.mp hother
    exact ⟨key, (List.mem_filter.mp hpair).1⟩

namespace Keyed

variable {script : Script} {entry : String} {first : Node}

theorem name_first (h : script.Keyed) (hfirst : script.nodes.find? entry = some first) :
    first.name = entry :=
  h.names (entry, first) (Table.mem_of_find? hfirst)

theorem mem_order (h : script.Keyed) (hfirst : script.nodes.find? entry = some first)
    (hmem : (key, node) ∈ script.nodes.entries) : node ∈ first :: script.others entry := by
  by_cases hkey : key = entry
  · subst hkey
    have hsame := (Table.find?_of_mem h.keys hmem).symm.trans hfirst
    exact List.mem_cons.mpr (.inl (Option.some.inj hsame))
  · refine List.mem_cons_of_mem _ (List.mem_map.mpr ⟨(key, node), ?_, rfl⟩)
    exact List.mem_filter.mpr ⟨hmem, by simpa using hkey⟩

theorem nodup_order (h : script.Keyed) (hfirst : script.nodes.find? entry = some first) :
    ((first :: script.others entry).map (·.name)).Nodup := by
  have hothers : (script.others entry).map (·.name) =
      (script.nodes.entries.filter fun pair => pair.1 ≠ entry).map Prod.fst := by
    unfold others
    rw [List.map_map]
    apply List.map_congr_left
    intro pair hpair
    exact h.names pair (List.mem_filter.mp hpair).1
  rw [List.map_cons, List.nodup_cons, hothers, h.name_first hfirst]
  constructor
  · intro hmem
    obtain ⟨pair, hpair, hkey⟩ := List.mem_map.mp hmem
    have hne := (List.mem_filter.mp hpair).2
    simp only [decide_eq_true_eq] at hne
    exact hne hkey
  · exact h.keys.sublist (List.filter_sublist.map Prod.fst)

end Keyed

end Script

end Dialogue
