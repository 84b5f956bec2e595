import Mathlib.Data.List.Nodup
import SnapStore.Store
import SnapStore.Transaction.Write

/-! # Accepted schemas

What a schema promises once it is accepted: each table has a primary index that is unique
and over single keys. Where the paths of all indexes differ, a path tells its table and
index.

Main statements: `exists_primary` and `indexPath_inj`.
-/

namespace SnapStore

variable {α : Type}

namespace Schema

variable {s : Schema α} {table table' name name' : String} {t t' : TableSchema α}
  {i i' : IndexSchema α}

theorem mem_tables (h : s.table? table = some t) : (table, t) ∈ s.tables :=
  Catalog.mem_of_find? h

theorem mem_indexes (ht : s.table? table = some t) (hi : (name, i) ∈ t.indexes) :
    (table, name) ∈ s.indexes := by
  simp only [indexes, List.mem_flatMap]
  refine ⟨(table, t), mem_tables ht, ?_⟩
  exact List.mem_map.2 ⟨(name, i), hi, rfl⟩

theorem mem_paths (ht : s.table? table = some t) (hi : (name, i) ∈ t.indexes) :
    indexPath table name ∈ s.paths :=
  List.mem_map.2 ⟨(table, name), mem_indexes ht hi, rfl⟩

/-- Where the paths differ, a path tells its table and index. -/
theorem indexPath_inj (hs : s.paths.Nodup) (ht : s.table? table = some t)
    (hi : (name, i) ∈ t.indexes) (ht' : s.table? table' = some t') (hi' : (name', i') ∈ t'.indexes)
    (h : indexPath table name = indexPath table' name') : table = table' ∧ name = name' := by
  have heq : (table, name) = (table', name') :=
    List.inj_on_of_nodup_map hs (mem_indexes ht hi) (mem_indexes ht' hi') h
  exact Prod.mk.inj heq

/-- Where the paths differ, the indexes of a table have different paths. -/
theorem nodup_indexPaths (hs : s.paths.Nodup) (ht : s.table? table = some t) :
    (t.indexes.keys.map (indexPath table)).Nodup := by
  refine hs.sublist ?_
  have hsub : (t.indexes.map fun x : String × IndexSchema α => (table, x.1)).Sublist s.indexes := by
    rcases List.append_of_mem (mem_tables ht) with ⟨before, after, hsplit⟩
    rw [indexes, hsplit, List.flatMap_append, List.flatMap_cons]
    exact (List.sublist_append_left _ _).trans (List.sublist_append_right _ _)
  have hmap := hsub.map fun x : String × String => indexPath x.1 x.2
  simpa [paths, Catalog.keys, Function.comp_def] using hmap

/-- Where the paths differ, the indexes of a table have different names. -/
theorem nodup_keys (hs : s.paths.Nodup) (ht : s.table? table = some t) : t.indexes.keys.Nodup :=
  List.Nodup.of_map _ (nodup_indexPaths hs ht)

theorem validate_table (hv : s.validate = .ok ()) (ht : s.table? table = some t) :
    t.validate = .ok () := by
  unfold validate at hv
  split at hv
  · simp at hv
  · exact ((checkTables_eq_ok_iff s.tables).1 hv (table, t) (mem_tables ht)).2

/-- Each table of an accepted schema has a primary index, unique and over single keys. -/
theorem exists_primary (hv : s.validate = .ok ()) (ht : s.table? table = some t) :
    ∃ id, t.primary? = some id ∧ id.unique = true ∧ id.indexer.isSingle = true := by
  have h := validate_table hv ht
  unfold TableSchema.validate at h
  split at h
  · simp at h
  · split at h
    · simp at h
    · split at h
      · simp at h
      · rename_i id hid
        split at h
        · simp at h
        · rename_i hunique
          split at h
          · simp at h
          · rename_i hsingle
            exact ⟨id, hid, by simpa using hunique, by simpa using hsingle⟩

/-- The paths of the indexes of a table. -/
def pathsOf (s : Schema α) (table : String) : List Key :=
  match s.table? table with
  | some t => t.indexes.keys.map (indexPath table)
  | none => []

theorem mem_pathsOf (ht : s.table? table = some t) (hname : name ∈ t.indexes.keys) :
    indexPath table name ∈ s.pathsOf table := by
  rw [pathsOf, ht]
  exact List.mem_map_of_mem hname

/-- A query that is understood is for an index of its table. -/
theorem resolve_spec {table index : String} {args : List Arg} {q : Query α}
    (h : s.resolve table index args = .ok q) :
    ∃ ts, s.table? table = some ts ∧ (q.name, q.index) ∈ ts.indexes := by
  unfold resolve at h
  cases ht : s.table? table with
  | none => simp [ht] at h
  | some ts =>
    simp only [ht] at h
    split at h
    · simp at h
    · rename_i i hi
      cases hk : keyOf (indexAsked ts.indexes index).1 i (indexAsked ts.indexes index).2 args with
      | error e => simp [hk, Except.map] at h
      | ok key =>
        obtain rfl : _ = q := by simpa [hk, Except.map] using h
        exact ⟨ts, rfl, Catalog.mem_of_find? hi⟩

end Schema

/-! ## Primary keys -/

namespace TableSchema

variable {t : TableSchema α} {table : String} {id : IndexSchema α} {object : α} {key : Key}

theorem mem_primary (h : t.primary? = some id) : (primaryName, id) ∈ t.indexes :=
  Catalog.mem_of_find? h

/-- The primary key is the one key that the primary index derives. -/
theorem primaryKey_eq_ok_iff (h : t.primary? = some id) (hs : id.indexer.isSingle = true) :
    t.primaryKey table object = .ok key ↔ id.indexer.keys object = .ok [key] := by
  rcases id with ⟨name, indexer, unique, allowMissing⟩
  cases indexer with
  | multi m => simp [Indexer.isSingle] at hs
  | single m =>
    simp only [primaryKey, h, Indexer.keys]
    cases m.ofObject object with
    | error cause => simp [Except.map]
    | ok derived => cases derived <;> simp [Except.map]

end TableSchema

end SnapStore
