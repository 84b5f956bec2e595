import SnapStore.Proofs.Transaction.Evolves

/-! # What writes do to the indexes of a table

A successful insertion makes every index of the table take the new object in place of the
old one; a successful removal makes every index lose what it stored of the removed objects.
A write fails only in its preparation, which changes nothing.

Main statements: `run_insert`, `run_delete`, `run_deleteAll` and `run_deleteStem`.
-/

namespace SnapStore

variable {α : Type}

/-! ## Tables in order -/

namespace Forest

variable {F : Forest α} {table : String} {ts : TableSchema α}

/-- What an index holds belongs to objects that the primary index stores under their primary
keys, and all indexes can derive the keys of these. -/
structure Consistent (F : Forest α) (table : String) (ts : TableSchema α) : Prop where
  primaryKey : ∀ p o, F.value? table primaryName p = some o → ts.primaryKey table o = .ok p
  accepts : ∀ p o, F.value? table primaryName p = some o →
    ∀ name i, (name, i) ∈ ts.indexes → i.Accepts o
  owned : ∀ name i, (name, i) ∈ ts.indexes → ∀ k o, F.value? table name k = some o →
    ∃ p, F.value? table primaryName p = some o ∧ i.Stores o p k

end Forest

namespace Txn

/-- After `t` stored an object in a table. -/
structure Takes (t t' : Txn α) (table : String) (ts : TableSchema α) (primary : Key) (object : α) :
    Prop where
  evolves : t.Evolves t'
  log : t'.changes = t.changes.map
    (·.record table primary (t.forest.value? table primaryName primary) (some object))
  accepts : ∀ name i, (name, i) ∈ ts.indexes → i.Accepts object
  entries : ∀ name i, (name, i) ∈ ts.indexes → ∀ k x, t'.forest.value? table name k = some x ↔
    i.Stores object primary k ∧ x = object ∨
      ¬ i.Stores object primary k ∧ t.forest.value? table name k = some x ∧
        ∀ old, t.forest.value? table primaryName primary = some old → ¬ i.Stores old primary k
  others : ∀ table' ts' name' i', t.schema.table? table' = some ts' →
    (name', i') ∈ ts'.indexes → table' ≠ table →
    ∀ k, t'.forest.value? table' name' k = t.forest.value? table' name' k

/-- After `t` removed objects, given with their primary keys, from a table. In the index
named by `bulk` the keys under its stem are left. -/
structure Loses (t t' : Txn α) (table : String) (ts : TableSchema α) (gone : List (Key × α))
    (bulk : Option (String × Key)) : Prop where
  evolves : t.Evolves t'
  log : t'.changes = t.changes.map fun log =>
    gone.foldl (fun log x => log.record table x.1 (some x.2) none) log
  entries : ∀ name i, (name, i) ∈ ts.indexes → ∀ k x, t'.forest.value? table name k = some x ↔
    t.forest.value? table name k = some x ∧
      ∀ y ∈ gone, i.Stores y.2 y.1 k → ∃ stem, bulk = some (name, stem) ∧ stem <+: k
  others : ∀ table' ts' name' i', t.schema.table? table' = some ts' →
    (name', i') ∈ ts'.indexes → table' ≠ table →
    ∀ k, t'.forest.value? table' name' k = t.forest.value? table' name' k

/-- The objects, with their primary keys, that a table stores and that a query finds. -/
def Finds (t : Txn α) (table : String) (q : Query α) (gone : List (Key × α)) : Prop :=
  ∀ p o, (p, o) ∈ gone ↔ t.forest.value? table primaryName p = some o ∧
    ∃ k, q.key <+: k ∧ t.forest.value? table q.name k = some o

/-- What a write checks and derives before it changes anything: whether it may write at all,
and then for a given object the table, the primary key, the object stored under it and the plan
for all indexes, and for a query the index and the key to look for. -/
def prepare (t : Txn α) : Write α → Except Error Unit
  | .insert tableName object => do
    t.ensureWrite
    match t.schema.table? tableName with
    | none => throw (.tableNotFound tableName)
    | some ts =>
      let primary ← ts.primaryKey tableName object
      let tree ← t.readable tableName primaryName
      let _ ← TableSchema.planInsert tableName object primary (tree.get? primary) ts.indexes
      return ()
  | .delete tableName object => do
    t.ensureWrite
    match t.schema.table? tableName with
    | none => throw (.tableNotFound tableName)
    | some ts =>
      let primary ← ts.primaryKey tableName object
      let tree ← t.readable tableName primaryName
      if (tree.get? primary).isNone then throw (.notFound tableName)
  | .deleteStem tableName index args => do
    t.ensureWrite
    if (stemBase? index).isNone then throw (.notStemIndex index)
    let _ ← t.lookup tableName index args
    return ()
  | .deleteAll tableName index args => do
    t.ensureWrite
    let _ ← t.lookup tableName index args
    return ()

/-- What every transaction of an accepted schema keeps to where the paths of all indexes
differ. -/
structure Orderly (t : Txn α) : Prop where
  sound : t.Sound
  valid : t.schema.validate = .ok ()
  nodup : t.schema.paths.Nodup
  consistent : ∀ table ts, t.schema.table? table = some ts → t.forest.Consistent table ts

namespace Loses

variable {t t' t'' : Txn α} {table : String} {ts : TableSchema α} {y : Key × α}
  {ys : List (Key × α)} {bulk : Option (String × Key)}

theorem nil (t : Txn α) : t.Loses t table ts [] bulk where
  evolves := .refl t
  log := by simp
  entries := by simp
  others := fun _ _ _ _ _ _ _ _ => rfl

theorem cons (h : t.Loses t' table ts [y] bulk) (h' : t'.Loses t'' table ts ys bulk) :
    t.Loses t'' table ts (y :: ys) bulk where
  evolves := h.evolves.trans h'.evolves
  log := by
    rw [h'.log, h.log]
    simp [Function.comp_def]
  entries := by
    intro name i hi k x
    rw [h'.entries name i hi, h.entries name i hi]
    simp [and_assoc]
  others := by
    intro table' ts' name' i' ht' hi' hne k
    rw [h'.others table' ts' name' i' (h.evolves.schema_eq ▸ ht') hi' hne k]
    exact h.others table' ts' name' i' ht' hi' hne k

end Loses

end Txn

/-! ## Plans for a table -/

namespace Txn

variable {t : Txn α} {table : String} {ts : TableSchema α}

/-- A plan for a table is about one of its indexes. -/
theorem exists_index {plans : List IndexPlan}
    (hplans : plans.map IndexPlan.index = ts.indexes.keys) {p : IndexPlan} (hp : p ∈ plans) :
    ∃ i, (p.index, i) ∈ ts.indexes := by
  have hkey : p.index ∈ ts.indexes.keys := hplans ▸ List.mem_map_of_mem hp
  rcases List.mem_map.1 hkey with ⟨⟨name, i⟩, hi, hname⟩
  exact ⟨i, hname ▸ hi⟩

theorem indexPath_mem_paths (ht : t.schema.table? table = some ts) {plans : List IndexPlan}
    (hplans : plans.map IndexPlan.index = ts.indexes.keys) :
    ∀ p ∈ plans, indexPath table p.index ∈ t.schema.paths := by
  intro p hp
  rcases exists_index hplans hp with ⟨i, hi⟩
  exact Schema.mem_paths ht hi

/-- Plans for the indexes of a table change each as its plan says, and no other table. -/
theorem value?_carryOut_table (hs : t.Sound) (hnd : t.schema.paths.Nodup)
    (ht : t.schema.table? table = some ts) {object : Option α} {plans : List IndexPlan}
    (hplans : plans.map IndexPlan.index = ts.indexes.keys)
    (hobject : object = none → ∀ p ∈ plans, p.insert = []) :
    (∀ p ∈ plans, ∀ k, (t.carryOut table object plans).forest.value? table p.index k =
      if k ∈ p.insert then object
      else if k ∈ p.remove then none
      else t.forest.value? table p.index k) ∧
    ∀ table' ts' name' i', t.schema.table? table' = some ts' → (name', i') ∈ ts'.indexes →
      table' ≠ table → ∀ k, (t.carryOut table object plans).forest.value? table' name' k =
        t.forest.value? table' name' k := by
  have hmap : plans.map (fun p => indexPath table p.index) =
      ts.indexes.keys.map (indexPath table) := by
    rw [← hplans, List.map_map]
    rfl
  rcases value?_carryOut hs (indexPath_mem_paths ht hplans)
    (hmap ▸ Schema.nodup_indexPaths hnd ht) hobject with ⟨hin, hout⟩
  refine ⟨hin, fun table' ts' name' i' ht' hi' hne k => hout table' name' ?_ k⟩
  intro hmem
  rcases List.mem_map.1 hmem with ⟨p, hp, heq⟩
  rcases exists_index hplans hp with ⟨i, hi⟩
  exact hne (Schema.indexPath_inj hnd ht' hi' ht hi heq.symm).1

/-- Plans carried out, and noted in the change log or not, let a transaction evolve. -/
theorem evolves_carryOut (t : Txn α) (table : String) (object : Option α)
    (plans : List IndexPlan) (changes : Option (ChangeLog α)) :
    t.Evolves { t.carryOut table object plans with changes := changes } := by
  rcases t.exists_handles_carryOut table object plans with ⟨handles, h⟩
  refine ⟨⟨handles, changes, by rw [h]⟩, fun hs => ?_⟩
  have hsound : (t.carryOut table object plans).Sound := hs.carryOut plans
  exact ⟨hsound.root, hsound.trees, hsound.ascends, hsound.drafts⟩

/-- The plan for an insertion, carried out and noted, makes the indexes take the object. -/
theorem takes_carryOut (hs : t.Sound) (hnd : t.schema.paths.Nodup)
    (ht : t.schema.table? table = some ts) {primary : Key} {object : α} {plans : List IndexPlan}
    (hplan : TableSchema.planInsert table object primary
      (t.forest.value? table primaryName primary) ts.indexes = .ok plans) :
    t.Takes { t.carryOut table (some object) plans with
        changes := (t.carryOut table (some object) plans).changes.map
          (·.record table primary (t.forest.value? table primaryName primary) (some object)) }
      table ts primary object := by
  rcases TableSchema.planInsert_spec hplan with ⟨hnames, hspec⟩
  obtain ⟨hin, hout⟩ :=
    value?_carryOut_table hs hnd ht hnames (fun h : some object = none => nomatch h)
  refine ⟨t.evolves_carryOut table (some object) plans _, ?_, ?_, ?_, hout⟩
  · rcases t.exists_handles_carryOut table (some object) plans with ⟨handles, h⟩
    rw [h]
  · intro name i hi
    rcases hspec name i hi with ⟨p, _, hex⟩
    exact hex.accepts object rfl
  · intro name i hi k x
    rcases hspec name i hi with ⟨p, hpm, hex⟩
    obtain rfl := hex.index
    have hinsert : k ∈ p.insert ↔ i.Stores object primary k := by simp [hex.insert]
    change (t.carryOut table (some object) plans).forest.value? table p.index k = some x ↔ _
    rw [hin p hpm k]
    by_cases hk : k ∈ p.insert
    · rw [if_pos hk]
      simp [hinsert.1 hk, eq_comm]
    · -- the new object does not come here
      have hnot : ¬ i.Stores object primary k := fun h => hk (hinsert.2 h)
      rw [if_neg hk]
      simp only [hnot, false_and, false_or, not_false_eq_true, true_and]
      by_cases hr : k ∈ p.remove
      · -- the old object stood here
        rcases (hex.remove k).1 hr with ⟨⟨old, hold, hst⟩, _⟩
        rw [if_pos hr]
        simp only [reduceCtorEq, false_iff, not_and]
        exact fun _ h => h old hold hst
      · rw [if_neg hr]
        refine (and_iff_left ?_).symm
        exact fun old hold hst => hr ((hex.remove k).2 ⟨⟨old, hold, hst⟩, hk⟩)

end Txn

/-! ## Insertion -/

namespace TxnM

variable {t : Txn α} {tableName : String} {ts : TableSchema α}

/-- The object under a primary key of a declared table is found. -/
theorem run_stored_of_table (hs : t.Sound) (hv : t.schema.validate = .ok ())
    (ht : t.schema.table? tableName = some ts) (primary : Key) (stats : Stats) :
    (∃ tree, t.readable tableName primaryName = .ok tree ∧
      tree.get? primary = t.forest.value? tableName primaryName primary) ∧
      (stored tableName primary).run ⟨t, stats⟩ =
        .ok (t.forest.value? tableName primaryName primary) ⟨t, stats⟩ := by
  rcases Schema.exists_primary hv ht with ⟨id, hid, _, _⟩
  obtain ⟨tree, htree, _⟩ :=
    hs.wf_forest.exists_tree (Schema.mem_paths ht (TableSchema.mem_primary hid))
  have hread : t.readable tableName primaryName = .ok tree := by rw [Txn.readable_eq, htree]
  exact ⟨⟨tree, hread, (Forest.value?_eq htree primary).symm⟩, run_stored htree⟩

/-- An insertion fails in its preparation, or every index of the table takes the object. -/
theorem run_insert (h : t.Orderly) (tableName : String) (object : α) (stats : Stats) :
    (∃ e, t.prepare (.insert tableName object) = .error e ∧
      (insert tableName object).run ⟨t, stats⟩ = .error e ⟨t, stats⟩) ∨
      ∃ ts primary t', t.prepare (.insert tableName object) = .ok () ∧
        t.schema.table? tableName = some ts ∧
        ts.primaryKey tableName object = .ok primary ∧ t.Takes t' tableName ts primary object ∧
        (insert tableName object).run ⟨t, stats⟩ =
          .ok () ⟨t', { stats with inserts := stats.inserts + 1 }⟩ := by
  rw [insert, run_bind, run_ensureWrite, Txn.prepare]
  cases hw : t.ensureWrite with
  | error e => exact .inl ⟨e, rfl, rfl⟩
  | ok _ =>
    simp only [run_bind, run_table, ok_bind]
    cases ht : t.schema.table? tableName with
    | none => exact .inl ⟨_, rfl, rfl⟩
    | some ts =>
      dsimp only
      cases hp : ts.primaryKey tableName object with
      | error e => exact .inl ⟨e, rfl, rfl⟩
      | ok primary =>
        rcases run_stored_of_table h.sound h.valid ht primary stats with
          ⟨⟨tree, hread, hget⟩, hstored⟩
        simp only [run_lift_ok, hstored, ok_bind, hread, hget]
        cases hplan : TableSchema.planInsert tableName object primary
            (t.forest.value? tableName primaryName primary) ts.indexes with
        | error e => exact .inl ⟨e, rfl, rfl⟩
        | ok plans =>
          have happly : (applyPlans tableName (some object) plans).run ⟨t, stats⟩ =
              .ok () ⟨t.carryOut tableName (some object) plans, stats⟩ :=
            run_applyPlans h.sound
              (Txn.indexPath_mem_paths ht (TableSchema.planInsert_spec hplan).1)
          simp only [run_lift_ok, happly, run_log, run_count, ok_bind]
          have htakes := Txn.takes_carryOut h.sound h.nodup ht hplan
          exact .inr ⟨ts, primary, _, rfl, rfl, hp, htakes, rfl⟩

/-! ## Removal -/

/-- The removal of an object with keys in every index never fails. -/
theorem run_remove (hs : t.Sound) (hnd : t.schema.paths.Nodup)
    (ht : t.schema.table? tableName = some ts) {object : α}
    (haccepts : ∀ name i, (name, i) ∈ ts.indexes → i.Accepts object) (primary : Key)
    (bulk : Option (String × Key)) (stats : Stats) :
    ∃ t', t.Loses t' tableName ts [(primary, object)] bulk ∧
      (remove tableName ts primary object bulk).run ⟨t, stats⟩ =
        .ok () ⟨t', { stats with deletes := stats.deletes + 1 }⟩ := by
  obtain ⟨plans, hplans, hnames, hinsert, hspec⟩ :=
    TableSchema.planRemove_spec tableName primary bulk haccepts
  rcases Txn.value?_carryOut_table hs hnd ht hnames fun _ => hinsert with ⟨hin, hout⟩
  have happly : (applyPlans tableName none plans).run ⟨t, stats⟩ =
      .ok () ⟨t.carryOut tableName none plans, stats⟩ :=
    run_applyPlans hs (Txn.indexPath_mem_paths ht hnames)
  refine ⟨{ t.carryOut tableName none plans with
      changes := (t.carryOut tableName none plans).changes.map
        (·.record tableName primary (some object) none) },
    ⟨t.evolves_carryOut tableName none plans _, ?_, ?_, hout⟩, ?_⟩
  · rcases t.exists_handles_carryOut tableName none plans with ⟨handles, h⟩
    rw [h]
    rfl
  · intro name i hi k x
    rcases hspec name i hi with ⟨p, hpm, rfl, hremove⟩
    change (t.carryOut tableName none plans).forest.value? tableName p.index k = some x ↔ _
    rw [hin p hpm k]
    simp only [hinsert p hpm, List.not_mem_nil, if_false, List.mem_singleton, forall_eq]
    by_cases hr : k ∈ p.remove
    · -- the object had this key, and it is not left to the removal of the stem
      rcases (hremove k).1 hr with ⟨hst, hno⟩
      rw [if_pos hr]
      simp only [reduceCtorEq, false_iff, not_and]
      exact fun _ h => hno (h hst)
    · rw [if_neg hr]
      refine (and_iff_left fun hst => ?_).symm
      exact Classical.byContradiction fun hno => hr ((hremove k).2 ⟨hst, hno⟩)
  · simp only [remove, run_bind, hplans, run_lift_ok, happly, run_log, run_count]

/-- The removal of objects with keys in every index never fails. -/
theorem run_removeEach {bulk : Option (String × Key)} (gone : List (Key × α)) :
    ∀ (t : Txn α) (stats : Stats), t.Sound → t.schema.paths.Nodup →
      t.schema.table? tableName = some ts →
      (∀ y ∈ gone, ∀ name i, (name, i) ∈ ts.indexes → i.Accepts y.2) →
      ∃ t', t.Loses t' tableName ts gone bulk ∧
        (removeEach tableName ts bulk gone).run ⟨t, stats⟩ =
          .ok () ⟨t', { stats with deletes := stats.deletes + gone.length }⟩ := by
  induction gone with
  | nil =>
    intro t stats _ _ _ _
    exact ⟨t, .nil t, rfl⟩
  | cons y ys ih =>
    -- the removal of the first object leaves the schema, and so the plans for the others, alone
    intro t stats hs hnd ht haccepts
    obtain ⟨t', hloses, hrun⟩ :=
      run_remove hs hnd ht (haccepts y List.mem_cons_self) y.1 bulk stats
    have hschema := hloses.evolves.schema_eq
    rcases ih t' { stats with deletes := stats.deletes + 1 }
      (hloses.evolves.sound hs) (hschema ▸ hnd) (hschema ▸ ht)
      fun z hz => haccepts z (List.mem_cons_of_mem y hz) with ⟨t'', hloses', hrun'⟩
    refine ⟨t'', hloses.cons hloses', ?_⟩
    rw [removeEach, run_bind, hrun]
    refine hrun'.trans ?_
    simp only [List.length_cons, Nat.add_assoc, Nat.add_comm 1]

/-- A deletion fails in its preparation, or every index of the table loses the object stored
under the primary key. -/
theorem run_delete (h : t.Orderly) (tableName : String) (object : α) (stats : Stats) :
    (∃ e, t.prepare (.delete tableName object) = .error e ∧
      (delete tableName object).run ⟨t, stats⟩ = .error e ⟨t, stats⟩) ∨
      ∃ ts primary old t', t.prepare (.delete tableName object) = .ok () ∧
        t.schema.table? tableName = some ts ∧
        ts.primaryKey tableName object = .ok primary ∧
        t.forest.value? tableName primaryName primary = some old ∧
        t.Loses t' tableName ts [(primary, old)] none ∧
        (delete tableName object).run ⟨t, stats⟩ =
          .ok () ⟨t', { stats with deletes := stats.deletes + 1 }⟩ := by
  rw [delete, run_bind, run_ensureWrite, Txn.prepare]
  cases hw : t.ensureWrite with
  | error e => exact .inl ⟨e, rfl, rfl⟩
  | ok _ =>
    simp only [run_bind, run_table, ok_bind]
    cases ht : t.schema.table? tableName with
    | none => exact .inl ⟨_, rfl, rfl⟩
    | some ts =>
      dsimp only
      cases hp : ts.primaryKey tableName object with
      | error e => exact .inl ⟨e, rfl, rfl⟩
      | ok primary =>
        rcases run_stored_of_table h.sound h.valid ht primary stats with
          ⟨⟨tree, hread, hget⟩, hstored⟩
        simp only [run_lift_ok, hstored, ok_bind, hread, hget]
        cases hold : t.forest.value? tableName primaryName primary with
        | none => exact .inl ⟨_, rfl, rfl⟩
        | some old =>
          have haccepts := (h.consistent tableName ts ht).accepts primary old hold
          rcases run_remove h.sound h.nodup ht haccepts primary none stats with ⟨t', hloses, hrun⟩
          exact .inr ⟨ts, primary, old, t', rfl, rfl, hp, hold, hloses, hrun⟩

end TxnM

end SnapStore
