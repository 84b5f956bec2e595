import Mathlib.Data.List.TakeWhile
import SnapStore.Proofs.Engine.Jobs

/-! # What writes count

A write counts an insertion once the object is stored, and a removal each time it has taken
an object out of the indexes; what it counted before it failed stays counted. Which objects
it removes is told by the transaction alone: those it is for, up to the first one of which
some key cannot be derived.

Where the paths of all indexes differ, these are exactly the objects that the table had before
the write and has no more after it.

Main statements: `TxnM.run_insert_cases`, `TxnM.moves_removal` and `Txn.Orderly.lost_removes`.
-/

namespace SnapStore

variable {α β : Type}

/-- The counters after so many insertions and removals, and any number of queries. -/
structure Stats.Moves (before after : Stats) (inserts deletes : Nat) : Prop where
  writeTxns : after.writeTxns = before.writeTxns
  commits : after.commits = before.commits
  aborts : after.aborts = before.aborts
  inserts : after.inserts = before.inserts + inserts
  deletes : after.deletes = before.deletes + deletes

theorem Stats.Moves.refl (stats : Stats) : stats.Moves stats 0 0 :=
  ⟨rfl, rfl, rfl, rfl, rfl⟩

namespace TableSchema

/-- Whether all indexes of a table can derive their keys from an object. -/
def derivable (ts : TableSchema α) (object : α) : Bool :=
  ts.indexes.all fun x => (x.2.indexer.keys object).isOk

variable {ts : TableSchema α} {object : α}

theorem derivable_iff :
    ts.derivable object = true ↔ ∀ name i, (name, i) ∈ ts.indexes → i.Accepts object := by
  simp only [derivable, List.all_eq_true, Prod.forall, IndexSchema.Accepts]
  refine forall₃_congr fun name i _ => ?_
  cases i.indexer.keys object <;> simp [Except.isOk, Except.toBool]

/-- There is a plan for the removal of an object only if all of its keys can be derived. -/
theorem accepts_of_planRemove {table : String} {primary : Key} {bulk : Option (String × Key)} :
    ∀ {indexes : Catalog String (IndexSchema α)} {plans : List IndexPlan},
      planRemove table object primary bulk indexes = .ok plans →
      ∀ name i, (name, i) ∈ indexes → i.Accepts object
  | [], _, _ => by simp
  | (name, i) :: rest, plans, h => by
    simp only [planRemove, bind_eq_ok_iff] at h
    rcases h with ⟨keys, hkeys, more, hmore, _⟩
    intro name' i' hi
    rcases List.mem_cons.1 hi with heq | hi
    · cases heq
      exact (IndexSchema.mem_storedKeys hkeys).1
    · exact accepts_of_planRemove hmore name' i' hi

/-- Objects that are told apart by their primary keys come with each of these once. -/
theorem nodup_distinct {table : String} :
    ∀ {objects : List α} {seen : List Key} {gone : List (Key × α)},
      ts.distinct table seen objects = .ok gone →
      (gone.map Prod.fst).Nodup ∧ ∀ p ∈ gone.map Prod.fst, p ∉ seen
  | [], _, gone, h => by
    obtain rfl : [] = gone := by simpa [distinct] using h
    simp
  | o :: rest, seen, gone, h => by
    rw [distinct, bind_eq_ok_iff] at h
    rcases h with ⟨p, _, h⟩
    split at h
    · exact nodup_distinct h
    · rename_i hseen
      rw [bind_eq_ok_iff] at h
      rcases h with ⟨more, hmore, hgone⟩
      obtain rfl : (p, o) :: more = gone := Except.ok.inj hgone
      rcases nodup_distinct hmore with ⟨hnodup, hnew⟩
      have hp : p ∉ more.map Prod.fst := fun hp => hnew p hp List.mem_cons_self
      refine ⟨List.nodup_cons.2 ⟨hp, hnodup⟩, fun p' hp' => ?_⟩
      rcases List.mem_cons.1 hp' with rfl | hp'
      · simpa using hseen
      · exact fun hin => hnew p' hp' (List.mem_cons_of_mem p hin)

end TableSchema

namespace Txn

/-- The objects that a query lists in a table, each once, with their primary keys. -/
def listed (t : Txn α) (ts : TableSchema α) (table index : String) (args : List Arg) :
    List (Key × α) :=
  match t.lookup table index args with
  | .ok (q, tree) => (ts.distinct table [] (q.all tree).objects).toOption.getD []
  | .error _ => []

/-- The objects of a table that a write is to remove, with their primary keys. -/
def targets (t : Txn α) (ts : TableSchema α) : Write α → List (Key × α)
  | .insert _ _ => []
  | .delete table object =>
    match ts.primaryKey table object with
    | .ok p => (t.forest.value? table primaryName p).toList.map fun old => (p, old)
    | .error _ => []
  | .deleteStem table index args =>
    if (stemBase? index).isSome then t.listed ts table index args else []
  | .deleteAll table index args => t.listed ts table index args

/-- The objects that a write removes, with their primary keys: none if the transaction may not
write, and else those it is for, up to the first one of which a key cannot be derived. -/
def removes (t : Txn α) (w : Write α) : List (Key × α) :=
  match t.ensureWrite, t.schema.table? w.table with
  | .ok (), some ts => (t.targets ts w).takeWhile fun x => ts.derivable x.2
  | _, _ => []

variable {t : Txn α} {ts : TableSchema α} {w : Write α}

theorem removes_of_refused {e : Error} (h : t.ensureWrite = .error e) : t.removes w = [] := by
  rw [removes, h]

theorem removes_of_none (h : t.schema.table? w.table = none) : t.removes w = [] := by
  rw [removes, h]
  cases t.ensureWrite <;> rfl

theorem removes_eq (hw : t.ensureWrite = .ok ()) (ht : t.schema.table? w.table = some ts) :
    t.removes w = (t.targets ts w).takeWhile fun x => ts.derivable x.2 := by
  rw [removes, hw, ht]

theorem removes_of_targets (h : ∀ ts, t.targets ts w = []) : t.removes w = [] := by
  rw [removes]
  split
  · rw [h]
    rfl
  · rfl

theorem listed_of_error {table index : String} {args : List Arg} {e : Error}
    (hlookup : t.lookup table index args = .error e) : t.listed ts table index args = [] := by
  rw [listed, hlookup]

theorem listed_eq {table index : String} {args : List Arg} {q : Query α} {tree : Tree α}
    {gone : List (Key × α)} (hlookup : t.lookup table index args = .ok (q, tree))
    (hgone : ts.distinct table [] (q.all tree).objects = .ok gone) :
    t.listed ts table index args = gone := by
  rw [listed, hlookup]
  simp only [hgone]
  rfl

end Txn

namespace TxnM

variable {t : Txn α} {ts : TableSchema α} {tableName : String}

/-! ## Removals -/

/-- The removal of an object is counted, unless one of its keys cannot be derived. -/
theorem run_remove_cases (hs : t.Sound) (ht : t.schema.table? tableName = some ts)
    (primary : Key) (object : α) (bulk : Option (String × Key)) (stats : Stats) :
    ts.derivable object = true ∧ (∃ t', t.Evolves t' ∧
      (remove tableName ts primary object bulk).run ⟨t, stats⟩ =
        .ok () ⟨t', { stats with deletes := stats.deletes + 1 }⟩) ∨
      ts.derivable object = false ∧ ∃ e,
        (remove tableName ts primary object bulk).run ⟨t, stats⟩ = .error e ⟨t, stats⟩ := by
  cases hplan : TableSchema.planRemove tableName object primary bulk ts.indexes with
  | ok plans =>
    have hall := TableSchema.derivable_iff.2 (TableSchema.accepts_of_planRemove hplan)
    have happly : (applyPlans tableName none plans).run ⟨t, stats⟩ =
        .ok () ⟨t.carryOut tableName none plans, stats⟩ :=
      run_applyPlans hs (Txn.indexPath_mem_paths ht (TableSchema.index_planRemove hplan))
    let changes := (t.carryOut tableName none plans).changes.map
      (·.record tableName primary (some object) none)
    refine .inl ⟨hall, _, t.evolves_carryOut tableName none plans changes, ?_⟩
    simp only [remove, run_bind, hplan, run_lift_ok, happly, run_log, run_count, changes]
  | error e =>
    refine .inr ⟨?_, e, by simp only [remove, run_bind, hplan]; rfl⟩
    refine Bool.eq_false_iff.2 fun hall => ?_
    rcases TableSchema.planRemove_spec tableName primary bulk
      (TableSchema.derivable_iff.1 hall) with ⟨plans, hplans, _⟩
    rw [hplan] at hplans
    cases hplans

/-- The removals of objects one after another are counted, up to the first one of which a key
cannot be derived. -/
theorem run_removeEach_cases (bulk : Option (String × Key)) (gone : List (Key × α)) :
    ∀ (t : Txn α) (stats : Stats), t.Sound → t.schema.table? tableName = some ts →
      let after : Stats := { stats with
        deletes := stats.deletes + (gone.takeWhile fun x => ts.derivable x.2).length }
      ∃ t', (removeEach tableName ts bulk gone).run ⟨t, stats⟩ = .ok () ⟨t', after⟩ ∨
        ∃ e, (removeEach tableName ts bulk gone).run ⟨t, stats⟩ = .error e ⟨t', after⟩ := by
  induction gone with
  | nil => exact fun t stats _ _ => ⟨t, .inl rfl⟩
  | cons x xs ih =>
    intro t stats hs ht
    rcases run_remove_cases hs ht x.1 x.2 bulk stats with
      ⟨hx, t', hevolves, hrun⟩ | ⟨hx, e, hrun⟩
    · have hrest := ih t' { stats with deletes := stats.deletes + 1 } (hevolves.sound hs)
        (hevolves.schema_eq ▸ ht)
      simp only [removeEach, run_bind, hrun, List.takeWhile_cons, hx, if_true,
        List.length_cons, Nat.add_assoc, Nat.add_comm 1] at hrest ⊢
      exact hrest
    · refine ⟨t, .inr ⟨e, ?_⟩⟩
      simp only [removeEach, run_bind, hrun, List.takeWhile_cons, hx]
      rfl

/-- The same, if what follows does not count. -/
theorem stats_removeEach_bind {f : Unit → TxnM α β} (hf : ∀ s, ((f ()).leaves s).stats = s.stats)
    (hs : t.Sound) (ht : t.schema.table? tableName = some ts) (bulk : Option (String × Key))
    (gone : List (Key × α)) (stats : Stats) :
    ((removeEach tableName ts bulk gone >>= f).leaves ⟨t, stats⟩).stats = { stats with
      deletes := stats.deletes + (gone.takeWhile fun x => ts.derivable x.2).length } := by
  rw [leaves_bind]
  rcases run_removeEach_cases bulk gone t stats hs ht with ⟨t', hrun | ⟨e, hrun⟩⟩
  · rw [hrun]
    exact hf _
  · rw [hrun]

theorem stats_editIndex (table index : String) (f : Draft α → Draft α × β) (s : Session α) :
    ((editIndex table index f).leaves s).stats = s.stats := by
  simp only [leaves, editIndex, run_bind, run_txn]
  cases s.txn.writable table index <;> rfl

/-! ## Writes -/

theorem leaves_bind_of_ok {γ : Type} {x : TxnM α β} {f : β → TxnM α γ} {s s' : Session α} {b : β}
    (h : x.run s = .ok b s') : (x >>= f).leaves s = (f b).leaves s' := by
  rw [leaves_bind, h]

/-- What an operation counts that is refused or fails before it counts. -/
theorem moves_of_error {op : TxnM α β} {e : Error} {s : Session α} (h : op.run s = .error e s) :
    s.stats.Moves (op.leaves s).stats 0 0 := by
  rw [leaves, h]
  exact .refl _

/-- An insertion counts itself if it succeeds. -/
theorem run_insert_cases (hs : t.Sound) (hv : t.schema.validate = .ok ()) (tableName : String)
    (object : α) (stats : Stats) :
    (∃ e, (insert tableName object).run ⟨t, stats⟩ = .error e ⟨t, stats⟩) ∨
      ∃ t', (insert tableName object).run ⟨t, stats⟩ =
        .ok () ⟨t', { stats with inserts := stats.inserts + 1 }⟩ := by
  rw [insert, run_bind, run_ensureWrite]
  cases hw : t.ensureWrite with
  | error e => exact .inl ⟨e, rfl⟩
  | ok _ =>
    simp only [run_bind, run_table]
    cases ht : t.schema.table? tableName with
    | none => exact .inl ⟨_, rfl⟩
    | some ts =>
      dsimp only
      cases hp : ts.primaryKey tableName object with
      | error e => exact .inl ⟨e, rfl⟩
      | ok primary =>
        rcases run_stored_of_table hs hv ht primary stats with ⟨_, hstored⟩
        simp only [run_lift_ok, hstored]
        cases hplan : TableSchema.planInsert tableName object primary
            (t.forest.value? tableName primaryName primary) ts.indexes with
        | error e => exact .inl ⟨e, rfl⟩
        | ok plans =>
          have happly : (applyPlans tableName (some object) plans).run ⟨t, stats⟩ =
              .ok () ⟨t.carryOut tableName (some object) plans, stats⟩ :=
            run_applyPlans hs
              (Txn.indexPath_mem_paths ht (TableSchema.planInsert_spec hplan).1)
          simp only [run_lift_ok, happly, run_log, run_count]
          exact .inr ⟨_, rfl⟩

theorem moves_delete (hs : t.Sound) (hv : t.schema.validate = .ok ())
    (hwrite : t.ensureWrite = .ok ()) (tableName : String) (object : α) (stats : Stats) :
    stats.Moves ((delete tableName object).leaves ⟨t, stats⟩).stats 0
      (t.removes (.delete tableName object)).length := by
  cases ht : t.schema.table? tableName with
  | none =>
    rw [Txn.removes_of_none ht]
    have hrun : (delete tableName object).run ⟨t, stats⟩ =
        .error (.tableNotFound tableName) ⟨t, stats⟩ := by simp [delete, hwrite, ht]
    exact moves_of_error hrun
  | some ts =>
    rw [Txn.removes_eq (w := .delete tableName object) hwrite ht, Txn.targets]
    cases hp : ts.primaryKey tableName object with
    | error e =>
      have hrun : (delete tableName object).run ⟨t, stats⟩ = .error e ⟨t, stats⟩ := by
        simp only [delete, run_bind, run_ensureWrite, hwrite, run_table, ht, hp]
        rfl
      exact moves_of_error hrun
    | ok p =>
      dsimp only
      rcases run_stored_of_table hs hv ht p stats with ⟨_, hstored⟩
      cases hold : t.forest.value? tableName primaryName p with
      | none =>
        rw [hold] at hstored
        have hrun : (delete tableName object).run ⟨t, stats⟩ =
            .error (.notFound tableName) ⟨t, stats⟩ := by
          simp only [delete, run_bind, run_ensureWrite, hwrite, run_table, ht, hp, run_lift_ok,
            hstored]
          rfl
        exact moves_of_error hrun
      | some old =>
        rw [hold] at hstored
        have hrun : (delete tableName object).run ⟨t, stats⟩ =
            (remove tableName ts p old none).run ⟨t, stats⟩ := by
          simp only [delete, run_bind, run_ensureWrite, hwrite, run_table, ht, hp, run_lift_ok,
            hstored]
        rw [leaves, hrun]
        rcases run_remove_cases hs ht p old none stats with
          ⟨hall, t', _, hremove⟩ | ⟨hall, e, hremove⟩
        · rw [hremove]
          simp only [Option.toList_some, List.map_cons, List.map_nil, List.takeWhile_cons, hall,
            if_true, List.takeWhile_nil, List.length_singleton]
          exact ⟨rfl, rfl, rfl, rfl, rfl⟩
        · rw [hremove]
          simp only [Option.toList_some, List.map_cons, List.map_nil, List.takeWhile_cons, hall]
          exact .refl stats

theorem run_ensureWrite_ok (hwrite : t.ensureWrite = .ok ()) (stats : Stats) :
    (ensureWrite : TxnM α Unit).run ⟨t, stats⟩ = .ok () ⟨t, stats⟩ := by
  rw [run_ensureWrite, hwrite]

theorem run_table_ok (ht : t.schema.table? tableName = some ts) (stats : Stats) :
    (table tableName : TxnM α (TableSchema α)).run ⟨t, stats⟩ = .ok ts ⟨t, stats⟩ := by
  rw [run_table, ht]

theorem run_all_ok {index : String} {args : List Arg} {q : Query α} {tree : Tree α}
    (hlookup : t.lookup tableName index args = .ok (q, tree)) (stats : Stats) :
    (all tableName index args).run ⟨t, stats⟩ =
      .ok (q.all tree) ⟨t, { stats with iterators := stats.iterators + 1 }⟩ := by
  rw [all, run_iterate, hlookup]

/-- What a query lists is told apart and removed. -/
theorem moves_listed {f : List (Key × α) → TxnM α β}
    (hf : ∀ objects s, ((f objects).leaves s).stats = s.stats) (hs : t.Sound)
    (ht : t.schema.table? tableName = some ts) {index : String} {args : List Arg}
    {q : Query α} {tree : Tree α} (hlookup : t.lookup tableName index args = .ok (q, tree))
    (bulk : Option (String × Key)) (stats : Stats) :
    stats.Moves ((lift (ts.distinct tableName [] (q.all tree).objects) >>= fun objects =>
      removeEach tableName ts bulk objects >>= fun _ => f objects).leaves
        ⟨t, { stats with iterators := stats.iterators + 1 }⟩).stats 0
        ((t.listed ts tableName index args).takeWhile fun x => ts.derivable x.2).length := by
  cases hgone : ts.distinct tableName [] (q.all tree).objects with
  | error e =>
    have hnone : t.listed ts tableName index args = [] := by
      rw [Txn.listed, hlookup]
      simp only [hgone]
      rfl
    rw [hnone]
    exact ⟨rfl, rfl, rfl, rfl, rfl⟩
  | ok gone =>
    rw [Txn.listed_eq hlookup hgone, leaves_bind, run_lift_ok]
    dsimp only
    rw [stats_removeEach_bind (hf gone) hs ht]
    exact ⟨rfl, rfl, rfl, rfl, rfl⟩

theorem moves_deleteAll (hs : t.Sound) (hwrite : t.ensureWrite = .ok ())
    (tableName index : String) (args : List Arg) (stats : Stats) :
    stats.Moves ((deleteAll tableName index args).leaves ⟨t, stats⟩).stats 0
      (t.removes (.deleteAll tableName index args)).length := by
  cases hlookup : t.lookup tableName index args with
  | error e =>
    have hnone (ts : TableSchema α) : t.targets ts (.deleteAll tableName index args) = [] :=
      Txn.listed_of_error hlookup
    rw [Txn.removes_of_targets hnone]
    have hrun : (deleteAll tableName index args).run ⟨t, stats⟩ = .error e ⟨t, stats⟩ := by
      simp only [deleteAll, all, run_bind, run_ensureWrite, hwrite, run_iterate, hlookup]
    exact moves_of_error hrun
  | ok x =>
    rcases x with ⟨q, tree⟩
    rcases Schema.resolve_spec (Txn.lookup_spec hlookup).2.1 with ⟨ts, ht, _⟩
    rw [Txn.removes_eq (w := .deleteAll tableName index args) hwrite ht, Txn.targets]
    rw [deleteAll, leaves_bind_of_ok (run_ensureWrite_ok hwrite stats),
      leaves_bind_of_ok (run_all_ok hlookup stats), leaves_bind_of_ok (run_table_ok ht _)]
    exact moves_listed (fun _ _ => rfl) hs ht hlookup none stats

theorem moves_deleteStem (hs : t.Sound) (hwrite : t.ensureWrite = .ok ())
    (tableName index : String) (args : List Arg) (stats : Stats) :
    stats.Moves ((deleteStem tableName index args).leaves ⟨t, stats⟩).stats 0
      (t.removes (.deleteStem tableName index args)).length := by
  cases hbase : (stemBase? index).isSome with
  | false =>
    have hnone (ts : TableSchema α) : t.targets ts (.deleteStem tableName index args) = [] := by
      rw [Txn.targets, hbase]
      rfl
    rw [Txn.removes_of_targets hnone]
    have hrun : (deleteStem tableName index args).run ⟨t, stats⟩ =
        .error (.notStemIndex index) ⟨t, stats⟩ := by
      simp [deleteStem, hwrite, Option.isSome_eq_false_iff.1 hbase]
    exact moves_of_error hrun
  | true =>
    have hnone : (stemBase? index).isNone = false := by
      rw [← Option.not_isSome, hbase]
      rfl
    rw [deleteStem, leaves_bind_of_ok (run_ensureWrite_ok hwrite stats)]
    simp only [hnone, Bool.false_eq_true, if_false]
    rw [leaves_bind_of_ok (run_txn (s := ⟨t, stats⟩))]
    cases hlookup : t.lookup tableName index args with
    | error e =>
      have hnone (ts : TableSchema α) : t.targets ts (.deleteStem tableName index args) = [] := by
        rw [Txn.targets, hbase, if_pos rfl, Txn.listed_of_error hlookup]
      rw [Txn.removes_of_targets hnone, leaves_bind]
      cases hq : t.schema.resolve tableName index args with
      | error e => exact .refl stats
      | ok q =>
        rw [run_lift_ok]
        dsimp only
        rw [leaves_bind, all, run_iterate, hlookup]
        exact .refl stats
    | ok x =>
      rcases x with ⟨q, tree⟩
      have hq := (Txn.lookup_spec hlookup).2.1
      rcases Schema.resolve_spec hq with ⟨ts, ht, _⟩
      rw [Txn.removes_eq (w := .deleteStem tableName index args) hwrite ht, Txn.targets, hbase,
        if_pos rfl, hq, leaves_bind_of_ok (run_lift_ok q),
        leaves_bind_of_ok (run_all_ok hlookup stats)]
      by_cases hempty : (q.all tree).objects.isEmpty = true
      · have hlisted : t.listed ts tableName index args = [] := by
          refine Txn.listed_eq hlookup ?_
          rw [List.isEmpty_iff.1 hempty]
          rfl
        rw [if_pos hempty, hlisted]
        exact ⟨rfl, rfl, rfl, rfl, rfl⟩
      · rw [if_neg hempty, leaves_bind_of_ok (run_table_ok ht _)]
        exact moves_listed (fun _ s => stats_editIndex tableName q.name _ s) hs ht hlookup _ stats

/-- A write counts the objects that it removes, and nothing else if it is no insertion. -/
theorem moves_removal (hs : t.Sound) (hv : t.schema.validate = .ok ()) {w : Write α}
    (hw : ∀ table object, w ≠ .insert table object) (stats : Stats) :
    stats.Moves ((write w).leaves ⟨t, stats⟩).stats 0 (t.removes w).length := by
  cases hwrite : t.ensureWrite with
  | error e =>
    rw [Txn.removes_of_refused hwrite]
    exact moves_of_error (run_write_refused hwrite w stats)
  | ok _ =>
    cases w with
    | insert table object => exact absurd rfl (hw table object)
    | delete table object => exact moves_delete hs hv hwrite table object stats
    | deleteStem table index args =>
      rw [write, leaves_bind_pure]
      exact moves_deleteStem hs hwrite table index args stats
    | deleteAll table index args =>
      rw [write, leaves_bind_pure]
      exact moves_deleteAll hs hwrite table index args stats

/-- No write counts anything else. -/
theorem exists_moves_write (hs : t.Sound) (hv : t.schema.validate = .ok ()) (w : Write α)
    (stats : Stats) :
    ∃ inserts deletes, stats.Moves ((write w).leaves ⟨t, stats⟩).stats inserts deletes := by
  cases w with
  | insert table object =>
    rcases run_insert_cases hs hv table object stats with ⟨e, hrun⟩ | ⟨t', hrun⟩
    · exact ⟨0, 0, moves_of_error hrun⟩
    · refine ⟨1, 0, ?_⟩
      rw [write, leaves, hrun]
      exact ⟨rfl, rfl, rfl, rfl, rfl⟩
  | delete | deleteStem | deleteAll => exact ⟨0, _, moves_removal hs hv (by simp) stats⟩

end TxnM

/-- A query counts neither insertions nor removals. -/
theorem Scan.moves (scan : Scan) (table index : String) (args : List Arg)
    (t : Txn α) (stats : Stats) :
    stats.Moves ((scan.run table index args).leaves ⟨t, stats⟩).stats 0 0 := by
  cases scan with
  | first | last =>
    simp only [Scan.run, TxnM.first, TxnM.last, TxnM.leaves_bind, TxnM.run_lookup]
    cases t.lookup table index args <;> exact ⟨rfl, rfl, rfl, rfl, rfl⟩
  | all | allDown | atLeast | atMost =>
    simp only [Scan.run, TxnM.all, TxnM.allDown, TxnM.atLeast, TxnM.atMost, TxnM.leaves_bind,
      TxnM.run_iterate]
    cases t.lookup table index args <;> exact ⟨rfl, rfl, rfl, rfl, rfl⟩

namespace Txn

variable {t : Txn α} {ts : TableSchema α} {table : String} {gone : List (Key × α)}

/-! ## What a table loses -/

/-- The objects that a table has in `t` and has no more in `t'`, each once, with their primary
keys. -/
structure Lost (t t' : Txn α) (table : String) (gone : List (Key × α)) : Prop where
  nodup : (gone.map Prod.fst).Nodup
  mem_iff : ∀ p o, (p, o) ∈ gone ↔ t.forest.value? table primaryName p = some o ∧
    t'.forest.value? table primaryName p = none

variable {t' : Txn α}

theorem Lost.refl (t : Txn α) (table : String) : t.Lost t table [] := by
  refine ⟨List.nodup_nil, fun p o => iff_of_false List.not_mem_nil ?_⟩
  rintro ⟨hold, hnone⟩
  rw [hnone] at hold
  cases hold

/-- A table that took an object lost none. -/
theorem Takes.lost (h : t.Orderly) (ht : t.schema.table? table = some ts) {p : Key} {o : α}
    (hp : ts.primaryKey table o = .ok p) (htakes : t.Takes t' table ts p o) :
    t.Lost t' table [] := by
  refine ⟨List.nodup_nil, fun p' x => iff_of_false List.not_mem_nil ?_⟩
  rintro ⟨hold, hnone⟩
  rw [htakes.value?_primary h ht hp] at hnone
  split at hnone
  · cases hnone
  · rw [hnone] at hold
    cases hold

theorem Loses.lost (h : t.Orderly) (ht : t.schema.table? table = some ts)
    (hgone : ∀ p o, (p, o) ∈ gone → t.forest.value? table primaryName p = some o)
    (hnodup : (gone.map Prod.fst).Nodup) (hloses : t.Loses t' table ts gone none) :
    t.Lost t' table gone := by
  refine ⟨hnodup, fun p o => ⟨fun hm => ⟨hgone p o hm, ?_⟩, ?_⟩⟩
  · refine Option.eq_none_iff_forall_ne_some.2 fun x hx => ?_
    rcases (hloses.value?_primary h ht hgone p x).1 hx with ⟨hold, hnot⟩
    rw [hgone p o hm] at hold
    exact hnot (Option.some.inj hold ▸ hm)
  · rintro ⟨hold, hnone⟩
    by_contra hnot
    rw [(hloses.value?_primary h ht hgone p o).2 ⟨hold, hnot⟩] at hnone
    cases hnone

/-- All keys of stored objects can be derived. -/
theorem Orderly.takeWhile_derivable (h : t.Orderly) (ht : t.schema.table? table = some ts)
    (hgone : ∀ p o, (p, o) ∈ gone → t.forest.value? table primaryName p = some o) :
    (gone.takeWhile fun x => ts.derivable x.2) = gone := by
  refine List.takeWhile_eq_self_iff.2 fun x hx => ?_
  exact TableSchema.derivable_iff.2 ((h.consistent table ts ht).accepts x.1 x.2 (hgone x.1 x.2 hx))

theorem Orderly.lost_listed (h : t.Orderly) (ht : t.schema.table? table = some ts)
    {index : String} {args : List Arg} {q : Query α} (hlists : t.Lists table index args ts q gone)
    (hfinds : t.Finds table q gone) (hloses : t.Loses t' table ts gone none) :
    t.Lost t' table ((t.listed ts table index args).takeWhile fun x => ts.derivable x.2) := by
  rcases hlists with ⟨tree, hlookup, hdistinct⟩
  have hgone (p : Key) (o : α) (hm : (p, o) ∈ gone) := ((hfinds p o).1 hm).1
  rw [listed_eq hlookup hdistinct, h.takeWhile_derivable ht hgone]
  exact hloses.lost h ht hgone (TableSchema.nodup_distinct hdistinct).1

/-- Where the paths of all indexes differ, a write removes the objects that its table had before
and has no more after it. -/
theorem Orderly.lost_removes (h : t.Orderly) (w : Write α) (stats : Stats) :
    t.Lost ((TxnM.write w).leaves ⟨t, stats⟩).txn w.table (t.removes w) := by
  have hcounts (hw : ∀ table object, w ≠ .insert table object) :=
    TxnM.moves_removal h.sound h.valid hw stats
  -- a write that fails counts nothing, so it removes nothing
  have hfail {e : Error} (hw : ∀ table object, w ≠ .insert table object)
      (hrun : (TxnM.write w).run ⟨t, stats⟩ = .error e ⟨t, stats⟩) :
      t.Lost ((TxnM.write w).leaves ⟨t, stats⟩).txn w.table (t.removes w) := by
    have hdeletes := (hcounts hw).deletes
    simp only [TxnM.leaves, hrun] at hdeletes ⊢
    rw [List.eq_nil_of_length_eq_zero (Nat.left_eq_add.1 hdeletes)]
    exact .refl t w.table
  cases hwrite : t.ensureWrite with
  | error e =>
    rw [removes_of_refused hwrite, TxnM.leaves, TxnM.run_write_refused hwrite]
    exact .refl t w.table
  | ok _ =>
    cases w with
    | insert table object =>
      rw [removes_of_targets fun _ => rfl, TxnM.write, TxnM.leaves]
      rcases TxnM.run_insert h table object stats with
        ⟨e, _, hrun⟩ | ⟨ts, p, t', _, ht, hp, htakes, hrun⟩
      · rw [hrun]
        exact .refl t table
      · rw [hrun]
        exact htakes.lost h ht hp
    | delete table object =>
      rcases TxnM.run_delete h table object stats with
        ⟨e, _, hrun⟩ | ⟨ts, p, old, t', _, ht, hp, hold, hloses, hrun⟩
      · exact hfail (by simp) hrun
      · have hgone (p' : Key) (o : α) (hm : (p', o) ∈ [(p, old)]) :
            t.forest.value? table primaryName p' = some o := by
          obtain ⟨rfl, rfl⟩ : p' = p ∧ o = old := by simpa using hm
          exact hold
        rw [removes_eq (w := .delete table object) hwrite ht, targets, hp]
        simp only [hold, Option.toList_some, List.map_cons, List.map_nil]
        rw [h.takeWhile_derivable ht hgone, TxnM.write, TxnM.leaves, hrun]
        exact hloses.lost h ht hgone (List.nodup_singleton p)
    | deleteStem table index args =>
      rcases TxnM.run_deleteStem h table index args stats with
        ⟨e, _, hrun⟩ | ⟨ts, q, gone, t', hprepare, ht, _, hfinds, hlists, hloses, hrun⟩
      · exact hfail (by simp) (by rw [TxnM.write, TxnM.run_bind, hrun])
      · have hbase : (stemBase? index).isSome = true := by
          cases hbase : stemBase? index with
          | none =>
            rw [prepare, hwrite, ok_bind, hbase] at hprepare
            cases hprepare
          | some base => rfl
        rw [removes_eq (w := .deleteStem table index args) hwrite ht, targets, if_pos hbase,
          TxnM.write, TxnM.leaves_bind_pure, TxnM.leaves, hrun]
        exact h.lost_listed ht hlists hfinds hloses
    | deleteAll table index args =>
      rcases TxnM.run_deleteAll h table index args stats with
        ⟨e, _, hrun⟩ | ⟨ts, q, gone, t', _, ht, _, hfinds, hlists, hloses, hrun⟩
      · exact hfail (by simp) (by rw [TxnM.write, TxnM.run_bind, hrun])
      · rw [removes_eq (w := .deleteAll table index args) hwrite ht, targets, TxnM.write,
          TxnM.leaves_bind_pure, TxnM.leaves, hrun]
        exact h.lost_listed ht hlists hfinds hloses

end Txn

end SnapStore
