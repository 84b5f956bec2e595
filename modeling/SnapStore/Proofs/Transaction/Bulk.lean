import SnapStore.Proofs.Radix.Refinement
import SnapStore.Proofs.Transaction.Outcome

/-! # Removals by query

A removal by query takes the objects that the query finds, each once, and the indexes lose
what they stored of these. Removing a whole stem of the queried index at once comes to the
same. Once the query is understood nothing fails, however many objects there are to remove.

Main statements: `run_deleteAll` and `run_deleteStem`.
-/

namespace SnapStore

variable {α β : Type}

/-! ## Queries -/

theorem Txn.lookup_spec {t : Txn α} {table index : String} {args : List Arg} {q : Query α}
    {tree : Tree α} (h : t.lookup table index args = .ok (q, tree)) :
    t.ensureActive = .ok () ∧ t.schema.resolve table index args = .ok q ∧
      t.forest (indexPath table q.name) = some tree := by
  simp only [lookup, bind_eq_ok_iff, readable_eq] at h
  rcases h with ⟨_, hactive, q', hq, tree', htree, hpair⟩
  obtain ⟨rfl, rfl⟩ : q' = q ∧ tree' = tree := by
    have heq := Except.ok.inj hpair
    exact Prod.mk.inj heq
  refine ⟨hactive, hq, ?_⟩
  cases hf : t.forest (indexPath table q'.name) with
  | none => simp [hf] at htree
  | some x =>
    obtain rfl : x = tree' := by simpa [hf] using htree
    rfl

/-- A transaction that may write looks nothing up for a query that it does not understand. -/
theorem Txn.lookup_of_resolve_error {t : Txn α} {table index : String} {args : List Arg}
    {e : Error} (hw : t.ensureWrite = .ok ()) (hq : t.schema.resolve table index args = .error e) :
    t.lookup table index args = .error e := by
  rw [ensureWrite, bind_eq_ok_iff] at hw
  rcases hw with ⟨_, hactive, _⟩
  rw [lookup, hactive, hq]
  rfl

/-- The objects a query lists are those whose stored key starts with its key. -/
theorem Query.mem_objects_all {q : Query α} {tree : Tree α} (h : tree.Wf) {o : α} :
    o ∈ (q.all tree).objects ↔ ∃ k, q.key <+: k ∧ tree.get? k = some o := by
  simp only [all, List.mem_map, h.mem_seek]
  constructor
  · rintro ⟨l, ⟨hl, hs⟩, rfl⟩
    exact ⟨l.key, hs, h.get?_leaf hl⟩
  · rintro ⟨k, hs, hk⟩
    rcases h.get?_eq_some_iff.1 hk with ⟨l, hl, rfl, rfl⟩
    exact ⟨l, ⟨hl, hs⟩, rfl⟩

theorem TxnM.run_iterate (answer : Query α → Tree α → β) (table index : String) (args : List Arg)
    (s : Session α) :
    (iterate answer table index args).run s =
      match s.txn.lookup table index args with
      | .ok (q, tree) =>
        .ok (answer q tree) { s with stats := { s.stats with iterators := s.stats.iterators + 1 } }
      | .error e => .error e s := by
  simp only [iterate, run_bind, run_txn]
  cases s.txn.lookup table index args with
  | error e => rfl
  | ok x => rfl

/-! ## The objects found -/

/-- Each object comes with its primary key, and each primary key that was not seen comes with
one of the objects. -/
theorem TableSchema.distinct_spec {ts : TableSchema α} {table : String} :
    ∀ {objects : List α} {seen : List Key} {gone : List (Key × α)},
      ts.distinct table seen objects = .ok gone →
      (∀ p o, (p, o) ∈ gone → o ∈ objects ∧ ts.primaryKey table o = .ok p) ∧
      ∀ o ∈ objects, ∃ p, ts.primaryKey table o = .ok p ∧ (p ∈ seen ∨ ∃ o', (p, o') ∈ gone)
  | [], _, gone, h => by
    obtain rfl : [] = gone := by simpa [distinct] using h
    simp
  | o :: rest, seen, gone, h => by
    rw [distinct, bind_eq_ok_iff] at h
    rcases h with ⟨p, hp, h⟩
    split at h
    · -- another object with this primary key came before
      rename_i hseen
      rcases distinct_spec h with ⟨hsound, hall⟩
      refine ⟨fun p' o' hm => ?_, fun o' ho' => ?_⟩
      · exact ⟨List.mem_cons_of_mem o (hsound p' o' hm).1, (hsound p' o' hm).2⟩
      · rcases List.mem_cons.1 ho' with rfl | ho'
        · exact ⟨p, hp, .inl (by simpa using hseen)⟩
        · exact hall o' ho'
    · -- the primary key is new, and seen from here on
      rw [bind_eq_ok_iff] at h
      rcases h with ⟨more, hmore, hgone⟩
      obtain rfl : (p, o) :: more = gone := Except.ok.inj hgone
      rcases distinct_spec hmore with ⟨hsound, hall⟩
      refine ⟨fun p' o' hm => ?_, fun o' ho' => ?_⟩
      · rcases List.mem_cons.1 hm with heq | hm
        · cases heq
          exact ⟨List.mem_cons_self, hp⟩
        · exact ⟨List.mem_cons_of_mem o (hsound p' o' hm).1, (hsound p' o' hm).2⟩
      · rcases List.mem_cons.1 ho' with rfl | ho'
        · exact ⟨p, hp, .inr ⟨o', List.mem_cons_self⟩⟩
        · rcases hall o' ho' with ⟨p', hp', hin⟩
          refine ⟨p', hp', ?_⟩
          rcases hin with hin | ⟨o'', hin⟩
          · rcases List.mem_cons.1 hin with rfl | hin
            · exact .inr ⟨o, List.mem_cons_self⟩
            · exact .inl hin
          · exact .inr ⟨o'', List.mem_cons_of_mem _ hin⟩

/-- Objects that have primary keys can be told apart by them. -/
theorem TableSchema.exists_distinct {ts : TableSchema α} {table : String} {objects : List α}
    (h : ∀ o ∈ objects, ∃ p, ts.primaryKey table o = .ok p) (seen : List Key) :
    ∃ gone, ts.distinct table seen objects = .ok gone := by
  induction objects generalizing seen with
  | nil => exact ⟨[], rfl⟩
  | cons o rest ih =>
    have hrest := ih fun o' ho' => h o' (List.mem_cons_of_mem o ho')
    rcases h o List.mem_cons_self with ⟨p, hp⟩
    rw [distinct, hp, ok_bind]
    split
    · exact hrest seen
    · rcases hrest (p :: seen) with ⟨more, hmore⟩
      exact ⟨(p, o) :: more, by rw [hmore]; rfl⟩

namespace Txn

variable {t : Txn α} {table : String} {ts : TableSchema α} {q : Query α} {tree : Tree α}
  {gone : List (Key × α)}

/-- Whatever a query lists has a primary key. -/
theorem Orderly.exists_distinct (h : t.Orderly) (ht : t.schema.table? table = some ts)
    (hq : (q.name, q.index) ∈ ts.indexes)
    (htree : t.forest (indexPath table q.name) = some tree) :
    ∃ gone, ts.distinct table [] (q.all tree).objects = .ok gone := by
  have hc := h.consistent table ts ht
  refine TableSchema.exists_distinct (fun o ho => ?_) []
  rcases (Query.mem_objects_all (h.sound.wf_forest.tree _ tree htree)).1 ho with ⟨k, _, hk⟩
  rw [← Forest.value?_eq htree] at hk
  rcases hc.owned q.name q.index hq k o hk with ⟨p, hp, _⟩
  exact ⟨p, hc.primaryKey p o hp⟩

/-- What a query lists, each object once with its primary key, is what the table stores and
the query finds. -/
theorem Orderly.finds (h : t.Orderly) (ht : t.schema.table? table = some ts)
    (hq : (q.name, q.index) ∈ ts.indexes) (htree : t.forest (indexPath table q.name) = some tree)
    (hgone : ts.distinct table [] (q.all tree).objects = .ok gone) : t.Finds table q gone := by
  have hw : tree.Wf := h.sound.wf_forest.tree _ tree htree
  have hc := h.consistent table ts ht
  rcases TableSchema.distinct_spec hgone with ⟨hsound, hall⟩
  -- an object that is listed is stored under its primary key
  have hlisted (o : α) (ho : o ∈ (q.all tree).objects) (p : Key)
      (hp : ts.primaryKey table o = .ok p) : t.forest.value? table primaryName p = some o ∧
        ∃ k, q.key <+: k ∧ t.forest.value? table q.name k = some o := by
    rcases (Query.mem_objects_all hw).1 ho with ⟨k, hs, hk⟩
    rw [← Forest.value?_eq htree] at hk
    rcases hc.owned q.name q.index hq k o hk with ⟨p', hp', _⟩
    have heq := (hc.primaryKey p' o hp').symm.trans hp
    exact ⟨Except.ok.inj heq ▸ hp', k, hs, hk⟩
  intro p o
  constructor
  · intro hm
    rcases hsound p o hm with ⟨ho, hp⟩
    exact hlisted o ho p hp
  · rintro ⟨hpo, k, hs, hk⟩
    have ho : o ∈ (q.all tree).objects :=
      (Query.mem_objects_all hw).2 ⟨k, hs, by rwa [← Forest.value?_eq htree]⟩
    rcases hall o ho with ⟨p', hp', hin⟩
    obtain rfl : p = p' := Except.ok.inj ((hc.primaryKey p o hpo).symm.trans hp')
    rcases hin with hin | ⟨o', hin⟩
    · simp at hin
    · -- two objects with one primary key are the same, as only one is stored under it
      rcases hsound p o' hin with ⟨ho', hp''⟩
      have hpo' := (hlisted o' ho' p hp'').1
      rw [hpo] at hpo'
      exact Option.some.inj hpo' ▸ hin

/-- Whatever stands under the stem of a query belongs to an object that the query finds. -/
theorem Finds.exists_of_stem (hfinds : t.Finds table q gone) (h : t.Orderly)
    (ht : t.schema.table? table = some ts) (hq : (q.name, q.index) ∈ ts.indexes) {k : Key} {o : α}
    (hstem : q.key <+: k) (hk : t.forest.value? table q.name k = some o) :
    ∃ p, (p, o) ∈ gone ∧ q.index.Stores o p k := by
  rcases (h.consistent table ts ht).owned q.name q.index hq k o hk with ⟨p, hp, hst⟩
  exact ⟨p, (hfinds p o).2 ⟨hp, k, hstem, hk⟩, hst⟩

/-- Whatever is stored was accepted by every index. -/
theorem Finds.accepts (hfinds : t.Finds table q gone) (h : t.Orderly)
    (ht : t.schema.table? table = some ts) :
    ∀ x ∈ gone, ∀ name i, (name, i) ∈ ts.indexes → i.Accepts x.2 :=
  fun x hx => (h.consistent table ts ht).accepts x.1 x.2 ((hfinds x.1 x.2).1 hx).1

/-- Where the stem of the queried index has been kept while the indexes lost what the query finds,
it is empty only if the query finds nothing. -/
theorem Loses.stem_clear_iff {t' : Txn α}
    (hloses : t.Loses t' table ts gone (some (q.name, q.key))) (h : t.Orderly)
    (ht : t.schema.table? table = some ts) (hq : (q.name, q.index) ∈ ts.indexes)
    (hfinds : t.Finds table q gone) :
    (∀ k, q.key <+: k → t'.forest.value? table q.name k = none) ↔ gone = [] := by
  constructor
  · intro hnone
    refine List.eq_nil_iff_forall_not_mem.2 fun ⟨p, o⟩ hm => ?_
    rcases ((hfinds p o).1 hm).2 with ⟨k, hstem, hk⟩
    have hkept := (hloses.entries q.name q.index hq k o).2
      ⟨hk, fun _ _ _ => ⟨q.key, rfl, hstem⟩⟩
    rw [hnone k hstem] at hkept
    cases hkept
  · rintro rfl k hstem
    refine Option.eq_none_iff_forall_ne_some.2 fun o hk => ?_
    have hold := ((hloses.entries q.name q.index hq k o).1 hk).1
    rcases hfinds.exists_of_stem h ht hq hstem hold with ⟨p, hm, _⟩
    cases hm

end Txn

/-- The objects that a query lists, each once, with their primary keys. -/
def Txn.Lists (t : Txn α) (table index : String) (args : List Arg) (ts : TableSchema α)
    (q : Query α) (gone : List (Key × α)) : Prop :=
  ∃ tree, t.lookup table index args = .ok (q, tree) ∧
    ts.distinct table [] (q.all tree).objects = .ok gone

/-! ## The removals -/

/-- The counters after a query that found objects to remove, that many of them. -/
def Stats.removed (stats : Stats) (n : Nat) : Stats :=
  { stats with iterators := stats.iterators + 1, deletes := stats.deletes + n }

namespace TxnM

variable {t : Txn α}

/-- A removal by query fails in its preparation, or the indexes lose what the query finds. -/
theorem run_deleteAll (h : t.Orderly) (tableName index : String) (args : List Arg)
    (stats : Stats) :
    (∃ e, t.prepare (.deleteAll tableName index args) = .error e ∧
      (deleteAll tableName index args).run ⟨t, stats⟩ = .error e ⟨t, stats⟩) ∨
      ∃ ts q gone t', t.prepare (.deleteAll tableName index args) = .ok () ∧
        t.schema.table? tableName = some ts ∧
        t.schema.resolve tableName index args = .ok q ∧ t.Finds tableName q gone ∧
        t.Lists tableName index args ts q gone ∧ t.Loses t' tableName ts gone none ∧
        (deleteAll tableName index args).run ⟨t, stats⟩ =
          .ok gone.length ⟨t', stats.removed gone.length⟩ := by
  rw [deleteAll, run_bind, run_ensureWrite, Txn.prepare]
  cases hw : t.ensureWrite with
  | error e => exact .inl ⟨e, rfl, rfl⟩
  | ok _ =>
    simp only [run_bind, all, run_iterate, run_table, ok_bind]
    cases hlookup : t.lookup tableName index args with
    | error e => exact .inl ⟨e, rfl, rfl⟩
    | ok x =>
      rcases x with ⟨q, tree⟩
      rcases Txn.lookup_spec hlookup with ⟨_, hq, htree⟩
      rcases Schema.resolve_spec hq with ⟨ts, ht, hqm⟩
      rcases h.exists_distinct ht hqm htree with ⟨gone, hgone⟩
      have hfinds := h.finds ht hqm htree hgone
      rcases run_removeEach gone t { stats with iterators := stats.iterators + 1 } h.sound h.nodup
        ht (hfinds.accepts h ht) with ⟨t', hloses, hrun⟩
      simp only [ht, hgone, run_lift_ok]
      rw [hrun]
      have hlists : t.Lists tableName index args ts q gone := ⟨tree, hlookup, hgone⟩
      exact .inr ⟨ts, q, gone, t', rfl, rfl, hq, hfinds, hlists, hloses, rfl⟩

/-- The stem of the queried index goes at once: with it, the indexes lose what they would
lose one by one. It is empty only if the query finds nothing. -/
theorem loses_eraseStem {ts : TableSchema α} {tableName : String} {q : Query α}
    {gone : List (Key × α)} {t' : Txn α} (h : t.Orderly)
    (ht : t.schema.table? tableName = some ts) (hqm : (q.name, q.index) ∈ ts.indexes)
    (hfinds : t.Finds tableName q gone)
    (hloses : t.Loses t' tableName ts gone (some (q.name, q.key))) (stats : Stats) :
    ∃ t'', t.Loses t'' tableName ts gone none ∧
      (editIndex tableName q.name fun d => d.eraseStem q.key).run ⟨t', stats⟩ =
        .ok (!gone.isEmpty) ⟨t'', stats⟩ := by
  have hschema := hloses.evolves.schema_eq
  have hpath : indexPath tableName q.name ∈ t'.schema.paths := hschema ▸ Schema.mem_paths ht hqm
  obtain ⟨draft, hd, hwf, hedit⟩ :=
    Txn.value?_withEdits (hloses.evolves.sound h.sound) hpath [.eraseStem q.key]
  have hvalue (k : Key) : t'.forest.value? tableName q.name k = draft.tree.get? k := by
    have htree := t'.tree_draftAt (indexPath tableName q.name)
    rw [hd, Option.map_some] at htree
    exact Forest.value?_eq htree.symm k
  have hget (k : Key) : (draft.applyAll [.eraseStem q.key]).tree.get? k =
      if k.startsWith q.key then none else t'.forest.value? tableName q.name k := by
    rw [hvalue]
    exact Draft.get?_eraseStem hwf q.key k
  have hanswer : (draft.eraseStem q.key).2 = !gone.isEmpty := by
    rw [Draft.eraseStem_snd]
    congr 1
    rw [Bool.eq_iff_iff, List.isEmpty_iff, List.isEmpty_iff, hwf.seek_eq_nil_iff,
      ← hloses.stem_clear_iff h ht hqm hfinds]
    simp only [hvalue]
  have hedits : (draft.eraseStem q.key).1 = draft.applyAll [.eraseStem q.key] := rfl
  refine ⟨_, ⟨?_, ?_, ?_, ?_⟩, (run_editIndex hd hedits).trans (by rw [hanswer])⟩
  · exact hloses.evolves.trans (.withEdits t' _ _)
  · rcases t'.exists_handles_withEdits (indexPath tableName q.name)
      [.eraseStem q.key] with ⟨handles, hh⟩
    rw [hh]
    exact hloses.log
  · intro name i hi k x
    have hold := hloses.entries name i hi k x
    rw [hedit]
    by_cases hname : name = q.name
    · -- the queried index itself
      subst hname
      obtain rfl : i = q.index := by
        have hkeys := Schema.nodup_keys h.nodup ht
        have hfound := (Catalog.find?_eq_some_iff hkeys).2 hi
        rw [(Catalog.find?_eq_some_iff hkeys).2 hqm] at hfound
        exact (Option.some.inj hfound).symm
      rw [if_pos rfl, hget]
      by_cases hstem : k.startsWith q.key = true
      · rw [if_pos hstem]
        simp only [reduceCtorEq, false_iff, not_and]
        intro hx hall
        have hstem := Key.startsWith_iff.1 hstem
        rcases hfinds.exists_of_stem h ht hqm hstem hx with ⟨p, hm, hst⟩
        rcases hall (p, x) hm hst with ⟨stem, hnone, _⟩
        simp at hnone
      · rw [if_neg hstem, hold]
        refine and_congr_right fun _ => forall₂_congr fun y _ => imp_congr_right fun _ => ?_
        simp [← Key.startsWith_iff, hstem]
    · -- another index of the table
      have hpath : indexPath tableName name ≠ indexPath tableName q.name := fun heq =>
        hname (Schema.indexPath_inj h.nodup ht hi ht hqm heq).2
      rw [if_neg hpath, hold]
      refine and_congr_right fun _ => forall₂_congr fun y _ => imp_congr_right fun _ => ?_
      simp [Ne.symm hname]
  · intro table' ts' name' i' ht' hi' hne k
    have hpath : indexPath table' name' ≠ indexPath tableName q.name := fun heq =>
      hne (Schema.indexPath_inj h.nodup ht' hi' ht hqm heq).1
    rw [hedit, if_neg hpath]
    exact hloses.others table' ts' name' i' ht' hi' hne k

/-- A removal by stem fails in its preparation, or the indexes lose what the query finds. -/
theorem run_deleteStem (h : t.Orderly) (tableName index : String) (args : List Arg)
    (stats : Stats) :
    (∃ e, t.prepare (.deleteStem tableName index args) = .error e ∧
      (deleteStem tableName index args).run ⟨t, stats⟩ = .error e ⟨t, stats⟩) ∨
      ∃ ts q gone t', t.prepare (.deleteStem tableName index args) = .ok () ∧
        t.schema.table? tableName = some ts ∧
        t.schema.resolve tableName index args = .ok q ∧ t.Finds tableName q gone ∧
        t.Lists tableName index args ts q gone ∧ t.Loses t' tableName ts gone none ∧
        (deleteStem tableName index args).run ⟨t, stats⟩ =
          .ok (!gone.isEmpty) ⟨t', stats.removed gone.length⟩ := by
  rw [deleteStem, run_bind, run_ensureWrite, Txn.prepare]
  cases hw : t.ensureWrite with
  | error e => exact .inl ⟨e, rfl, rfl⟩
  | ok _ =>
    cases hbase : stemBase? index with
    | none => exact .inl ⟨_, rfl, rfl⟩
    | some base =>
      simp only [Option.isNone_some, Bool.false_eq_true, if_false, run_bind, run_txn, all,
        run_iterate, ok_bind]
      cases hq : t.schema.resolve tableName index args with
      | error e =>
        rw [Txn.lookup_of_resolve_error hw hq]
        exact .inl ⟨e, rfl, rfl⟩
      | ok q =>
        simp only [run_lift_ok]
        cases hlookup : t.lookup tableName index args with
        | error e => exact .inl ⟨e, rfl, rfl⟩
        | ok x =>
          rcases x with ⟨q', tree⟩
          rcases Txn.lookup_spec hlookup with ⟨_, hq', htree⟩
          obtain rfl : q = q' := Except.ok.inj (hq.symm.trans hq')
          rcases Schema.resolve_spec hq with ⟨ts, ht, hqm⟩
          rcases h.exists_distinct ht hqm htree with ⟨gone, hgone⟩
          have hfinds := h.finds ht hqm htree hgone
          have hlists : t.Lists tableName index args ts q gone := ⟨tree, hlookup, hgone⟩
          by_cases hnone : (q.all tree).objects.isEmpty = true
          · -- nothing is found, and nothing is written
            obtain rfl : [] = gone := by
              rw [List.isEmpty_iff.1 hnone] at hgone
              exact Except.ok.inj hgone
            simp only [if_pos hnone]
            exact .inr ⟨ts, q, [], t, rfl, ht, rfl, hfinds, hlists, .nil t, rfl⟩
          · rcases run_removeEach gone t { stats with iterators := stats.iterators + 1 } h.sound
              h.nodup ht (hfinds.accepts h ht) with ⟨t', hloses, hrun⟩
            rcases loses_eraseStem h ht hqm hfinds hloses (stats.removed gone.length) with
              ⟨t'', hloses', hrun'⟩
            simp only [if_neg hnone, run_bind, run_table, ht, hgone, run_lift_ok]
            rw [hrun]
            exact .inr ⟨ts, q, gone, t'', rfl, rfl, rfl, hfinds, hlists, hloses', hrun'⟩

end TxnM

end SnapStore
