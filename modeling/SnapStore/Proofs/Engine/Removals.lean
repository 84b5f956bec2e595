import SnapStore.Proofs.Engine.Atomic
import SnapStore.Proofs.Engine.Ends
import SnapStore.Proofs.Transaction.Notes

/-! # Removals in a run

To remove a stem at once is to remove, one by one, the objects that a query for the stem lists. In
the index of the query the two take different routes, and they come to the same entries, the same
change log and the same counters. What goes is what the query lists, each object once however many
of its keys the query meets.

Main statements: `deleteStem_matches_deleteAll` and `deleteAll_removes_listed`.
-/

namespace SnapStore

variable {α : Type}

namespace Txn

variable {t t' t₁ t₂ : Txn α} {table index : String} {args : List Arg} {ts : TableSchema α}
  {q : Query α} {gone : List (Key × α)}

theorem ensureWrite_eq_ok_iff : t.ensureWrite = .ok () ↔ t.isWriting = true := by
  rw [ensureWrite, ensureActive, isWriting]
  cases t.state <;> cases t.write <;> simp [bind, Except.bind]

/-! ## Two routes -/

/-- A removal by stem is prepared like the removal of what a query for the stem lists. -/
theorem prepare_deleteStem (t : Txn α) (table base : String) (args : List Arg) :
    t.prepare (.deleteStem table (base ++ stemSuffix) args) =
      t.prepare (.deleteAll table (base ++ stemSuffix) args) := by
  simp only [prepare, stemBase?_append]
  rfl

/-- A query lists one thing. -/
theorem Lists.unique {q' : Query α} {gone' : List (Key × α)}
    (h : t.Lists table index args ts q gone) (h' : t.Lists table index args ts q' gone') :
    gone = gone' := by
  rcases h with ⟨tree, hlookup, hgone⟩
  rcases h' with ⟨tree', hlookup', hgone'⟩
  rcases Prod.mk.inj (Except.ok.inj (hlookup.symm.trans hlookup')) with ⟨rfl, rfl⟩
  exact Except.ok.inj (hgone.symm.trans hgone')

/-- Two transactions hold the same entries in every index, and have the same change log. -/
structure Matches (t t' : Txn α) : Prop where
  entries : ∀ path, (t.forest path).map Tree.entries = (t'.forest path).map Tree.entries
  changes : t.changes = t'.changes

/-- Two routes by which the indexes of a table lose the same objects, while all other indexes stay
as they are, end in the same entries. -/
theorem Loses.matches (h : t.Sound) (ht : t.schema.table? table = some ts)
    (h₁ : t.Loses t₁ table ts gone none) (h₂ : t.Loses t₂ table ts gone none)
    (hframe₁ : ∀ path, path ∉ t.schema.pathsOf table → t₁.forest path = t.forest path)
    (hframe₂ : ∀ path, path ∉ t.schema.pathsOf table → t₂.forest path = t.forest path) :
    t₁.Matches t₂ := by
  refine ⟨fun path => ?_, h₁.log.trans h₂.log.symm⟩
  by_cases hpath : path ∈ t.schema.pathsOf table
  · obtain ⟨name, i, hi, rfl⟩ : ∃ name i, (name, i) ∈ ts.indexes ∧ indexPath table name = path := by
      simpa [Schema.pathsOf, ht, Catalog.keys] using hpath
    have hmem := Schema.mem_paths ht hi
    rcases (h₁.evolves.sound h).wf_forest.exists_tree (h₁.evolves.schema_eq ▸ hmem) with
      ⟨tree₁, htree₁, hw₁⟩
    rcases (h₂.evolves.sound h).wf_forest.exists_tree (h₂.evolves.schema_eq ▸ hmem) with
      ⟨tree₂, htree₂, hw₂⟩
    rw [htree₁, htree₂, Option.map_some, Option.map_some]
    -- lists in the order of their keys are the same if each key has the same value in both
    refine congrArg some (hw₁.ascends_entries.ext hw₂.ascends_entries fun k => ?_)
    rw [hw₁.find?_entries, hw₂.find?_entries, ← Forest.value?_eq htree₁, ← Forest.value?_eq htree₂]
    exact Option.ext fun x => (h₁.entries name i hi k x).trans (h₂.entries name i hi k x).symm
  · rw [hframe₁ path hpath, hframe₂ path hpath]

/-! ## What goes and what stays -/

theorem prepare_deleteAll_eq_ok_iff : t.prepare (.deleteAll table index args) = .ok () ↔
    t.isWriting = true ∧ ∃ x, t.lookup table index args = .ok x := by
  simp only [prepare, bind_eq_ok_iff, ← ensureWrite_eq_ok_iff]
  constructor
  · rintro ⟨_, hw, x, hx, _⟩
    exact ⟨hw, x, hx⟩
  · rintro ⟨hw, x, hx⟩
    exact ⟨(), hw, x, hx, rfl⟩

/-- After operations a query is looked up as before, in what its index holds then. -/
theorem Evolves.lookup_eq (h : t.Evolves t') {tree tree' : Tree α}
    (hlookup : t.lookup table index args = .ok (q, tree))
    (htree : t'.forest (indexPath table q.name) = some tree') :
    t'.lookup table index args = .ok (q, tree') := by
  rcases lookup_spec hlookup with ⟨hactive, hq, _⟩
  rcases h.frame with ⟨handles, changes, rfl⟩
  have hactive' : Txn.ensureActive { t with handles := handles, changes := changes } = .ok () :=
    hactive
  rw [lookup, hactive', hq]
  simp only [ok_bind, readable_eq, htree]
  rfl

/-- A table lost the objects under the given primary keys: there was one under each, the primary
index holds all others as before, and no index of the table holds an object with one of the keys.
The indexes of other tables hold what they held. -/
structure Removes (t t' : Txn α) (table : String) (keys : List Key) : Prop where
  held : ∀ p ∈ keys, (t.forest.value? table primaryName p).isSome = true
  primary : ∀ p, t'.forest.value? table primaryName p =
    if p ∈ keys then none else t.forest.value? table primaryName p
  entries : ∀ ts name i, t.schema.table? table = some ts → (name, i) ∈ ts.indexes →
    ∀ k o, t'.forest.value? table name k = some o →
      ∃ p, t.schema.primaryKey? table o = some p ∧ p ∉ keys
  others : ∀ table' ts' name' i', t.schema.table? table' = some ts' → (name', i') ∈ ts'.indexes →
    table' ≠ table → ∀ k, t'.forest.value? table' name' k = t.forest.value? table' name' k

/-- Indexes that lose stored objects remove them. -/
theorem Loses.removes (h : t.Orderly) (ht : t.schema.table? table = some ts)
    (hgone : ∀ p o, (p, o) ∈ gone → t.forest.value? table primaryName p = some o)
    (hloses : t.Loses t' table ts gone none) : t.Removes t' table (gone.map Prod.fst) := by
  have hstock := hloses.value?_primary h ht hgone
  have hmem (p : Key) (o : α) (ho : t.forest.value? table primaryName p = some o) :
      (p, o) ∈ gone ↔ p ∈ gone.map Prod.fst := by
    refine ⟨List.mem_map_of_mem, fun hp => ?_⟩
    rcases List.mem_map.1 hp with ⟨⟨p', o'⟩, hm, rfl⟩
    have ho' := hgone p' o' hm
    rw [ho] at ho'
    exact Option.some.inj ho' ▸ hm
  refine ⟨fun p hp => ?_, fun p => ?_, fun ts' name i ht' hi k o hk => ?_, hloses.others⟩
  · rcases List.mem_map.1 hp with ⟨⟨p', o⟩, hm, rfl⟩
    rw [hgone p' o hm]
    rfl
  · refine Option.ext fun o => ?_
    rw [hstock]
    split
    · rename_i hp
      simp only [reduceCtorEq, iff_false, not_and, not_not]
      exact fun ho => (hmem p o ho).2 hp
    · rename_i hp
      exact and_iff_left_of_imp fun ho hm => hp ((hmem p o ho).1 hm)
  · obtain rfl : ts = ts' := Option.some.inj (ht.symm.trans ht')
    -- what an index holds is stored, and so was not removed
    have hc := hloses.consistent h ht hgone
    rcases hc.owned name i hi k o hk with ⟨p, hp, _⟩
    rcases (hstock p o).1 hp with ⟨ho, hnot⟩
    exact ⟨p, Schema.primaryKey?_eq ht (hc.primaryKey p o hp), fun hm => hnot ((hmem p o ho).2 hm)⟩

/-- A query that lists objects to be removed finds nothing afterwards. -/
theorem Loses.all_eq_nil (h : t.Orderly) (ht : t.schema.table? table = some ts)
    (hq : (q.name, q.index) ∈ ts.indexes) (hfinds : t.Finds table q gone)
    (hloses : t.Loses t' table ts gone none) {tree : Tree α}
    (htree : t'.forest (indexPath table q.name) = some tree) (hw : tree.Wf) :
    (q.all tree).objects = [] := by
  refine List.eq_nil_iff_forall_not_mem.2 fun o ho => ?_
  rcases (Query.mem_objects_all hw).1 ho with ⟨k, hstem, hk⟩
  rw [← Forest.value?_eq htree] at hk
  rcases (hloses.entries q.name q.index hq k o).1 hk with ⟨hold, hall⟩
  rcases hfinds.exists_of_stem h ht hq hstem hold with ⟨p, hm, hst⟩
  rcases hall (p, o) hm hst with ⟨_, hnone, _⟩
  cases hnone

end Txn

namespace Engine

variable {actions : List (Action α)} {id : Nat} {t : Txn α}

/-- Removing a stem at once comes to the same as removing what a query for it lists, object by
object. Whatever a run has led to, in stores whose indexes have different paths, and whatever the
transaction, the table, the index and the arguments: both fail with the same error and change
nothing, or both succeed and hold the same entries in every index and the same change log. Outside
the transaction nothing differs, and so all counters are the same. The removal by stem answers
whether the other one counts any object. -/
theorem deleteStem_matches_deleteAll
    (hnd : ∀ schema settings, .create schema settings ∈ actions → schema.paths.Nodup)
    (ht : (performAll {} actions).txns[id]? = some t) (table base : String) (args : List Arg) :
    let s : Engine α := performAll {} actions
    let byStem := s.run id (TxnM.deleteStem table (base ++ stemSuffix) args)
    let oneByOne := s.run id (TxnM.deleteAll table (base ++ stemSuffix) args)
    (∃ e, byStem = some (.error e, s) ∧ oneByOne = some (.error e, s)) ∨
      ∃ n s₁ s₂ t₁ t₂, byStem = some (.ok (decide (0 < n)), s₁) ∧ oneByOne = some (.ok n, s₂) ∧
        s₁.txns[id]? = some t₁ ∧ s₂.txns[id]? = some t₂ ∧ t₁.Matches t₂ ∧
        s₁.stores = s₂.stores ∧ s₁ = s₂.updateTxn id fun _ => t₁ := by
  intro s byStem oneByOne
  have hs : s.Sound := Sound.empty.performAll actions
  have ho : t.Orderly := orderly_performAll hnd ht
  rcases hs.txns id t ht with ⟨st, hst, _⟩
  have hprepare := t.prepare_deleteStem table base args
  rcases TxnM.run_deleteStem ho table (base ++ stemSuffix) args st.stats with
    ⟨e₁, hfail₁, hrun₁⟩ | ⟨ts, q₁, gone, t₁, hok₁, hts, _, _, hlists₁, hloses₁, hrun₁⟩
  · -- both fail in their preparation
    rcases TxnM.run_deleteAll ho table (base ++ stemSuffix) args st.stats with
      ⟨e₂, hfail₂, hrun₂⟩ | ⟨_, _, _, _, hok₂, _⟩
    · rw [hprepare, hfail₂] at hfail₁
      obtain rfl : e₂ = e₁ := Except.error.inj hfail₁
      exact .inl ⟨e₂, run_eq_of_error ht hst hrun₁, run_eq_of_error ht hst hrun₂⟩
    · rw [hprepare, hok₂] at hfail₁
      cases hfail₁
  · rcases TxnM.run_deleteAll ho table (base ++ stemSuffix) args st.stats with
      ⟨e₂, hfail₂, _⟩ | ⟨ts', q₂, gone', t₂, _, hts', _, _, hlists₂, hloses₂, hrun₂⟩
    · rw [hprepare, hfail₂] at hok₁
      cases hok₁
    · -- both remove what the query lists
      obtain rfl : ts = ts' := Option.some.inj (hts.symm.trans hts')
      obtain rfl := hlists₁.unique hlists₂
      have hmatches := hloses₁.matches ho.sound hts hloses₂
        ((TxnM.made_deleteStem _ args).forest_eq_of_run hrun₁)
        ((TxnM.made_deleteAll _ args).forest_eq_of_run hrun₂)
      have hanswer : (!gone.isEmpty) = decide (0 < gone.length) := by cases gone <;> rfl
      rw [hanswer] at hrun₁
      refine .inr ⟨gone.length, _, _, t₁, t₂, run_eq_of_ok ht hst hrun₁, run_eq_of_ok ht hst hrun₂,
        txns_updateTxn_self ht, txns_updateTxn_self ht, hmatches, rfl, ?_⟩
      simp only [put, updateTxn, updateStore, List.modify_modify_eq]
      rfl

/-- A page with two tags under the stem and one beside it, and a page with one tag under it, go by
either route. A third page stays. -/
theorem deleteStem_matches_deleteAll_pages :
    let put (path : String) (tags : List String) : Action Page :=
      .write 0 (.insert Page.pages { path := path, tags := tags })
    let actions := [.create Page.schema {}, .requestWrite 0, .acquireWrite 0,
      put "/a" ["tower", "new", "top"], put "/b" ["tower"], put "/c" ["new"]]
    let s : Engine Page := performAll {} actions
    let byStem := s.run 0 (TxnM.deleteStem Page.pages ("tags" ++ stemSuffix) [.text "to"])
    let oneByOne := s.run 0 (TxnM.deleteAll Page.pages ("tags" ++ stemSuffix) [.text "to"])
    (∀ schema settings, .create schema settings ∈ actions → schema.paths.Nodup) ∧
      ∃ s₁ s₂ t₁ t₂, byStem = some (.ok true, s₁) ∧ oneByOne = some (.ok 2, s₂) ∧
        s₁.txns[0]? = some t₁ ∧ s₂.txns[0]? = some t₂ ∧ t₁.Matches t₂ ∧
        s₁.stores = s₂.stores ∧ s₁ = s₂.updateTxn 0 fun _ => t₁ := by
  intro put actions s byStem oneByOne
  have hnd (schema : Schema Page) (settings : Settings) (h : .create schema settings ∈ actions) :
      schema.paths.Nodup := by
    rw [Action.schema_of_mem (by simp [put]) h]
    decide +kernel
  have hopen : s.txns[0]?.isSome = true := by decide +kernel
  rcases Option.isSome_iff_exists.1 hopen with ⟨t, ht⟩
  have hcount : oneByOne.map Prod.fst = some (.ok 2) := by decide +kernel
  refine ⟨hnd, ?_⟩
  rcases deleteStem_matches_deleteAll hnd ht Page.pages "tags" [.text "to"] with
    ⟨e, _, hfail⟩ | ⟨n, s₁, s₂, t₁, t₂, hrun₁, hrun₂, ht₁, ht₂, hmatches, hstores, hsame⟩
  · rw [show oneByOne = some (.error e, s) from hfail] at hcount
    cases hcount
  · obtain rfl : n = 2 := by
      rw [show oneByOne = some (.ok n, s₂) from hrun₂] at hcount
      simpa using hcount
    exact ⟨s₁, s₂, t₁, t₂, hrun₁, hrun₂, ht₁, ht₂, hmatches, hstores, hsame⟩

/-! ## Removals of what a query lists -/

/-- A query answers over the tree that it is looked up in. -/
theorem find_eq {s : Engine α} {st : Store α} (ht : s.txns[id]? = some t)
    (hst : s.stores[t.store]? = some st) (scan : Scan) (table index : String) (args : List Arg) :
    s.find id scan table index args =
      some ((t.lookup table index args).map fun x => (scan.answer x.1 x.2).2) := by
  rcases scan.run_eq table index args t st.stats with ⟨stats, hrun⟩
  simp only [find, ask, run, ht, hst, hrun]
  cases t.lookup table index args <;> rfl

theorem find_put {s : Engine α} {st : Store α} {t' : Txn α} (ht : s.txns[id]? = some t)
    (hst : s.stores[t.store]? = some st) (h : t.Evolves t') (stats : Stats) (scan : Scan)
    (table index : String) (args : List Arg) :
    (s.put id t.store ⟨t', stats⟩).find id scan table index args =
      some ((t'.lookup table index args).map fun x => (scan.answer x.1 x.2).2) := by
  have ht' : (s.put id t.store ⟨t', stats⟩).txns[id]? = some t' := txns_updateTxn_self ht
  have hst' : (s.put id t.store ⟨t', stats⟩).stores[t'.store]? =
      some { st with stats := stats } := by
    rcases h.frame with ⟨_, _, rfl⟩
    exact stores_updateStore_self hst
  exact find_eq ht' hst' scan table index args

/-- A query whose objects the indexes have lost lists nothing. -/
theorem find_put_of_loses {s : Engine α} {st : Store α} {t' : Txn α} (ht : s.txns[id]? = some t)
    (hst : s.stores[t.store]? = some st) (h : t.Orderly) {table index : String} {args : List Arg}
    {ts : TableSchema α} {q : Query α} {gone : List (Key × α)}
    (hts : t.schema.table? table = some ts) (hlists : t.Lists table index args ts q gone)
    (hfinds : t.Finds table q gone) (hloses : t.Loses t' table ts gone none) (stats : Stats) :
    (s.put id t.store ⟨t', stats⟩).find id .all table index args = some (.ok []) := by
  rcases hlists with ⟨tree, hlookup, _⟩
  rcases Txn.lookup_spec hlookup with ⟨_, hq, _⟩
  rcases Schema.resolve_spec hq with ⟨ts', hts', hi⟩
  obtain rfl : ts = ts' := Option.some.inj (hts.symm.trans hts')
  have hpath := hloses.evolves.schema_eq ▸ Schema.mem_paths hts hi
  rcases (hloses.evolves.sound h.sound).wf_forest.exists_tree hpath with ⟨tree', htree', hw⟩
  have hnil := hloses.all_eq_nil h hts hi hfinds htree' hw
  rw [find_put ht hst hloses.evolves, hloses.evolves.lookup_eq hlookup htree']
  simp only [Except.map, Scan.answer, hnil]

/-- Whatever a run has led to, in stores whose indexes have different paths, and whatever the
transaction, the table, the index and the arguments: the removal of what a query lists succeeds
exactly if the transaction may still write and the query succeeds. It counts the different primary
keys of the objects that the query lists, and the table loses the objects under these and no
others. The query then lists nothing, and the counter of deletions has grown by what was counted. -/
theorem deleteAll_removes_listed
    (hnd : ∀ schema settings, .create schema settings ∈ actions → schema.paths.Nodup)
    (ht : (performAll {} actions).txns[id]? = some t) (table index : String) (args : List Arg) :
    let s : Engine α := performAll {} actions
    let deletes (s : Engine α) := s.stores[t.store]?.map (·.stats.deletes)
    ((∃ n s', s.run id (TxnM.deleteAll table index args) = some (.ok n, s')) ↔
      t.isWriting = true ∧ ∃ objects, s.find id .all table index args = some (.ok objects)) ∧
    ∀ n s', s.run id (TxnM.deleteAll table index args) = some (.ok n, s') →
      ∃ objects t', s.find id .all table index args = some (.ok objects) ∧
        (∀ o ∈ objects, (t.schema.primaryKey? table o).isSome = true) ∧
        n = (objects.filterMap (t.schema.primaryKey? table)).eraseDups.length ∧
        s'.txns[id]? = some t' ∧
        t.Removes t' table (objects.filterMap (t.schema.primaryKey? table)).eraseDups ∧
        s'.find id .all table index args = some (.ok []) ∧
        deletes s' = (deletes s).map (· + n) := by
  intro s deletes
  have hs : s.Sound := Sound.empty.performAll actions
  have ho : t.Orderly := orderly_performAll hnd ht
  rcases hs.txns id t ht with ⟨st, hst, _⟩
  have hfind := find_eq ht hst .all table index args
  have hprepare : t.prepare (.deleteAll table index args) = .ok () ↔
      t.isWriting = true ∧ ∃ objects, s.find id .all table index args = some (.ok objects) := by
    rw [Txn.prepare_deleteAll_eq_ok_iff, hfind]
    cases t.lookup table index args <;> simp [Except.map]
  rw [← hprepare]
  rcases TxnM.run_deleteAll ho table index args st.stats with
    ⟨e, hfail, hrun⟩ | ⟨ts, q, gone, t', hok, hts, _, hfinds, hlists, hloses, hrun⟩
  · have hafter : s.run id (TxnM.deleteAll table index args) = some (.error e, s) :=
      run_eq_of_error ht hst hrun
    simp [hafter, hfail]
  · have hafter : s.run id (TxnM.deleteAll table index args) =
        some (.ok gone.length, s.put id t.store ⟨t', st.stats.removed gone.length⟩) :=
      run_eq_of_ok ht hst hrun
    refine ⟨⟨fun _ => hok, fun _ => ⟨_, _, hafter⟩⟩, fun n s' h => ?_⟩
    obtain ⟨rfl, rfl⟩ : gone.length = n ∧
        s.put id t.store ⟨t', st.stats.removed gone.length⟩ = s' := by
      simpa [hafter] using h
    have hnone := find_put_of_loses ht hst ho hts hlists hfinds hloses
    rcases hlists with ⟨tree, hlookup, hgone⟩
    have hkeys := TableSchema.distinct_keys hts hgone
    simp only [List.contains_nil, Bool.not_false, List.filter_true] at hkeys
    refine ⟨(q.all tree).objects, t', ?_, fun o ho => ?_, ?_, txns_updateTxn_self ht, ?_,
      hnone _, ?_⟩
    · rw [hfind, hlookup]
      rfl
    · rcases (TableSchema.distinct_spec hgone).2 o ho with ⟨p, hp, _⟩
      rw [Schema.primaryKey?_eq hts hp]
      rfl
    · rw [← hkeys, List.length_map]
    · rw [← hkeys]
      exact hloses.removes ho hts fun p o hm => ((hfinds p o).1 hm).1
    · have hst' : (s.put id t.store ⟨t', st.stats.removed gone.length⟩).stores[t.store]? =
          some { st with stats := st.stats.removed gone.length } := stores_updateStore_self hst
      simp only [deletes, hst, hst', Option.map_some]
      rfl

/-- The query lists a page twice, for two of its tags, and counts it once. -/
theorem deleteAll_removes_listed_pages :
    let first : Page := { path := "/a", tags := ["tower", "new", "top"] }
    let second : Page := { path := "/b", tags := ["tower"] }
    let third : Page := { path := "/c", tags := ["new"] }
    let actions := [.create Page.schema {}, .requestWrite 0, .acquireWrite 0,
      .write 0 (.insert Page.pages first), .write 0 (.insert Page.pages second),
      .write 0 (.insert Page.pages third)]
    let s : Engine Page := performAll {} actions
    let find (s : Engine Page) := s.find 0 .all Page.pages "tags_prefix" [.text "to"]
    (∀ schema settings, .create schema settings ∈ actions → schema.paths.Nodup) ∧
      ∃ s' t t', s.txns[0]? = some t ∧ t.isWriting = true ∧
        find s = some (.ok [first, first, second]) ∧
        s.run 0 (TxnM.deleteAll Page.pages "tags_prefix" [.text "to"]) = some (.ok 2, s') ∧
        s'.txns[0]? = some t' ∧
        t.Removes t' Page.pages [Key.ofText "/a" ++ [0], Key.ofText "/b" ++ [0]] ∧
        find s' = some (.ok []) := by
  intro first second third actions s find
  have hnd (schema : Schema Page) (settings : Settings) (h : .create schema settings ∈ actions) :
      schema.paths.Nodup := by
    rw [Action.schema_of_mem (by simp) h]
    decide +kernel
  have hopen : s.txns[0]?.map Txn.isWriting = some true := by decide +kernel
  rcases Option.map_eq_some_iff.1 hopen with ⟨t, ht, hw⟩
  have hlisted : find s = some (.ok [first, first, second]) := by decide +kernel
  have hschema : t.schema = Page.schema := schema_of_create (by decide +kernel) (by simp) ht
  have hkeys : ([first, first, second].filterMap (t.schema.primaryKey? Page.pages)).eraseDups =
      [Key.ofText "/a" ++ [0], Key.ofText "/b" ++ [0]] := by
    rw [hschema]
    decide +kernel
  rcases deleteAll_removes_listed hnd ht Page.pages "tags_prefix" [.text "to"] with
    ⟨hsucceeds, hremoves⟩
  rcases hsucceeds.2 ⟨hw, _, hlisted⟩ with ⟨n, s', hrun⟩
  rcases hremoves n s' hrun with ⟨objects, t', hobjects, _, hn, ht', hgone, hnone, _⟩
  obtain rfl : [first, first, second] = objects :=
    Except.ok.inj (Option.some.inj (hlisted.symm.trans hobjects))
  rw [hkeys] at hn hgone
  obtain rfl : n = 2 := hn
  exact ⟨hnd, s', t, t', ht, hw, hlisted, hrun, ht', hgone, hnone⟩

end Engine

end SnapStore
