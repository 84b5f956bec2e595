import SnapStore.Proofs.Engine.Atomic
import SnapStore.Proofs.Engine.Faults

/-! # Declared indexes are never lost

A store can be made of a schema exactly if the schema is in order. From then on every root of
the store and every view of a transaction has a tree for each declared index and no other tree,
whatever a run has done. So no operation misses an index that is declared.

Main statement: `declared_kept`.
-/

namespace SnapStore

variable {α : Type}

/-! ## Schemas in order -/

/-- A table that stands under a name is in order: it has this name, a unique primary index over
single keys, and all indexes stand under names of their own. -/
structure TableSchema.Accepted (t : TableSchema α) (name : String) : Prop where
  name_eq : name = t.name
  ne_empty : t.name ≠ ""
  primary : ∃ id, t.indexes.find? primaryName = some id ∧ id.unique = true ∧
    id.indexer.isSingle = true
  indexes : ∀ entry ∈ t.indexes, entry.1 = entry.2.name ∧ entry.2.name ≠ ""

/-- A schema is in order: it has tables, and each of them is. -/
structure Schema.Accepted (s : Schema α) : Prop where
  ne_nil : s.tables ≠ []
  tables : ∀ entry ∈ s.tables, entry.2.Accepted entry.1

/-- Checks of a table pass exactly if it is in order under its name. -/
theorem TableSchema.validate_eq_ok_iff (t : TableSchema α) :
    t.validate = .ok () ↔ t.Accepted t.name := by
  unfold validate
  constructor
  · intro h
    split at h
    · cases h
    · rename_i hname
      split at h
      · cases h
      · split at h
        · cases h
        · rename_i id hid
          split at h
          · cases h
          · rename_i hunique
            split at h
            · cases h
            · rename_i hsingle
              have hid' := And.intro (by simpa using hunique) (by simpa using hsingle)
              exact ⟨rfl, by simpa using hname, ⟨id, hid, hid'⟩, (checkIndexes_eq_ok_iff _ _).1 h⟩
  · rintro ⟨_, hname, ⟨id, hid, hunique, hsingle⟩, hindexes⟩
    have hsome : t.primary? = some id := hid
    have hindexes' : t.indexes.isEmpty = false := by
      cases h : t.indexes with
      | nil => simp [h, Catalog.find?] at hid
      | cons entry rest => rfl
    simp only [String.isEmpty_iff, hname, if_false, hindexes', Bool.false_eq_true, hsome, hunique,
      hsingle, Bool.not_true]
    exact (checkIndexes_eq_ok_iff _ _).2 hindexes

/-- A schema passes its checks exactly if it is in order. -/
theorem Schema.validate_eq_ok_iff (s : Schema α) : s.validate = .ok () ↔ s.Accepted := by
  have htables : checkTables s.tables = .ok () ↔
      ∀ entry ∈ s.tables, entry.2.Accepted entry.1 := by
    rw [checkTables_eq_ok_iff]
    refine forall₂_congr fun entry _ => ?_
    rw [TableSchema.validate_eq_ok_iff]
    constructor
    · rintro ⟨hname, h⟩
      exact hname ▸ h
    · intro h
      exact ⟨h.name_eq, h.name_eq ▸ h⟩
  unfold validate
  cases h : s.tables with
  | nil =>
    rw [List.isEmpty_nil, if_pos rfl]
    exact iff_of_false (fun he => nomatch he) fun ha => ha.ne_nil h
  | cons entry rest =>
    rw [h] at htables
    simp only [List.isEmpty_cons, Bool.false_eq_true, if_false, htables]
    exact ⟨fun ht => ⟨by simp [h], h ▸ ht⟩, fun ha => h ▸ ha.tables⟩

/-- The trees of exactly the declared indexes. -/
def Forest.Declares (F : Forest α) (s : Schema α) : Prop :=
  ∀ path, (F path).isSome = true ↔ path ∈ s.paths

namespace Engine

/-- A store is made exactly of the schemas that are in order. -/
theorem exists_create_iff (s : Engine α) (schema : Schema α) (settings : Settings) :
    (∃ x, s.create schema settings = .ok x) ↔ schema.Accepted := by
  rw [← Schema.validate_eq_ok_iff]
  simp only [create, Store.create]
  cases schema.validate <;> simp

/-- An operation of a run fails as it does in the session of its transaction. -/
theorem Sound.honest_run {β : Type} {s : Engine α} (hs : s.Sound) {id : Nat} {t : Txn α}
    (ht : s.txns[id]? = some t) {op : TxnM α β} {misses : String → String → Prop} {Q : β → Prop}
    (hop : TxnM.Honest t.schema misses op Q) {e : Error} {s' : Engine α}
    (hrun : s.run id op = some (.error e, s')) : e.Honest misses := by
  rcases hs.txns id t ht with ⟨st, hst, hf⟩
  rw [run_eq_put ht hst] at hrun
  cases hsession : op.run ⟨t, st.stats⟩ with
  | ok b after =>
    rw [hsession] at hrun
    cases hrun
  | error e' after =>
    rw [hsession] at hrun
    obtain rfl : e' = e := by
      have heq := congrArg Prod.fst (Option.some.inj hrun)
      exact Except.error.inj heq
    exact hop.error ⟨t, st.stats⟩ hf.sound rfl e' after hsession

/-- No step of a transaction tells of a missing index but a query for one that is not declared. -/
structure Spares (s : Engine α) (id : Nat) (t : Txn α) : Prop where
  write : ∀ w table index s',
    s.run id (TxnM.write w) = some (.error (.indexNotFound table index), s') →
    ∃ asked, w.query? = some (table, asked) ∧ t.schema.Lacks table asked index
  query : ∀ (scan : Scan) table' asked args table index s',
    s.run id (scan.run table' asked args) = some (.error (.indexNotFound table index), s') →
    table = table' ∧ t.schema.Lacks table asked index
  snapshot : ∀ table index s', s.snapshotTxn id ≠ some (.error (.indexNotFound table index), s')
  commit : ∀ table index s', s.commit id ≠ some (.error (.indexNotFound table index), s')
  abort : ∀ table index s', s.abort id ≠ some (.error (.indexNotFound table index), s')

theorem Sound.spares {s : Engine α} (hs : s.Sound) {id : Nat} {t : Txn α}
    (ht : s.txns[id]? = some t) : s.Spares id t := by
  rcases hs.txns id t ht with ⟨st, hst, hf⟩
  have hv : t.schema.validate = .ok () := hf.schema ▸ (hs.stores t.store st hst).valid
  have hactive (e : Error) (he : t.ensureActive = .error e) (table index : String) :
      e ≠ .indexNotFound table index :=
    have honest : e.Honest fun _ _ => False := Txn.honest_ensureActive he
    honest table index
  refine ⟨fun w table index s' hrun => ?_, fun scan table' asked args table index s' hrun => ?_,
    fun table index s' h => ?_, fun table index s' h => ?_, fun table index s' h => ?_⟩
  · exact hs.honest_run ht (TxnM.honest_write hv w) hrun table index rfl
  · rcases hs.honest_run ht (TxnM.honest_scan hv scan table' asked args) hrun table index rfl with
      ⟨rfl, hlacks⟩
    exact ⟨rfl, hlacks⟩
  · rw [Engine.snapshotTxn, ht] at h
    cases hensure : t.ensureActive with
    | error e => simp [hensure, hactive e hensure] at h
    | ok _ => simp [hensure] at h
  · rw [Engine.commit, ht] at h
    cases hensure : t.ensureActive with
    | error e => simp [hensure, hactive e hensure] at h
    | ok _ =>
      simp only [hensure] at h
      split at h <;> simp at h
  · rw [Engine.abort, ht] at h
    cases hensure : t.ensureActive with
    | error e => simp [hensure, hactive e hensure] at h
    | ok _ => simp [hensure] at h

/-- Declared indexes are never lost. A store can be made exactly of a schema that is in order.
Whatever a run has led to, the root of every store, the root that a transaction has captured and
what the transaction sees have the trees of exactly the declared indexes; and a transaction tells
of a missing index only where a query asks for one that is not declared. -/
theorem declared_kept :
    (∀ (s : Engine α) (schema : Schema α) (settings : Settings),
      (∃ x, s.create schema settings = .ok x) ↔ schema.Accepted) ∧
    ∀ actions : List (Action α),
      let s : Engine α := performAll {} actions
      (∀ (n : Nat) (st : Store α), s.stores[n]? = some st →
        st.schema.Accepted ∧ Forest.Declares st.root.get? st.schema) ∧
      ∀ (id : Nat) (t : Txn α), s.txns[id]? = some t → t.schema.Accepted ∧
        Forest.Declares t.root.get? t.schema ∧ t.forest.Declares t.schema ∧ s.Spares id t := by
  refine ⟨exists_create_iff, fun actions => ?_⟩
  intro s
  have hs : s.Sound := Sound.empty.performAll actions
  refine ⟨fun n st hst => ?_, fun id t ht => ?_⟩
  · have hsound := hs.stores n st hst
    exact ⟨(Schema.validate_eq_ok_iff _).1 hsound.valid, hsound.trees.isSome_iff⟩
  · rcases hs.txns id t ht with ⟨st, hst, hf⟩
    have hv : t.schema.validate = .ok () := hf.schema ▸ (hs.stores t.store st hst).valid
    exact ⟨(Schema.validate_eq_ok_iff _).1 hv, hf.sound.trees.isSome_iff,
      hf.sound.wf_forest.isSome_iff, hs.spares ht⟩

end Engine

end SnapStore
