import SnapStore.Proofs.Engine.Sound

/-! # Steps of an engine

What a single action can do to an engine, to a store and to a transaction, said once. A store is
new, goes on with its contents, or gets a root published by the active writer. A transaction is new,
writes, ends, or goes on with what it sees.

Main statements: `Sound.performs` (all that an action can do to an engine), and of what follows
from it `Sound.storeStep`, `Sound.txnStep` and `Sound.txns_perform`.
-/

namespace SnapStore

variable {α : Type}

theorem Txn.ensureActive_eq_ok_iff {t : Txn α} : t.ensureActive = .ok () ↔ t.state = .active := by
  rw [ensureActive]
  cases t.state <;> simp

/-- A new read transaction sees what the transaction `t` sees. -/
structure Txn.Views (t' t : Txn α) : Prop where
  store : t'.store = t.store
  schema : t'.schema = t.schema
  write : t'.write = false
  state : t'.state = .active
  handles : t'.handles = []
  root : t'.root.get? = t.forest

/-- The transaction that an action is made in, if it is one that changes its transaction. -/
def Action.actor? : Action α → Option Nat
  | .write id _ | .query id _ _ _ _ | .trackChanges id | .defer id _ | .commit id | .abort id
  | .drop id => some id
  | .create _ _ | .snapshotStore _ | .openRead _ | .requestWrite _ | .acquireWrite _
  | .snapshotTxn _ => none

namespace Engine

/-- The action commits the transaction, which may write and has not ended. -/
structure Commits (s : Engine α) (a : Action α) (id : Nat) (t : Txn α) : Prop where
  action : a = .commit id
  txn : s.txns[id]? = some t
  writing : t.isWriting = true

/-- What an action does to an engine. It is not possible and does nothing, or it does one of the
following. -/
inductive Performs (s : Engine α) (a : Action α) (s' : Engine α) : Prop
  | nothing (hwrite : ∀ id w, a = .write id w → s.txns[id]? = none)
    (hcommit : ∀ id t, ¬ s.Commits a id t) (heq : s' = s)
  | create {schema : Schema α} {settings : Settings} {st : Store α}
    (ha : a = .create schema settings)
    (hst : Store.create schema settings s.board.newName.1 = .ok st)
    (heq : s' = ({ s with board := s.board.newName.2 }.addStore st).2)
  | copy {n : Nat} {st : Store α} (ha : a = .snapshotStore n) (hst : s.stores[n]? = some st)
    (heq : s' = (s.addStore st.snapshot).2)
  | read {n : Nat} {st : Store α} (ha : a = .openRead n) (hst : s.stores[n]? = some st)
    (heq : s' = ((s.updateStore n fun st =>
      { st with stats := { st.stats with readTxns := st.stats.readTxns + 1 } }).addTxn
        (st.reader n)).2)
  | request {n : Nat} (ha : a = .requestWrite n) (heq : s' = s.requestWrite n)
  | turn {n : Nat} {st : Store α} (ha : a = .acquireWrite n) (hst : s.stores[n]? = some st)
    (hfree : st.writer = none)
    (heq : s' = ((s.updateStore n fun st =>
      { st with writer := some s.txns.length, waiting := st.waiting - 1 }).addTxn
        (st.newWriter n)).2)
  | view {id : Nat} {t : Txn α} {make : Nat → Txn α} (ha : a = .snapshotTxn id)
    (ht : s.txns[id]? = some t) (hactive : t.state = .active)
    (hviews : ∀ name, (make name).Views t) (heq : s' = (s.addTxn make).2)
  | write {id : Nat} {w : Write α} {t : Txn α} {st : Store α} {stats : Stats}
    (ha : a = .write id w) (ht : s.txns[id]? = some t) (hst : s.stores[t.store]? = some st)
    (heq : s' = (s.updateTxn id fun _ => ((TxnM.write w).leaves ⟨t, st.stats⟩).txn).updateStore
      t.store fun st' => { st' with stats := stats })
  | count {id store : Nat} {stats : Stats} (hactor : a.actor? = some id)
    (hwrite : ∀ n w, a ≠ .write n w) (hcommit : ∀ id t, ¬ s.Commits a id t)
    (heq : s' = s.updateStore store fun st => { st with stats := stats })
  | aside {id : Nat} {f : Txn α → Txn α} (hactor : a.actor? = some id)
    (hwrite : ∀ n w, a ≠ .write n w) (hcommit : ∀ id t, ¬ s.Commits a id t)
    (hf : ∀ t, ∃ changes deferred, f t = { t with changes := changes, deferred := deferred })
    (heq : s' = s.updateTxn id f)
  | commit {id : Nat} {t : Txn α} (hc : s.Commits a id t) (heq : s' = s.commitOne id)
  | drop {id : Nat} {t : Txn α} (hactor : a.actor? = some id) (hwrite : ∀ n w, a ≠ .write n w)
    (hcommit : ∀ id t, ¬ s.Commits a id t) (ht : s.txns[id]? = some t)
    (hw : t.isWriting = true) (heq : s' = s.drop id)

/-- Where the store at the position `n` after an action comes from. -/
inductive StoreStep (s : Engine α) (a : Action α) (n : Nat) (st' : Store α) : Prop
  | created {schema : Schema α} {settings : Settings} {name : Nat}
    (ha : a = .create schema settings) (hn : n = s.stores.length)
    (hst' : Store.create schema settings name = .ok st')
  | copied {m : Nat} {st : Store α} (ha : a = .snapshotStore m) (hn : n = s.stores.length)
    (hst : s.stores[m]? = some st) (hst' : st' = st.snapshot)
  | stays {st : Store α} (hst : s.stores[n]? = some st) (hstays : st.Stays st')
    (hno : ∀ id t, s.Commits a id t → t.store ≠ n)
  | published {st : Store α} {id : Nat} {t : Txn α} (hst : s.stores[n]? = some st)
    (hc : s.Commits a id t) (hstore : t.store = n) (hschema : st'.schema = st.schema)
    (hprimary : st'.primary = st.primary) (hroot : st'.root = t.published)

/-- Where the transaction at the position `id` after an action comes from. -/
inductive TxnStep (s : Engine α) (a : Action α) (id : Nat) (t' : Txn α) : Prop
  | reader {n name : Nat} {st : Store α} (ha : a = .openRead n) (hid : id = s.txns.length)
    (hst : s.stores[n]? = some st) (ht' : t' = st.reader n name)
  | writer {n name : Nat} {st : Store α} (ha : a = .acquireWrite n) (hid : id = s.txns.length)
    (hst : s.stores[n]? = some st) (ht' : t' = st.newWriter n name)
  | snapshot {m : Nat} {t : Txn α} (ha : a = .snapshotTxn m) (hid : id = s.txns.length)
    (ht : s.txns[m]? = some t) (hactive : t.state = .active) (hviews : t'.Views t)
  | wrote {w : Write α} {t : Txn α} {st : Store α} (ha : a = .write id w)
    (ht : s.txns[id]? = some t) (hst : s.stores[t.store]? = some st)
    (ht' : t' = ((TxnM.write w).leaves ⟨t, st.stats⟩).txn)
  | stays {t : Txn α} {changes : Option (ChangeLog α)} {deferred : List (Job α)}
    (ht : s.txns[id]? = some t) (ht' : t' = { t with changes := changes, deferred := deferred })
    (hwrite : ∀ w, a ≠ .write id w) (hcommit : ¬ s.Commits a id t)
  | ended {t : Txn α} {ending : Ending} (ht : s.txns[id]? = some t) (hw : t.isWriting = true)
    (hended : t'.state = .ended ending)

/-! ## Parts of a step -/

section parts

variable {s : Engine α} {a : Action α} {id n : Nat} {t t' : Txn α} {st' : Store α}

/-- A step that only counts, or only hands on the turn to write, leaves the contents. -/
theorem exists_stays {store : Nat} {g : Store α → Store α}
    (h : (s.updateStore store g).stores[n]? = some st') (hg : ∀ st : Store α, st.Stays (g st)) :
    ∃ st, s.stores[n]? = some st ∧ st.Stays st' := by
  rcases getElem?_stores_updateStore.1 h with ⟨st, hst, rfl⟩
  refine ⟨st, hst, ?_⟩
  split
  · exact hg st
  · exact .refl st

theorem StoreStep.of_stays (hno : ∀ id t, ¬ s.Commits a id t)
    (h : ∃ st, s.stores[n]? = some st ∧ st.Stays st') : s.StoreStep a n st' := by
  rcases h with ⟨st, hst, hstays⟩
  exact .stays hst hstays fun id t hc => absurd hc (hno id t)

/-- The end of a transaction leaves the contents of all stores. -/
theorem exists_stays_finish {store : Nat} {ending : Ending}
    (h : (((s.mark id ending).release store).tally store ending).stores[n]? = some st') :
    ∃ st, s.stores[n]? = some st ∧ st.Stays st' := by
  have htally : ∃ st, ((s.mark id ending).release store).stores[n]? = some st ∧ st.Stays st' := by
    cases ending with
    | commit => exact exists_stays h fun _ => ⟨rfl, rfl, rfl⟩
    | abort => exact exists_stays h fun _ => ⟨rfl, rfl, rfl⟩
  rcases htally with ⟨st₁, hst₁, hstays₁⟩
  have hrelease : ∃ st, (s.mark id ending).stores[n]? = some st ∧ st.Stays st₁ :=
    exists_stays hst₁ fun _ => ⟨rfl, rfl, rfl⟩
  rcases hrelease with ⟨st, hst, hstays⟩
  exact ⟨st, hst, hstays.trans hstays₁⟩

/-- The end of a transaction marks it, and leaves all others. -/
theorem txns_finish {store : Nat} {ending : Ending} :
    (((s.mark id ending).release store).tally store ending).txns = (s.mark id ending).txns := by
  cases ending <;> rfl

theorem TxnStep.of_same (ht : s.txns[id]? = some t) (hwrite : ∀ w, a ≠ .write id w)
    (hcommit : ¬ s.Commits a id t) : s.TxnStep a id t :=
  .stays ht rfl hwrite hcommit

end parts

/-! ## The end of a writer -/

section endings

variable {s : Engine α} {id n : Nat} {t : Txn α}

/-- A transaction after its commit reads from the root that it published. -/
theorem txns_commitOne_self (ht : s.txns[id]? = some t) (hw : t.isWriting = true) :
    (s.commitOne id).txns[id]? = some { t with
      root := t.published, handles := [], state := .ended .commit, deferred := [] } := by
  have hmarked : (mark { (s.publish id).2 with board := s.board.fireAll (s.publish id).1 } id
      .commit).txns[id]? =
        some { t with root := t.published, handles := [], state := .ended .commit } :=
    txns_updateTxn_self (txns_publish_self ht)
  simp only [Engine.commitOne, ht, hw, if_true]
  rw [commitWrites_eq ht]
  refine txns_updateTxn_self (t := { t with
    root := t.published, handles := [], state := .ended .commit }) ?_
  rw [txns_finish]
  exact hmarked

/-- A store after a commit has the root that was published, and no writer. -/
theorem stores_commitOne_self {st : Store α} (ht : s.txns[id]? = some t)
    (hw : t.isWriting = true) (hst : s.stores[t.store]? = some st) :
    (s.commitOne id).stores[t.store]? = some { st with
      root := t.published, writer := none
      stats := { st.stats with commits := st.stats.commits + 1 } } := by
  simp only [Engine.commitOne, ht, hw, if_true]
  rw [commitWrites_eq ht, publish_eq ht]
  exact stores_updateStore_self (stores_updateStore_self (stores_updateStore_self hst))

/-- A store after its writer was dropped has the contents that it had, and no writer. -/
theorem stores_drop_self {st : Store α} (ht : s.txns[id]? = some t)
    (hw : t.isWriting = true) (hst : s.stores[t.store]? = some st) :
    (s.drop id).stores[t.store]? = some { st with
      writer := none, stats := { st.stats with aborts := st.stats.aborts + 1 } } := by
  rw [drop_of_some ht, if_pos hw]
  exact stores_updateStore_self (stores_updateStore_self hst)

/-- A writer that was dropped has forgotten what it did. -/
theorem txns_drop_self (ht : s.txns[id]? = some t) (hw : t.isWriting = true) :
    (s.drop id).txns[id]? = some { t with
      handles := [], changes := none, deferred := [], state := .ended .abort } := by
  rw [drop_of_some ht, if_pos hw, Engine.abortWrites, txns_finish]
  exact txns_updateTxn_self (txns_updateTxn_self ht)

/-- A transaction that is not writing cannot be committed. -/
theorem commitOne_of_idle (ht : s.txns[id]? = some t) (hw : ¬ t.isWriting = true) :
    s.commitOne id = s := by
  simp only [Engine.commitOne, ht, if_neg hw]

theorem commitOne_of_none (ht : s.txns[id]? = none) : s.commitOne id = s := by
  simp only [Engine.commitOne, ht]

theorem txns_drop_of_ne (hne : id ≠ n) : (s.drop n).txns[id]? = s.txns[id]? := by
  cases ht : s.txns[n]? with
  | none => rw [drop_of_none ht]
  | some t =>
    rw [drop_of_some ht]
    split
    · rw [Engine.abortWrites, txns_finish, Engine.mark, txns_updateTxn_of_ne hne,
        txns_updateTxn_of_ne hne]
    · rfl

theorem txns_commitOne_of_ne (hne : id ≠ n) : (s.commitOne n).txns[id]? = s.txns[id]? := by
  cases ht : s.txns[n]? with
  | none => rw [commitOne_of_none ht]
  | some t =>
    simp only [Engine.commitOne, ht]
    split
    · rw [commitWrites_eq ht, publish_eq ht, txns_updateTxn_of_ne hne, txns_finish, Engine.mark,
        txns_updateTxn_of_ne hne]
      exact txns_updateTxn_of_ne hne
    · rfl

end endings

/-! ## Actions -/

theorem updateTxn_same {s : Engine α} {id : Nat} {t : Txn α} (ht : s.txns[id]? = some t) :
    s.updateTxn id (fun _ => t) = s := by
  have hsame : s.txns.modify id (fun _ => t) = s.txns := by
    refine List.ext_getElem? fun n => ?_
    rw [List.getElem?_modify]
    split
    · rename_i heq
      subst heq
      rw [ht]
      rfl
    · exact Option.map_id'
  rw [updateTxn, hsame]

theorem performs_drop {s : Engine α} {a : Action α} {id : Nat} (hactor : a.actor? = some id)
    (hwrite : ∀ n w, a ≠ .write n w) (hcommit : ∀ id t, ¬ s.Commits a id t) :
    s.Performs a (s.drop id) := by
  have hnothing (heq : s.drop id = s) : s.Performs a (s.drop id) :=
    .nothing (fun n w ha => absurd ha (hwrite n w)) hcommit heq
  cases ht : s.txns[id]? with
  | none => exact hnothing (drop_of_none ht)
  | some t =>
    by_cases hw : t.isWriting = true
    · exact .drop hactor hwrite hcommit ht hw rfl
    · exact hnothing ((drop_of_some ht).trans (if_neg hw))

/-- Every action does one of these things. -/
theorem Sound.performs {s : Engine α} (hs : s.Sound) (a : Action α) :
    s.Performs a (s.perform a) := by
  have hno (ha : ∀ id, a ≠ .commit id) (id : Nat) (t : Txn α) : ¬ s.Commits a id t :=
    fun hc => ha id hc.action
  cases a with
  | create schema settings =>
    simp only [Engine.perform, Engine.create]
    cases hst : Store.create schema settings s.board.newName.1 with
    | error e => exact .nothing (by simp) (hno (by simp)) rfl
    | ok st => exact .create rfl hst rfl
  | snapshotStore n =>
    simp only [Engine.perform, Engine.snapshotStore]
    cases hst : s.stores[n]? with
    | none => exact .nothing (by simp) (hno (by simp)) rfl
    | some st => exact .copy rfl hst rfl
  | openRead n =>
    simp only [Engine.perform, Engine.openRead]
    cases hst : s.stores[n]? with
    | none => exact .nothing (by simp) (hno (by simp)) rfl
    | some st => exact .read rfl hst rfl
  | requestWrite n => exact .request rfl rfl
  | acquireWrite n =>
    simp only [Engine.perform, Engine.acquireWrite]
    cases hst : s.stores[n]? with
    | none => exact .nothing (by simp) (hno (by simp)) rfl
    | some st =>
      dsimp only
      split
      · exact .nothing (by simp) (hno (by simp)) rfl
      · rename_i hfree
        have hnone : st.writer = none := by
          cases hw : st.writer with
          | none => rfl
          | some id => simp [hw] at hfree
        exact .turn rfl hst hnone rfl
  | snapshotTxn id =>
    simp only [Engine.perform, Engine.snapshotTxn]
    cases ht : s.txns[id]? with
    | none => exact .nothing (by simp) (hno (by simp)) rfl
    | some t =>
      dsimp only
      cases hactive : t.ensureActive with
      | error e => exact .nothing (by simp) (hno (by simp)) rfl
      | ok _ =>
        rcases hs.txns id t ht with ⟨st, _, hf⟩
        refine .view rfl ht (Txn.ensureActive_eq_ok_iff.1 hactive) (fun name => ?_) rfl
        exact ⟨rfl, rfl, rfl, rfl, rfl, hf.sound.get?_view name⟩
  | write id w =>
    rw [Engine.perform]
    cases ht : s.txns[id]? with
    | none =>
      refine .nothing (fun id' w' heq => ?_) (hno (by simp)) (next_run_none ht)
      cases heq
      exact ht
    | some t =>
      rcases hs.txns id t ht with ⟨st, hst, _⟩
      exact .write rfl ht hst (next_run ht hst)
  | query id scan table index args =>
    rw [Engine.perform]
    cases ht : s.txns[id]? with
    | none => exact .nothing (by simp) (hno (by simp)) (next_run_none ht)
    | some t =>
      rcases hs.txns id t ht with ⟨st, hst, _⟩
      rw [next_run ht hst, scan.leaves_txn, updateTxn_same ht]
      exact .count rfl (by simp) (hno (by simp)) rfl
  | trackChanges id =>
    exact .aside rfl (by simp) (hno (by simp)) (fun t => ⟨_, t.deferred, rfl⟩) rfl
  | defer id job =>
    exact .aside rfl (by simp) (hno (by simp)) (fun t => ⟨t.changes, _, rfl⟩) rfl
  | commit id =>
    cases ht : s.txns[id]? with
    | none =>
      refine .nothing (by simp) (fun id' t' hc => ?_) (commitOne_of_none ht)
      cases hc.action
      exact absurd hc.txn (by simp [ht])
    | some t =>
      by_cases hw : t.isWriting = true
      · exact .commit ⟨rfl, ht, hw⟩ rfl
      · refine .nothing (by simp) (fun id' t' hc => ?_) (commitOne_of_idle ht hw)
        cases hc.action
        obtain rfl : t = t' := Option.some.inj (ht.symm.trans hc.txn)
        exact hw hc.writing
  | abort id =>
    rw [Engine.perform, next_abort]
    exact performs_drop rfl (by simp) (hno (by simp))
  | drop id => exact performs_drop rfl (by simp) (hno (by simp))

/-! ## Stores -/

namespace Sound

variable {s : Engine α} {a : Action α} {id n : Nat} {t' : Txn α} {st' : Store α}

theorem storeStep_commitOne {t : Txn α} (hc : s.Commits a id t)
    (h : (s.commitOne id).stores[n]? = some st') : s.StoreStep a n st' := by
  have ht := hc.txn
  simp only [Engine.commitOne, ht, hc.writing, if_true] at h
  rw [commitWrites_eq ht, publish_eq ht] at h
  rcases exists_stays_finish h with ⟨st₁, hst₁, hstays⟩
  rcases getElem?_stores_updateStore.1 hst₁ with ⟨st, hst, rfl⟩
  by_cases hn : n = t.store
  · rw [if_pos hn] at hstays
    exact .published hst hc hn.symm hstays.schema hstays.primary hstays.root
  · rw [if_neg hn] at hstays
    refine .stays hst hstays fun id' t₁ hc' => ?_
    cases hc.action.symm.trans hc'.action
    obtain rfl : t = t₁ := Option.some.inj (ht.symm.trans hc'.txn)
    exact Ne.symm hn

/-- A store after an action is new, has its contents still, or has the root that the active
writer published. -/
theorem storeStep (hs : s.Sound) (h : (s.perform a).stores[n]? = some st') :
    s.StoreStep a n st' := by
  have hno (ha : ∀ id, a ≠ .commit id) (id : Nat) (t : Txn α) : ¬ s.Commits a id t :=
    fun hc => ha id hc.action
  cases hs.performs a with
  | nothing _ hcommit heq =>
    rw [heq] at h
    exact .of_stays hcommit ⟨st', h, .refl st'⟩
  | create ha hst heq =>
    rw [heq] at h
    rcases getElem?_concat_iff.1 h with h | ⟨hn, rfl⟩
    · exact .of_stays (hno (by simp [ha])) ⟨st', h, .refl st'⟩
    · exact .created ha hn hst
  | copy ha hst heq =>
    rw [heq] at h
    rcases getElem?_concat_iff.1 h with h | ⟨hn, hst'⟩
    · exact .of_stays (hno (by simp [ha])) ⟨st', h, .refl st'⟩
    · exact .copied ha hn hst hst'
  | read ha _ heq | request ha heq | turn ha _ _ heq | write ha _ _ heq =>
    rw [heq] at h
    exact .of_stays (hno (by simp [ha])) (exists_stays h fun _ => ⟨rfl, rfl, rfl⟩)
  | view ha _ _ _ heq =>
    rw [heq] at h
    exact .of_stays (hno (by simp [ha])) ⟨st', h, .refl st'⟩
  | count _ _ hcommit heq =>
    rw [heq] at h
    exact .of_stays hcommit (exists_stays h fun _ => ⟨rfl, rfl, rfl⟩)
  | aside _ _ hcommit _ heq =>
    rw [heq] at h
    exact .of_stays hcommit ⟨st', h, .refl st'⟩
  | commit hc heq =>
    rw [heq] at h
    exact storeStep_commitOne hc h
  | drop _ _ hcommit ht hw heq =>
    rw [heq, drop_of_some ht, if_pos hw, Engine.abortWrites] at h
    rcases exists_stays_finish h with ⟨st, hst, hstays⟩
    exact .of_stays hcommit ⟨st, hst, hstays⟩

/-! ## Transactions -/

/-- A transaction after an action is new, has written or ended, or sees what it saw. -/
theorem txnStep (hs : s.Sound) (h : (s.perform a).txns[n]? = some t') : s.TxnStep a n t' := by
  have hold (hwrite : ∀ id w, a ≠ .write id w) (hcommit : ∀ id, a ≠ .commit id)
      (ht : s.txns[n]? = some t') : s.TxnStep a n t' :=
    .of_same ht (hwrite n) fun hc => hcommit n hc.action
  cases hs.performs a with
  | nothing hwrite hcommit heq =>
    rw [heq] at h
    refine .of_same h (fun w ha => ?_) (hcommit n t')
    rw [hwrite n w ha] at h
    cases h
  | create ha _ heq | copy ha _ heq | request ha heq =>
    rw [heq] at h
    exact hold (by simp [ha]) (by simp [ha]) h
  | read ha hst heq =>
    rw [heq] at h
    rcases getElem?_concat_iff.1 h with h | ⟨hn, ht'⟩
    · exact hold (by simp [ha]) (by simp [ha]) h
    · exact .reader ha hn hst ht'
  | turn ha hst _ heq =>
    rw [heq] at h
    rcases getElem?_concat_iff.1 h with h | ⟨hn, ht'⟩
    · exact hold (by simp [ha]) (by simp [ha]) h
    · exact .writer ha hn hst ht'
  | view ha ht hactive hviews heq =>
    rw [heq] at h
    rcases getElem?_concat_iff.1 h with h | ⟨hn, rfl⟩
    · exact hold (by simp [ha]) (by simp [ha]) h
    · exact .snapshot ha hn ht hactive (hviews _)
  | @write id w t st stats ha ht hst heq =>
    rw [heq] at h
    rcases getElem?_txns_updateTxn.1 h with ⟨t₁, h₁, rfl⟩
    by_cases hn : n = id
    · subst hn
      rw [if_pos rfl]
      exact .wrote ha ht hst rfl
    · rw [if_neg hn]
      refine .of_same h₁ (fun w' ha' => ?_) fun hc => ?_
      · rw [ha] at ha'
        cases ha'
        exact hn rfl
      · rw [ha] at hc
        cases hc.action
  | count _ hwrite hcommit heq =>
    rw [heq] at h
    exact .of_same h (hwrite n) (hcommit n t')
  | aside _ hwrite hcommit hf heq =>
    rw [heq] at h
    rcases getElem?_txns_updateTxn.1 h with ⟨t, ht, rfl⟩
    split
    · rcases hf t with ⟨changes, deferred, hsame⟩
      exact .stays ht hsame (hwrite n) (hcommit n t)
    · exact .of_same ht (hwrite n) (hcommit n t)
  | @commit id t hc heq =>
    rw [heq] at h
    by_cases hn : n = id
    · subst hn
      rw [txns_commitOne_self hc.txn hc.writing] at h
      obtain rfl := Option.some.inj h
      exact .ended hc.txn hc.writing rfl
    · rw [txns_commitOne_of_ne hn] at h
      refine .of_same h (by simp [hc.action]) fun hc' => ?_
      cases hc.action.symm.trans hc'.action
      exact hn rfl
  | @drop id t _ hwrite hcommit ht hw heq =>
    rw [heq] at h
    by_cases hn : n = id
    · subst hn
      rw [txns_drop_self ht hw] at h
      obtain rfl := Option.some.inj h
      exact .ended ht hw rfl
    · rw [txns_drop_of_ne hn] at h
      exact .of_same h (hwrite n) (hcommit n t')

/-! ## One transaction at a time -/

/-- An action leaves all transactions as they are but the one that it is made in. -/
theorem txns_perform (hs : s.Sound) {t : Txn α} (ht : s.txns[id]? = some t)
    (ha : a.actor? ≠ some id) : (s.perform a).txns[id]? = some t := by
  have hne {n : Nat} (hactor : a.actor? = some n) : id ≠ n := fun heq => ha (heq ▸ hactor)
  have hadd (t' : Txn α) : (s.txns ++ [t'])[id]? = some t := getElem?_concat_iff.2 (.inl ht)
  cases hs.performs a with
  | nothing _ _ heq | create _ _ heq | copy _ _ heq | request _ heq | count _ _ _ heq =>
    rw [heq]
    exact ht
  | read _ _ heq | turn _ _ _ heq | view _ _ _ _ heq =>
    rw [heq]
    exact hadd _
  | write haction _ _ heq =>
    rw [heq]
    exact (txns_updateTxn_of_ne (hne (haction ▸ rfl))).trans ht
  | aside hactor _ _ _ heq =>
    rw [heq]
    exact (txns_updateTxn_of_ne (hne hactor)).trans ht
  | commit hc heq =>
    rw [heq]
    exact (txns_commitOne_of_ne (hne (hc.action ▸ rfl))).trans ht
  | drop hactor _ _ _ _ heq =>
    rw [heq]
    exact (txns_drop_of_ne (hne hactor)).trans ht

/-! ## Around the active writer -/

/-- As long as a writer has not ended, its store keeps its contents. -/
theorem stays_of_writing (hs : s.Sound) {t : Txn α} (ht : s.txns[id]? = some t)
    (hw : t.isWriting = true) (hcommit : ¬ s.Commits a id t)
    (hst' : (s.perform a).stores[t.store]? = some st') :
    ∃ st, s.stores[t.store]? = some st ∧ st.Stays st' := by
  rcases hs.txns id t ht with ⟨st, hst, _⟩
  have hlt : t.store < s.stores.length := (List.getElem?_eq_some_iff.1 hst).1
  cases hs.storeStep hst' with
  | created _ hn _ => exact absurd hn (Nat.ne_of_lt hlt)
  | copied _ hn _ _ => exact absurd hn (Nat.ne_of_lt hlt)
  | stays hst₁ hstays _ => exact ⟨_, hst₁, hstays⟩
  | published _ hc hstore _ _ _ =>
    -- only the active writer publishes
    obtain rfl := hs.writer_unique ht hc.txn hstore.symm hw hc.writing
    obtain rfl := Option.some.inj (ht.symm.trans hc.txn)
    exact absurd hc hcommit

/-- A snapshot of a transaction that has not ended sees the same. -/
theorem snapshotTxn_views (hs : s.Sound) {t : Txn α} (ht : s.txns[id]? = some t)
    (hactive : t.state = .active) :
    ∃ t', (s.perform (.snapshotTxn id)).txns[s.txns.length]? = some t' ∧ t'.Views t := by
  rcases hs.txns id t ht with ⟨st, _, hf⟩
  have hensure : t.ensureActive = .ok () := Txn.ensureActive_eq_ok_iff.2 hactive
  simp only [Engine.perform, Engine.snapshotTxn, ht, hensure]
  refine ⟨_, getElem?_concat_iff.2 (.inr ⟨rfl, rfl⟩), ⟨rfl, rfl, rfl, rfl, rfl, ?_⟩⟩
  exact hf.sound.get?_view _

end Sound

end Engine

end SnapStore
