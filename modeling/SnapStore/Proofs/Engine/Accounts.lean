import SnapStore.Proofs.Engine.Atomic
import SnapStore.Proofs.Engine.Counters
import SnapStore.Proofs.Engine.Deferred

/-! # The lives of transactions and the accounts of a store

A store has a writer exactly as long as one of its write transactions is active. Its counters
balance: each writer that asked for its turn has committed, was aborted, is active or waits
still. Insertions and removals are counted as they are made, whatever becomes of the
transaction. A transaction that has ended refuses everything for good, and a read transaction
never ends.

Main statement: `accounts_balance`.
-/

namespace SnapStore

variable {α : Type}

namespace Engine

/-! ## The books -/

/-- How many write transactions of a store are active. -/
def writing (s : Engine α) (n : Nat) : Nat :=
  s.txns.countP fun t => t.store == n && t.isWriting

/-- The counters of a store; all zero as long as there is none. -/
def stats (s : Engine α) (n : Nat) : Stats :=
  (s.stores[n]?.map Store.stats).getD {}

/-- Counts an action that is an insertion into a store, if it succeeds. -/
def insertsOf (n : Nat) (s : Engine α) : Action α → Nat
  | .write id (.insert table object) =>
    match s.txns[id]?, s.run id (TxnM.write (.insert table object)) with
    | some t, some (.ok (), _) => if t.store = n then 1 else 0
    | _, _ => 0
  | _ => 0

/-- Counts the objects that an action removes in a store. -/
def removesOf (n : Nat) (s : Engine α) : Action α → Nat
  | .write id w =>
    match s.txns[id]? with
    | some t => if t.store = n then (t.removes w).length else 0
    | none => 0
  | _ => 0

/-- What the actions of a run come to, each counted when it is made. -/
def total (count : Engine α → Action α → Nat) : Engine α → List (Action α) → Nat
  | _, [] => 0
  | s, a :: actions => count s a + total count (s.perform a) actions

end Engine

/-- The accounts of a store balance. -/
def Store.Balances (st : Store α) : Prop :=
  st.stats.writeTxns =
    st.stats.commits + st.stats.aborts + (if st.writer.isSome then 1 else 0) + st.waiting

/-- A new store has nothing on its account. -/
theorem Store.fresh_create {schema : Schema α} {settings : Settings} {name : Nat} {st : Store α}
    (h : Store.create schema settings name = .ok st) :
    st.writer = none ∧ st.stats = {} ∧ st.Balances := by
  unfold create at h
  split at h
  · cases h
  · obtain rfl := Except.ok.inj h
    exact ⟨rfl, rfl, rfl⟩

/-- The accounts of all stores balance, each writer is an active transaction of its store, and
read transactions are active. -/
structure Engine.Balanced (s : Engine α) : Prop where
  balances : ∀ (n : Nat) (st : Store α), s.stores[n]? = some st → st.Balances
  writer : ∀ (n : Nat) (st : Store α) (id : Nat), s.stores[n]? = some st → st.writer = some id →
    ∃ t, s.txns[id]? = some t ∧ t.store = n ∧ t.isWriting = true
  reading : ∀ (id : Nat) (t : Txn α), s.txns[id]? = some t → t.write = false → t.state = .active

namespace Engine.Balanced

variable {s : Engine α}

theorem empty : ({} : Engine α).Balanced :=
  ⟨fun _ _ h => (nomatch h), fun _ _ _ h => (nomatch h), fun _ _ h => (nomatch h)⟩

/-! ## Additions -/

theorem addStore (h : s.Balanced) {st : Store α} (hst : st.Balances) (hwriter : st.writer = none) :
    (s.addStore st).2.Balanced := by
  refine ⟨fun n st' hn => ?_, fun n st' id hn hw => ?_, h.reading⟩
  · rcases getElem?_concat_iff.1 hn with hn | ⟨_, rfl⟩
    · exact h.balances n st' hn
    · exact hst
  · rcases getElem?_concat_iff.1 hn with hn | ⟨_, rfl⟩
    · exact h.writer n st' id hn hw
    · rw [hwriter] at hw
      cases hw

theorem addTxn (h : s.Balanced) {make : Nat → Txn α} (hmake : ∀ name, (make name).state = .active) :
    (s.addTxn make).2.Balanced := by
  refine ⟨h.balances, fun n st id hn hw => ?_, fun id t ht hr => ?_⟩
  · rcases h.writer n st id hn hw with ⟨t, ht, hstore⟩
    exact ⟨t, getElem?_concat_iff.2 (.inl ht), hstore⟩
  · rcases getElem?_concat_iff.1 ht with ht | ⟨_, rfl⟩
    · exact h.reading id t ht hr
    · exact hmake _

theorem withBoard (h : s.Balanced) (board : Board) :
    Engine.Balanced { s with board := board } :=
  ⟨h.balances, h.writer, h.reading⟩

/-! ## Changes of one store or one transaction -/

/-- Changes of a store other than of its writer. -/
theorem updateStore (h : s.Balanced) (store : Nat) {g : Store α → Store α}
    (hwriter : ∀ st : Store α, (g st).writer = st.writer)
    (hbalances : ∀ st : Store α, s.stores[store]? = some st → st.Balances → (g st).Balances) :
    (s.updateStore store g).Balanced := by
  refine ⟨fun n st' hn => ?_, fun n st' id hn hw => ?_, h.reading⟩
  · rcases getElem?_stores_updateStore.1 hn with ⟨st, hst, rfl⟩
    split
    · rename_i heq
      exact hbalances st (heq ▸ hst) (h.balances n st hst)
    · exact h.balances n st hst
  · rcases getElem?_stores_updateStore.1 hn with ⟨st, hst, rfl⟩
    refine h.writer n st id hst ?_
    split at hw
    · rwa [hwriter] at hw
    · exact hw

/-- Changes of a transaction other than of its store and its stage. -/
theorem updateTxn (h : s.Balanced) (id : Nat) {f : Txn α → Txn α}
    (hf : ∀ t, s.txns[id]? = some t →
      (f t).store = t.store ∧ (f t).write = t.write ∧ (f t).state = t.state) :
    (s.updateTxn id f).Balanced := by
  have hsame (n : Nat) (t : Txn α) (ht : s.txns[n]? = some t) :
      (if n = id then f t else t).store = t.store ∧ (if n = id then f t else t).write = t.write ∧
        (if n = id then f t else t).state = t.state := by
    split
    · rename_i heq
      exact hf t (heq ▸ ht)
    · exact ⟨rfl, rfl, rfl⟩
  refine ⟨h.balances, fun n st id' hn hw => ?_, fun n t' ht' hr => ?_⟩
  · rcases h.writer n st id' hn hw with ⟨t, ht, hstore, hwriting⟩
    rcases hsame id' t ht with ⟨hstore', hwrite', hstate'⟩
    refine ⟨_, getElem?_txns_updateTxn.2 ⟨t, ht, rfl⟩, hstore'.trans hstore, ?_⟩
    rw [Txn.isWriting, hwrite', hstate']
    exact hwriting
  · rcases getElem?_txns_updateTxn.1 ht' with ⟨t, ht, rfl⟩
    rcases hsame n t ht with ⟨_, hwrite', hstate'⟩
    rw [hstate']
    exact h.reading n t ht (hwrite'.symm.trans hr)

/-! ## Opening and ending write transactions -/

/-- The writer that gets its turn waits no more. -/
theorem turn (h : s.Balanced) {store : Nat} {st : Store α} (hst : s.stores[store]? = some st)
    (hfree : st.writer = none) (hwaits : st.waiting ≠ 0) :
    ((s.updateStore store fun st =>
      { st with writer := some s.txns.length, waiting := st.waiting - 1 }).addTxn
        (st.newWriter store)).2.Balanced := by
  refine ⟨fun n st' hn => ?_, fun n st' id hn hw => ?_, fun id t ht hr => ?_⟩
  · rcases getElem?_stores_updateStore.1 hn with ⟨st₁, hst₁, rfl⟩
    have hbal := h.balances n st₁ hst₁
    split
    · rename_i heq
      obtain rfl : st = st₁ := Option.some.inj (hst.symm.trans (heq ▸ hst₁))
      simp only [Store.Balances, hfree, Option.isSome_none, Bool.false_eq_true, if_false] at hbal
      simp only [Store.Balances, Option.isSome_some, if_true, hbal]
      omega
    · exact hbal
  · rcases getElem?_stores_updateStore.1 hn with ⟨st₁, hst₁, rfl⟩
    split at hw
    · rename_i heq
      obtain rfl : s.txns.length = id := Option.some.inj hw
      exact ⟨_, getElem?_concat_iff.2 (.inr ⟨rfl, rfl⟩), heq.symm, rfl⟩
    · rcases h.writer n st₁ id hst₁ hw with ⟨t, ht, hstore⟩
      exact ⟨t, getElem?_concat_iff.2 (.inl ht), hstore⟩
  · rcases getElem?_concat_iff.1 ht with ht | ⟨_, rfl⟩
    · exact h.reading id t ht hr
    · cases hr

/-- What the end of a writer makes of the stores. -/
theorem exists_of_finish {id store n : Nat} {ending : Ending} {st' : Store α}
    (h : (((s.mark id ending).release store).tally store ending).stores[n]? = some st') :
    ∃ st, s.stores[n]? = some st ∧ (n ≠ store ∧ st' = st ∨
      n = store ∧ st'.writer = none ∧ st'.waiting = st.waiting ∧
        st'.stats.writeTxns = st.stats.writeTxns ∧
        st'.stats.commits + st'.stats.aborts = st.stats.commits + st.stats.aborts + 1) := by
  cases ending <;>
  · rcases getElem?_stores_updateStore.1 h with ⟨st₁, h₁, rfl⟩
    rcases getElem?_stores_updateStore.1 h₁ with ⟨st, hst, rfl⟩
    refine ⟨st, hst, ?_⟩
    by_cases hn : n = store
    · rw [if_pos hn, if_pos hn]
      exact .inr ⟨hn, rfl, rfl, rfl, by simp only; omega⟩
    · rw [if_neg hn, if_neg hn]
      exact .inl ⟨hn, rfl⟩

/-- The end of the active writer is counted, and the next one may get its turn. -/
theorem finish (h : s.Balanced) {id : Nat} {t : Txn α} {st : Store α}
    (ht : s.txns[id]? = some t) (hw : t.isWriting = true) (hst : s.stores[t.store]? = some st)
    (hholds : st.writer = some id) (ending : Ending) :
    (((s.mark id ending).release t.store).tally t.store ending).Balanced := by
  have htxns : (((s.mark id ending).release t.store).tally t.store ending).txns =
      (s.mark id ending).txns := txns_finish
  refine ⟨fun n st' hn => ?_, fun n st' id' hn hw' => ?_, fun id' t' ht' hr => ?_⟩
  · rcases exists_of_finish hn with ⟨st₁, hst₁, ⟨_, rfl⟩ | ⟨rfl, hnone, hwaiting, hasked, hended⟩⟩
    · exact h.balances n st' hst₁
    · obtain rfl : st = st₁ := Option.some.inj (hst.symm.trans hst₁)
      have hbal := h.balances t.store st hst
      simp only [Store.Balances, hholds, Option.isSome_some, if_true] at hbal
      simp only [Store.Balances, hnone, Option.isSome_none, Bool.false_eq_true, if_false, hwaiting,
        hasked, hended, hbal]
  · rcases exists_of_finish hn with ⟨st₁, hst₁, ⟨hne, rfl⟩ | ⟨_, hnone, _⟩⟩
    · rcases h.writer n st' id' hst₁ hw' with ⟨t', ht', hstore, hwriting⟩
      -- the writer of another store goes on
      have hother : id' ≠ id := by
        rintro rfl
        obtain rfl : t = t' := Option.some.inj (ht.symm.trans ht')
        exact hne hstore.symm
      refine ⟨t', ?_, hstore, hwriting⟩
      rw [htxns]
      exact (txns_updateTxn_of_ne hother).trans ht'
    · rw [hnone] at hw'
      cases hw'
  · rw [htxns] at ht'
    rcases getElem?_txns_updateTxn.1 ht' with ⟨t₁, ht₁, rfl⟩
    split
    · -- it is the writer that has ended
      rename_i heq
      subst heq
      obtain rfl : t = t₁ := Option.some.inj (ht.symm.trans ht₁)
      have hwrite : t.write = true := (Bool.and_eq_true_iff.1 hw).1
      simp [hwrite] at hr
    · rename_i hne
      rw [if_neg hne] at hr
      exact h.reading id' t₁ ht₁ hr

theorem publish (h : s.Balanced) (id : Nat) : (s.publish id).2.Balanced := by
  cases ht : s.txns[id]? with
  | none =>
    simp only [Engine.publish, ht]
    exact h
  | some t =>
    rw [publish_eq ht]
    have hstore := h.updateStore t.store
      (g := fun st => { st with root := (t.rootDraft ⟨t.name, 0, 0⟩ t.primary).tree })
      (fun _ => rfl) fun _ _ hst => hst
    exact hstore.updateTxn id fun _ _ => ⟨rfl, rfl, rfl⟩

/-! ## All actions -/

theorem openRead (h : s.Balanced) (store : Nat) : (s.next (s.openRead store)).Balanced := by
  unfold Engine.openRead
  cases hst : s.stores[store]? with
  | none => exact h
  | some st =>
    have hcount := h.updateStore store
      (g := fun st => { st with stats := { st.stats with readTxns := st.stats.readTxns + 1 } })
      (fun _ => rfl) fun _ _ hst => hst
    exact hcount.addTxn fun _ => rfl

theorem requestWrite (h : s.Balanced) (store : Nat) : (s.requestWrite store).Balanced := by
  refine h.updateStore store (fun _ => rfl) fun st _ hst => ?_
  simp only [Store.Balances] at hst ⊢
  omega

theorem acquireWrite (h : s.Balanced) (store : Nat) :
    (s.next (s.acquireWrite store)).Balanced := by
  unfold Engine.acquireWrite
  cases hst : s.stores[store]? with
  | none => exact h
  | some st =>
    dsimp only
    split
    · exact h
    · rename_i hfree
      simp only [Bool.or_eq_true, decide_eq_true_eq, not_or, Bool.not_eq_true,
        Option.isSome_eq_false_iff, Option.isNone_iff_eq_none] at hfree
      exact h.turn hst hfree.1 hfree.2

theorem snapshotTxn (h : s.Balanced) (id : Nat) : (s.next (s.snapshotTxn id)).Balanced := by
  unfold Engine.snapshotTxn
  cases ht : s.txns[id]? with
  | none => exact h
  | some t =>
    dsimp only
    cases t.ensureActive with
    | error e => exact h
    | ok _ => exact h.addTxn fun _ => rfl

/-- An operation that lets its transaction evolve and counts nothing but insertions, removals and
queries. -/
theorem run {β : Type} (h : s.Balanced) (id : Nat) {op : TxnM α β} (hop : op.Keeps)
    (hcounts : ∀ t st, s.txns[id]? = some t → s.stores[t.store]? = some st →
      ∃ inserts deletes, st.stats.Moves (op.leaves ⟨t, st.stats⟩).stats inserts deletes) :
    (s.next (s.run id op)).Balanced := by
  cases ht : s.txns[id]? with
  | none =>
    rw [next_run_none ht]
    exact h
  | some t =>
    cases hst : s.stores[t.store]? with
    | none =>
      simp only [Engine.run, ht, hst, next]
      exact h
    | some st =>
      rw [next_run ht hst]
      have htxn := h.updateTxn id (f := fun _ => (op.leaves ⟨t, st.stats⟩).txn) fun t' ht' => by
        obtain rfl : t = t' := Option.some.inj (ht.symm.trans ht')
        rcases (hop ⟨t, st.stats⟩).frame with ⟨handles, changes, heq⟩
        rw [heq]
        exact ⟨rfl, rfl, rfl⟩
      refine htxn.updateStore t.store (fun _ => rfl) fun st' hst' hbal => ?_
      obtain rfl : st = st' := Option.some.inj (hst.symm.trans hst')
      rcases hcounts t st ht hst with ⟨inserts, deletes, hmoves⟩
      rw [Store.Balances] at hbal ⊢
      rw [hmoves.writeTxns, hmoves.commits, hmoves.aborts]
      exact hbal

theorem write (h : s.Balanced) (hs : s.Sound) (id : Nat) (w : Write α) :
    (s.next (s.run id (TxnM.write w))).Balanced := by
  refine h.run id (TxnM.keeps_write w) fun t st ht hst => ?_
  rcases hs.txns id t ht with ⟨st', hst', hf⟩
  obtain rfl : st = st' := Option.some.inj (hst.symm.trans hst')
  have hv : t.schema.validate = .ok () := hf.schema ▸ (hs.stores t.store st hst).valid
  exact TxnM.exists_moves_write hf.sound hv w st.stats

theorem query (h : s.Balanced) (id : Nat) (scan : Scan) (table index : String) (args : List Arg) :
    (s.next (s.run id (scan.run table index args))).Balanced :=
  h.run id
    (fun session => scan.leaves_txn table index args session.txn session.stats ▸ .refl _)
    fun t st _ _ => ⟨0, 0, scan.moves table index args t st.stats⟩

theorem commitOne (h : s.Balanced) (hs : s.Sound) (id : Nat) : (s.commitOne id).Balanced := by
  cases ht : s.txns[id]? with
  | none =>
    rw [commitOne_of_none ht]
    exact h
  | some t =>
    by_cases hw : t.isWriting = true
    · rcases hs.txns id t ht with ⟨st, hst, hf⟩
      simp only [Engine.commitOne, ht, hw, if_true]
      rw [commitWrites_eq ht]
      have hpublished := (h.publish id).withBoard (s.board.fireAll (s.publish id).1)
      have hst' : (s.publish id).2.stores[t.store]? =
          some { st with root := (t.rootDraft ⟨t.name, 0, 0⟩ t.primary).tree } := by
        rw [publish_eq ht]
        exact stores_updateStore_self hst
      have hended := hpublished.finish (txns_publish_self ht) hw hst' (hf.writes hw).1 .commit
      exact hended.updateTxn id fun _ _ => ⟨rfl, rfl, rfl⟩
    · rw [commitOne_of_idle ht hw]
      exact h

theorem drop (h : s.Balanced) (hs : s.Sound) (id : Nat) : (s.drop id).Balanced := by
  cases ht : s.txns[id]? with
  | none =>
    rw [drop_of_none ht]
    exact h
  | some t =>
    rw [drop_of_some ht]
    split
    · rename_i hw
      rcases hs.txns id t ht with ⟨st, hst, hf⟩
      have hforgot := h.updateTxn id
        (f := fun t => { t with handles := [], changes := none, deferred := [] })
        fun _ _ => ⟨rfl, rfl, rfl⟩
      exact hforgot.finish (txns_updateTxn_self ht) hw hst (hf.writes hw).1 .abort
    · exact h

/-- Every action keeps the books in balance. -/
theorem perform (h : s.Balanced) (hs : s.Sound) (a : Action α) : (s.perform a).Balanced := by
  cases a with
  | create schema settings =>
    simp only [Engine.perform, Engine.create]
    cases hst : Store.create schema settings s.board.newName.1 with
    | error e => exact h
    | ok st =>
      obtain ⟨hwriter, _, hbal⟩ := Store.fresh_create hst
      exact (h.withBoard s.board.newName.2).addStore hbal hwriter
  | snapshotStore store =>
    simp only [Engine.perform, Engine.snapshotStore]
    cases hst : s.stores[store]? with
    | none => exact h
    | some st => exact h.addStore rfl rfl
  | openRead store => exact h.openRead store
  | requestWrite store => exact h.requestWrite store
  | acquireWrite store => exact h.acquireWrite store
  | snapshotTxn id => exact h.snapshotTxn id
  | write id w => exact h.write hs id w
  | query id scan table index args => exact h.query id scan table index args
  | trackChanges id => exact h.updateTxn id fun _ _ => ⟨rfl, rfl, rfl⟩
  | defer id job => exact h.updateTxn id fun _ _ => ⟨rfl, rfl, rfl⟩
  | commit id => exact h.commitOne hs id
  | abort id =>
    rw [Engine.perform, next_abort]
    exact h.drop hs id
  | drop id => exact h.drop hs id

theorem performAll (h : s.Balanced) (hs : s.Sound) (actions : List (Action α)) :
    (s.performAll actions).Balanced := by
  induction actions generalizing s with
  | nil => exact h
  | cons a actions ih => exact ih (h.perform hs a) (hs.perform a)

end Engine.Balanced

namespace Engine

variable {s : Engine α} {n : Nat}

/-! ## What is counted along a run -/

/-- The insertions and the removals that a store has counted. -/
def work (s : Engine α) (n : Nat) : Nat × Nat :=
  ((s.stats n).inserts, (s.stats n).deletes)

theorem stats_eq {st : Store α} (hst : s.stores[n]? = some st) : s.stats n = st.stats := by
  rw [stats, hst]
  rfl

theorem work_updateStore {store : Nat} {g : Store α → Store α}
    (hg : ∀ st : Store α, (g st).stats.inserts = st.stats.inserts ∧
      (g st).stats.deletes = st.stats.deletes) :
    (s.updateStore store g).work n = s.work n := by
  by_cases hn : n = store
  · subst hn
    cases hst : s.stores[n]? with
    | none => simp [work, stats, updateStore, hst]
    | some st =>
      rw [work, work, stats_eq (stores_updateStore_self hst), stats_eq hst, (hg st).1, (hg st).2]
  · rw [work, work, stats, stats, stores_updateStore_of_ne hn]

theorem work_addStore {st : Store α} (hst : st.stats = {}) :
    (s.addStore st).2.work n = s.work n := by
  have hsame : (s.addStore st).2.stats n = s.stats n := by
    rcases Nat.lt_trichotomy n s.stores.length with hlt | rfl | hlt
    · simp only [stats, addStore, List.getElem?_append_left hlt]
    · simp [stats, addStore, hst]
    · have hafter : (s.stores ++ [st])[n]? = none := by
        refine List.getElem?_eq_none ?_
        rw [List.length_append, List.length_singleton]
        exact hlt
      simp only [stats, addStore, hafter, List.getElem?_eq_none hlt.le]
  rw [work, work, hsame]

theorem work_finish (id store : Nat) (ending : Ending) :
    (((s.mark id ending).release store).tally store ending).work n = s.work n := by
  have hrelease : ((s.mark id ending).release store).work n = s.work n :=
    work_updateStore (s := s.mark id ending) fun _ => ⟨rfl, rfl⟩
  refine Eq.trans ?_ hrelease
  cases ending with
  | commit | abort =>
    refine work_updateStore ?_
    exact fun _ => ⟨rfl, rfl⟩

theorem work_commitOne (id : Nat) : (s.commitOne id).work n = s.work n := by
  cases ht : s.txns[id]? with
  | none => rw [commitOne_of_none ht]
  | some t =>
    by_cases hw : t.isWriting = true
    · simp only [Engine.commitOne, ht, hw, if_true]
      rw [commitWrites_eq ht, publish_eq ht]
      refine (work_finish id t.store .commit).trans ?_
      exact work_updateStore (s := s) fun _ => ⟨rfl, rfl⟩
    · rw [commitOne_of_idle ht hw]

theorem work_drop (id : Nat) : (s.drop id).work n = s.work n := by
  cases ht : s.txns[id]? with
  | none => rw [drop_of_none ht]
  | some t =>
    rw [drop_of_some ht]
    split
    · exact work_finish _ _ _
    · rfl

/-- A run of an operation counts what the operation counts, in the store of its transaction. -/
theorem work_run {β : Type} {id : Nat} {t : Txn α} {st : Store α} {op : TxnM α β}
    {inserts deletes : Nat} (ht : s.txns[id]? = some t) (hst : s.stores[t.store]? = some st)
    (hmoves : st.stats.Moves (op.leaves ⟨t, st.stats⟩).stats inserts deletes) :
    (s.next (s.run id op)).work n =
      ((s.work n).1 + if t.store = n then inserts else 0,
        (s.work n).2 + if t.store = n then deletes else 0) := by
  rw [next_run ht hst]
  by_cases hn : t.store = n
  · subst hn
    have hst' : (s.updateTxn id fun _ => (op.leaves ⟨t, st.stats⟩).txn).stores[t.store]? =
        some st := hst
    rw [if_pos rfl, if_pos rfl, work, stats_eq (stores_updateStore_self hst')]
    simp only [hmoves.inserts, hmoves.deletes, work, stats_eq hst]
  · rw [if_neg hn, if_neg hn, work, stats, stores_updateStore_of_ne (Ne.symm hn)]
    rfl

namespace Sound

theorem work_write (hs : s.Sound) (id : Nat) (w : Write α) (n : Nat) :
    (s.perform (.write id w)).work n =
      ((s.work n).1 + insertsOf n s (.write id w), (s.work n).2 + removesOf n s (.write id w)) := by
  cases ht : s.txns[id]? with
  | none =>
    have hnone : insertsOf n s (.write id w) = 0 := by cases w <;> simp only [insertsOf, ht]
    rw [Engine.perform, next_run_none ht, hnone, removesOf, ht]
    rfl
  | some t =>
    rcases hs.txns id t ht with ⟨st, hst, hf⟩
    have hv : t.schema.validate = .ok () := hf.schema ▸ (hs.stores t.store st hst).valid
    have hremoves : removesOf n s (.write id w) =
        if t.store = n then (t.removes w).length else 0 := by rw [removesOf, ht]
    rw [Engine.perform, hremoves]
    cases w with
    | insert table object =>
      have hnone : t.removes (.insert table object) = [] := Txn.removes_of_targets fun _ => rfl
      rw [hnone]
      rcases TxnM.run_insert_cases hf.sound hv table object st.stats with ⟨e, hrun⟩ | ⟨t', hrun⟩
      · change (TxnM.write (.insert table object)).run ⟨t, st.stats⟩ = _ at hrun
        have hcount : insertsOf n s (.write id (.insert table object)) = 0 := by
          rw [insertsOf, ht, run_eq_of_error ht hst hrun]
        rw [hcount, work_run ht hst (TxnM.moves_of_error hrun)]
        simp
      · change (TxnM.write (.insert table object)).run ⟨t, st.stats⟩ = _ at hrun
        have hcount : insertsOf n s (.write id (.insert table object)) =
            if t.store = n then 1 else 0 := by
          rw [insertsOf, ht, run_eq_of_ok ht hst hrun]
        have hmoves : st.stats.Moves
            ((TxnM.write (.insert table object)).leaves ⟨t, st.stats⟩).stats 1 0 := by
          rw [TxnM.leaves, hrun]
          exact ⟨rfl, rfl, rfl, rfl, rfl⟩
        rw [hcount, work_run ht hst hmoves]
        simp
    | delete | deleteStem | deleteAll =>
      rw [work_run ht hst (TxnM.moves_removal hf.sound hv (by simp) st.stats)]
      simp [insertsOf]

/-- An action counts in a store what it inserts and removes there. -/
theorem work_perform (hs : s.Sound) (a : Action α) (n : Nat) :
    (s.perform a).work n = ((s.work n).1 + insertsOf n s a, (s.work n).2 + removesOf n s a) := by
  cases a with
  | create schema settings =>
    simp only [Engine.perform, Engine.create]
    cases hst : Store.create schema settings s.board.newName.1 with
    | error e => rfl
    | ok st => exact work_addStore (Store.fresh_create hst).2.1
  | snapshotStore store =>
    simp only [Engine.perform, Engine.snapshotStore]
    cases hst : s.stores[store]? with
    | none => rfl
    | some st => exact work_addStore rfl
  | openRead store =>
    simp only [Engine.perform, Engine.openRead]
    cases hst : s.stores[store]? with
    | none => rfl
    | some st => exact work_updateStore (s := s) fun _ => ⟨rfl, rfl⟩
  | requestWrite store => exact work_updateStore fun _ => ⟨rfl, rfl⟩
  | acquireWrite store =>
    simp only [Engine.perform, Engine.acquireWrite]
    cases hst : s.stores[store]? with
    | none => rfl
    | some st =>
      dsimp only
      split
      · rfl
      · exact work_updateStore (s := s) fun _ => ⟨rfl, rfl⟩
  | snapshotTxn id =>
    simp only [Engine.perform, Engine.snapshotTxn]
    cases ht : s.txns[id]? with
    | none => rfl
    | some t =>
      dsimp only
      cases t.ensureActive <;> rfl
  | write id w => exact hs.work_write id w n
  | query id scan table index args =>
    rw [Engine.perform]
    cases ht : s.txns[id]? with
    | none =>
      rw [next_run_none ht]
      rfl
    | some t =>
      rcases hs.txns id t ht with ⟨st, hst, _⟩
      rw [work_run ht hst (scan.moves table index args t st.stats)]
      simp [insertsOf, removesOf]
  | trackChanges id => rfl
  | defer id job => rfl
  | commit id => exact work_commitOne id
  | abort id =>
    rw [Engine.perform, next_abort]
    exact work_drop id
  | drop id => exact work_drop id

/-- What a store has counted is what the actions of the run come to. -/
theorem work_performAll (hs : s.Sound) (actions : List (Action α)) (n : Nat) :
    (s.performAll actions).work n =
      ((s.work n).1 + total (insertsOf n) s actions,
        (s.work n).2 + total (removesOf n) s actions) := by
  induction actions generalizing s with
  | nil => rfl
  | cons a actions ih =>
    rw [performAll_cons, ih (hs.perform a), hs.work_perform a n, total, total, Nat.add_assoc,
      Nat.add_assoc]

/-! ## The active writer -/

/-- A store has a writer exactly if one of its write transactions is active. -/
theorem writer_isSome_iff (hs : s.Sound) (h : s.Balanced) {st : Store α}
    (hst : s.stores[n]? = some st) : st.writer.isSome = true ↔
      ∃ (id : Nat) (t : Txn α), s.txns[id]? = some t ∧ t.store = n ∧ t.isWriting = true := by
  constructor
  · intro hw
    rcases Option.isSome_iff_exists.1 hw with ⟨id, hid⟩
    exact ⟨id, h.writer n st id hst hid⟩
  · rintro ⟨id, t, ht, rfl, hw⟩
    rcases hs.txns id t ht with ⟨st', hst', hf⟩
    obtain rfl : st = st' := Option.some.inj (hst.symm.trans hst')
    rw [(hf.writes hw).1]
    rfl

end Sound

/-- What only one entry of a list has, one entry has. -/
theorem countP_eq_one {β : Type} {p : β → Bool} {xs : List β} {i : Nat} {x : β}
    (hx : xs[i]? = some x) (hp : p x = true)
    (honly : ∀ j y, xs[j]? = some y → p y = true → j = i) : xs.countP p = 1 := by
  obtain ⟨hi, rfl⟩ := List.getElem?_eq_some_iff.1 hx
  have hnone (ys : List β) (hys : ∀ y ∈ ys, p y = false) : ys.countP p = 0 :=
    List.countP_eq_zero.2 fun y hy => by simp [hys y hy]
  have hbefore : (xs.take i).countP p = 0 := by
    refine hnone _ fun y hy => ?_
    rcases List.mem_iff_getElem?.1 hy with ⟨j, hj⟩
    rw [List.getElem?_take] at hj
    split at hj
    · rename_i hlt
      refine Bool.eq_false_iff.2 fun hpy => ?_
      exact Nat.ne_of_lt hlt (honly j y hj hpy)
    · cases hj
  have hafter : (xs.drop (i + 1)).countP p = 0 := by
    refine hnone _ fun y hy => ?_
    rcases List.mem_iff_getElem?.1 hy with ⟨j, hj⟩
    rw [List.getElem?_drop] at hj
    refine Bool.eq_false_iff.2 fun hpy => ?_
    have heq := honly _ y hj hpy
    omega
  rw [← List.take_append_drop i xs, List.drop_eq_getElem_cons hi, List.countP_append,
    List.countP_cons_of_pos hp, hbefore, hafter]

/-- The active write transactions of a store are its writer, if it has one. -/
theorem Sound.writing_eq (hs : s.Sound) (h : s.Balanced) {st : Store α}
    (hst : s.stores[n]? = some st) :
    s.writing n = if st.writer.isSome then 1 else 0 := by
  have hiff := hs.writer_isSome_iff h hst
  by_cases hw : st.writer.isSome = true
  · rw [if_pos hw]
    rcases hiff.1 hw with ⟨id, t, ht, hstore, hwriting⟩
    refine countP_eq_one ht (by simp [hstore, hwriting]) fun id' t' ht' hp => ?_
    simp only [Bool.and_eq_true, beq_iff_eq] at hp
    exact hs.writer_unique ht' ht (hp.1.trans hstore.symm) hp.2 hwriting
  · rw [if_neg hw]
    refine List.countP_eq_zero.2 fun t hmem hp => ?_
    simp only [Bool.and_eq_true, beq_iff_eq] at hp
    rcases List.mem_iff_getElem?.1 hmem with ⟨id, ht⟩
    exact hw (hiff.2 ⟨id, t, ht, hp⟩)

/-! ## The end of a transaction -/

/-- Whatever is asked of the transaction is refused, and nothing changes. It can be dropped. -/
structure Refuses (s : Engine α) (id : Nat) (ending : Ending) : Prop where
  write : ∀ w, s.run id (TxnM.write w) = some (.error (.ended ending), s)
  query : ∀ (scan : Scan) (table index : String) (args : List Arg),
    s.run id (scan.run table index args) = some (.error (.ended ending), s)
  snapshot : s.snapshotTxn id = some (.error (.ended ending), s)
  commit : s.commit id = some (.error (.ended ending), s)
  abort : s.abort id = some (.error (.ended ending), s)
  drop : s.drop id = s

/-- The transaction has ended, and refuses everything from here on. -/
def Closed (s : Engine α) (id : Nat) (ending : Ending) : Prop :=
  (∃ t, s.txns[id]? = some t ∧ t.state = .ended ending) ∧
    ∀ more, (s.performAll more).Refuses id ending

theorem Sound.refuses (hs : s.Sound) {id : Nat} {t : Txn α} {ending : Ending}
    (ht : s.txns[id]? = some t) (hended : t.state = .ended ending) : s.Refuses id ending := by
  rcases hs.txns id t ht with ⟨st, hst, _⟩
  have hactive : t.ensureActive = .error (.ended ending) := by rw [Txn.ensureActive, hended]
  have hwrite : t.ensureWrite = .error (.ended ending) := by rw [Txn.ensureWrite, hactive]; rfl
  have hidle : ¬ t.isWriting = true := by simp [Txn.isWriting, hended]
  refine ⟨fun w => ?_, fun scan table index args => ?_, ?_, ?_, ?_, ?_⟩
  · exact run_eq_of_error ht hst (TxnM.run_write_refused hwrite w st.stats)
  · refine run_eq_of_error ht hst ?_
    have hlookup : t.lookup table index args = .error (.ended ending) := by
      rw [Txn.lookup, hactive]
      rfl
    rcases scan.run_eq table index args t st.stats with ⟨stats', hrun⟩
    rw [hrun, hlookup]
  · simp only [Engine.snapshotTxn, ht, hactive]
  · simp only [Engine.commit, ht, hactive]
  · simp only [Engine.abort, ht, hactive]
  · rw [drop_of_some ht, if_neg hidle]

/-- A transaction that has ended is closed for good. -/
theorem Sound.closed (hs : s.Sound) {id : Nat} {t : Txn α} {ending : Ending}
    (ht : s.txns[id]? = some t) (hended : t.state = .ended ending) : s.Closed id ending := by
  refine ⟨⟨t, ht, hended⟩, fun more => ?_⟩
  induction more generalizing s t with
  | nil => exact hs.refuses ht hended
  | cons a more ih =>
    rcases hs.ended_perform ht hended a with ⟨t', ht', hended'⟩
    exact ih (hs.perform a) ht' hended'

/-- What is closed stays closed. -/
theorem Closed.reaches {s' : Engine α} {id : Nat} {ending : Ending} (h : s.Closed id ending)
    (hs : s.Sound) (hreach : s.Reaches s') : s'.Closed id ending := by
  rcases hreach with ⟨actions, rfl⟩
  induction actions generalizing s with
  | nil => exact h
  | cons a actions ih =>
    rcases h.1 with ⟨t, ht, hended⟩
    rcases hs.ended_perform ht hended a with ⟨t', ht', hended'⟩
    exact ih ((hs.perform a).closed ht' hended') (hs.perform a)

/-- A commit, with all of its deferred jobs, closes the active writer. -/
theorem Sound.closed_commit (hs : s.Sound) {id : Nat} {t : Txn α} (ht : s.txns[id]? = some t)
    (hw : t.isWriting = true) : (s.next (s.commit id)).Closed id .commit := by
  have hperform : (s.perform (.commit id)).Closed id .commit :=
    (hs.perform _).closed (txns_commitOne_self ht hw) rfl
  exact hperform.reaches (hs.perform _) (hs.reaches_commit id)

theorem Sound.closed_drop (hs : s.Sound) {id : Nat} {t : Txn α} (ht : s.txns[id]? = some t)
    (hw : t.isWriting = true) : (s.drop id).Closed id .abort :=
  (hs.drop id).closed (txns_drop_self ht hw) rfl

/-- The lives of transactions and the accounts of stores. Whatever a run has led to:

* A store has a writer exactly if one of its write transactions is active. Every writer that asked
  for its turn is accounted for, and what was counted of insertions and removals is what the
  actions of the run came to, whatever became of their transactions. Where the paths of all
  indexes differ, a write removes the objects that its table had before and has no more after it.
* The active writer is closed by its commit with all deferred jobs, by an abort and by being
  dropped. A transaction that has ended is closed: it refuses everything from then on.
* A read transaction is active. Its commit and its abort succeed and change nothing. -/
theorem accounts_balance (actions : List (Action α)) :
    let s : Engine α := performAll {} actions
    (∀ (n : Nat) (st : Store α), s.stores[n]? = some st →
      (st.writer.isSome = true ↔
        ∃ (id : Nat) (t : Txn α), s.txns[id]? = some t ∧ t.store = n ∧ t.isWriting = true) ∧
      st.stats.writeTxns = st.stats.commits + st.stats.aborts + s.writing n + st.waiting ∧
      st.stats.inserts = total (insertsOf n) {} actions ∧
      st.stats.deletes = total (removesOf n) {} actions) ∧
    ((∀ schema settings, .create schema settings ∈ actions → schema.paths.Nodup) →
      ∀ (id : Nat) (t : Txn α) (w : Write α), s.txns[id]? = some t →
        ∃ t', (s.perform (.write id w)).txns[id]? = some t' ∧
          t.Lost t' w.table (t.removes w)) ∧
    (∀ (id : Nat) (t : Txn α), s.txns[id]? = some t → t.isWriting = true →
      (s.next (s.commit id)).Closed id .commit ∧ (s.next (s.abort id)).Closed id .abort ∧
        (s.drop id).Closed id .abort) ∧
    (∀ (id : Nat) (t : Txn α) (ending : Ending), s.txns[id]? = some t → t.state = .ended ending →
      s.Closed id ending) ∧
    ∀ (id : Nat) (t : Txn α), s.txns[id]? = some t → t.write = false → t.state = .active ∧
      s.commit id = some (.ok [], s) ∧ s.abort id = some (.ok (), s) := by
  intro s
  have hs : s.Sound := Sound.empty.performAll actions
  have hbalanced : s.Balanced := Balanced.empty.performAll Sound.empty actions
  refine ⟨fun n st hst => ?_, fun hnd id t w ht => ?_, fun id t ht hw => ?_,
    fun id t ending ht hended => hs.closed ht hended, fun id t ht hr => ?_⟩
  · have hwork := Sound.empty.work_performAll actions n
    rw [work, stats_eq hst, Prod.mk.injEq] at hwork
    refine ⟨hs.writer_isSome_iff hbalanced hst, ?_, hwork.1.trans ?_, hwork.2.trans ?_⟩
    · rw [hs.writing_eq hbalanced hst]
      exact hbalanced.balances n st hst
    · exact Nat.zero_add _
    · exact Nat.zero_add _
  · rcases hs.txns id t ht with ⟨st, hst, _⟩
    rw [Engine.perform, next_run ht hst]
    exact ⟨_, txns_updateTxn_self ht, (orderly_performAll hnd ht).lost_removes w st.stats⟩
  · rw [next_abort]
    exact ⟨hs.closed_commit ht hw, hs.closed_drop ht hw, hs.closed_drop ht hw⟩
  · have hstate := hbalanced.reading id t ht hr
    have hactive : t.ensureActive = .ok () := Txn.ensureActive_eq_ok_iff.2 hstate
    refine ⟨hstate, ?_, ?_⟩
    · simp [Engine.commit, ht, hactive, hr]
    · simp [Engine.abort, ht, hactive, hr]

end Engine

end SnapStore
