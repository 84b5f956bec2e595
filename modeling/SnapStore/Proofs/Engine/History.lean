import Mathlib.Data.List.Induction
import Mathlib.Logic.Function.Basic
import SnapStore.Proofs.Engine.Sound

/-! # Histories

A chronicle is an engine together with the history of each store and each transaction: the
writes that led to its contents. The histories are there for statements only, the engine
does not look at them.

Main statement: `Chronicle.holds_performAll`. What holds of new contents, and is carried on by
every write that succeeds, holds of all contents at the end of a run.
-/

namespace SnapStore

variable {α : Type}

/-- A write that succeeded, with the contents before and after it. -/
structure Deed (α : Type) where
  write : Write α
  before : Forest α
  after : Forest α

/-- The writes behind some contents, the latest first. -/
abbrev History (α : Type) := List (Deed α)

/-- An engine with the histories of its stores and of its transactions. -/
structure Chronicle (α : Type) where
  engine : Engine α := {}
  kept : Nat → History α := fun _ => []
  seen : Nat → History α := fun _ => []

namespace Chronicle

/-- The history of a transaction after a write, longer if the write succeeds. -/
def noted (a : Chronicle α) (id : Nat) (w : Write α) : History α :=
  match a.engine.txns[id]?, a.engine.run id (TxnM.write w) with
  | some t, some (.ok (), s) =>
    match s.txns[id]? with
    | some t' => ⟨w, t.forest, t'.forest⟩ :: a.seen id
    | none => a.seen id
  | _, _ => a.seen id

/-- The histories of all transactions after one of them was taken back, if it may write and
has not ended. -/
def undone (a : Chronicle α) (id : Nat) : Nat → History α :=
  match a.engine.txns[id]? with
  | some t => if t.isWriting then Function.update a.seen id (a.kept t.store) else a.seen
  | none => a.seen

/-- The histories of all stores after a commit. -/
def published (a : Chronicle α) (id : Nat) : Nat → History α :=
  match a.engine.txns[id]? with
  | some t => if t.isWriting then Function.update a.kept t.store (a.seen id) else a.kept
  | none => a.kept

/-- The chronicle after an action. -/
def perform (a : Chronicle α) (action : Action α) : Chronicle α :=
  let s := a.engine.perform action
  match action with
  | .create _ _ => ⟨s, Function.update a.kept a.engine.stores.length [], a.seen⟩
  | .snapshotStore store =>
    ⟨s, Function.update a.kept a.engine.stores.length (a.kept store), a.seen⟩
  | .openRead store | .acquireWrite store =>
    ⟨s, a.kept, Function.update a.seen a.engine.txns.length (a.kept store)⟩
  | .snapshotTxn id => ⟨s, a.kept, Function.update a.seen a.engine.txns.length (a.seen id)⟩
  | .write id w => ⟨s, a.kept, Function.update a.seen id (a.noted id w)⟩
  | .commit id => ⟨s, a.published id, a.seen⟩
  | .abort id | .drop id => ⟨s, a.kept, a.undone id⟩
  | .requestWrite _ | .query _ _ _ _ _ | .trackChanges _ | .defer _ _ => ⟨s, a.kept, a.seen⟩

/-- The chronicle after a run. -/
def performAll (a : Chronicle α) (actions : List (Action α)) : Chronicle α :=
  actions.foldl perform a

/-- A store or a transaction has these contents, by this history. -/
def Shows (a : Chronicle α) (schema : Schema α) (F : Forest α) (h : History α) : Prop :=
  (∃ n st, a.engine.stores[n]? = some st ∧ st.schema = schema ∧ st.root.get? = F ∧ a.kept n = h) ∨
    ∃ id t, a.engine.txns[id]? = some t ∧ t.schema = schema ∧ t.forest = F ∧ a.seen id = h

/-- After each action of a run, something holds of all contents. -/
def Throughout (actions : List (Action α)) (P : Schema α → Forest α → History α → Prop) : Prop :=
  ∀ run, run <+: actions → ∀ schema F h, (performAll {} run).Shows schema F h → P schema F h

@[simp] theorem engine_perform (a : Chronicle α) (action : Action α) :
    (a.perform action).engine = a.engine.perform action := by
  cases action <;> rfl

@[simp] theorem engine_performAll (a : Chronicle α) (actions : List (Action α)) :
    (a.performAll actions).engine = a.engine.performAll actions := by
  induction actions generalizing a with
  | nil => rfl
  | cons action actions ih => exact (ih (a.perform action)).trans (by rw [engine_perform]; rfl)

end Chronicle

/-! ## Something holds of all contents -/

/-- `R` holds of the contents of all stores and transactions, with the given histories. -/
structure Engine.Bears (s : Engine α) (R : Schema α → Forest α → History α → Prop)
    (kept seen : Nat → History α) : Prop where
  stores : ∀ (n : Nat) (st : Store α), s.stores[n]? = some st → R st.schema st.root.get? (kept n)
  txns : ∀ (id : Nat) (t : Txn α), s.txns[id]? = some t → R t.schema t.forest (seen id)

namespace Engine.Bears

variable {s : Engine α} {R : Schema α → Forest α → History α → Prop} {kept seen : Nat → History α}

theorem withBoard (h : s.Bears R kept seen) (board : Board) :
    Engine.Bears { s with board := board } R kept seen :=
  ⟨h.stores, h.txns⟩

/-- Positions that nobody has yet do not matter. -/
theorem spareStore (h : s.Bears R kept seen) (history : History α) :
    s.Bears R (Function.update kept s.stores.length history) seen := by
  refine ⟨fun n st hst => ?_, h.txns⟩
  have hlt : n < s.stores.length := (List.getElem?_eq_some_iff.1 hst).1
  rw [Function.update_of_ne (Nat.ne_of_lt hlt)]
  exact h.stores n st hst

theorem spareTxn (h : s.Bears R kept seen) (history : History α) :
    s.Bears R kept (Function.update seen s.txns.length history) := by
  refine ⟨h.stores, fun id t ht => ?_⟩
  have hlt : id < s.txns.length := (List.getElem?_eq_some_iff.1 ht).1
  rw [Function.update_of_ne (Nat.ne_of_lt hlt)]
  exact h.txns id t ht

theorem addStore (h : s.Bears R kept seen) {st : Store α} {history : History α}
    (hst : R st.schema st.root.get? history) :
    (s.addStore st).2.Bears R (Function.update kept s.stores.length history) seen := by
  have hspare := h.spareStore history
  refine ⟨fun n st' hn => ?_, h.txns⟩
  rcases getElem?_concat_iff.1 hn with hn | ⟨rfl, rfl⟩
  · exact hspare.stores n st' hn
  · rw [Function.update_self]
    exact hst

theorem addTxn (h : s.Bears R kept seen) {make : Nat → Txn α} {history : History α}
    (hmake : ∀ name, R (make name).schema (make name).forest history) :
    (s.addTxn make).2.Bears R kept (Function.update seen s.txns.length history) := by
  have hspare := h.spareTxn history
  refine ⟨h.stores, fun id t ht => ?_⟩
  rcases getElem?_concat_iff.1 ht with ht | ⟨rfl, rfl⟩
  · exact hspare.txns id t ht
  · rw [Function.update_self]
    exact hmake _

/-- Changes of a store, with a new history for it. -/
theorem updateStore (h : s.Bears R kept seen) (store : Nat) {g : Store α → Store α}
    (history : History α) (hg : ∀ st, s.stores[store]? = some st →
      R (g st).schema (g st).root.get? history) :
    (s.updateStore store g).Bears R (Function.update kept store history) seen := by
  refine ⟨fun n st' hn' => ?_, h.txns⟩
  rcases getElem?_stores_updateStore.1 hn' with ⟨st, hn, rfl⟩
  by_cases hsame : n = store
  · subst hsame
    rw [if_pos rfl, Function.update_self]
    exact hg st hn
  · rw [if_neg hsame, Function.update_of_ne hsame]
    exact h.stores n st hn

/-- Changes of a store other than of its contents. -/
theorem updateStore_aside (h : s.Bears R kept seen) (store : Nat) {g : Store α → Store α}
    (hg : ∀ st : Store α, st.Stays (g st)) :
    (s.updateStore store g).Bears R kept seen := by
  have hsame : Function.update kept store (kept store) = kept := Function.update_eq_self store kept
  rw [← hsame]
  refine h.updateStore store _ fun st hst => ?_
  rw [(hg st).schema, (hg st).root]
  exact h.stores store st hst

/-- Changes of a transaction, with a new history for it. -/
theorem updateTxn (h : s.Bears R kept seen) (id : Nat) {f : Txn α → Txn α} (history : History α)
    (hf : ∀ t, s.txns[id]? = some t → R (f t).schema (f t).forest history) :
    (s.updateTxn id f).Bears R kept (Function.update seen id history) := by
  refine ⟨h.stores, fun n t' ht' => ?_⟩
  rcases getElem?_txns_updateTxn.1 ht' with ⟨t, ht, rfl⟩
  by_cases hsame : n = id
  · subst hsame
    rw [if_pos rfl, Function.update_self]
    exact hf t ht
  · rw [if_neg hsame, Function.update_of_ne hsame]
    exact h.txns n t ht

/-- Changes of a transaction that show in its schema and its trees as nothing. -/
theorem updateTxn_aside (h : s.Bears R kept seen) (id : Nat) {f : Txn α → Txn α}
    (hf : ∀ t, s.txns[id]? = some t → (f t).schema = t.schema ∧ (f t).forest = t.forest) :
    (s.updateTxn id f).Bears R kept seen := by
  have hsame : Function.update seen id (seen id) = seen := Function.update_eq_self id seen
  rw [← hsame]
  refine h.updateTxn id _ fun t ht => ?_
  rcases hf t ht with ⟨hschema, hforest⟩
  rw [hschema, hforest]
  exact h.txns id t ht

/-- Marking a transaction as ended and letting the next writer in. -/
theorem finish (h : s.Bears R kept seen) (id store : Nat) (ending : Ending) :
    (((s.mark id ending).release store).tally store ending).Bears R kept seen := by
  have hmark : (s.mark id ending).Bears R kept seen :=
    h.updateTxn_aside id fun t _ => ⟨rfl, rfl⟩
  have hrelease : ((s.mark id ending).release store).Bears R kept seen :=
    hmark.updateStore_aside store fun st => ⟨rfl, rfl, rfl⟩
  cases ending with
  | commit => exact hrelease.updateStore_aside store fun st => ⟨rfl, rfl, rfl⟩
  | abort => exact hrelease.updateStore_aside store fun st => ⟨rfl, rfl, rfl⟩

end Engine.Bears

/-! ## What an action shows -/

/-- Nothing stands in an index of an empty root. -/
theorem Store.value?_create {schema : Schema α} {settings : Settings} {name : Nat} {st : Store α}
    (h : Store.create schema settings name = .ok st) (table index : String) (key : Key) :
    Forest.value? st.root.get? table index key = none := by
  unfold create at h
  split at h
  · simp at h
  · obtain rfl := Except.ok.inj h
    have hv : Vacant (emptyRoot name schema.paths : Root α) schema.paths :=
      vacant_emptyRoot name schema.paths
    cases htree : (emptyRoot name schema.paths : Root α).get? (indexPath table index) with
    | none => simp [Forest.value?, htree]
    | some tree =>
      rcases hv.empty _ tree htree with ⟨channel, rfl⟩
      simp [Forest.value?, htree]

namespace Engine.Bears

variable {s : Engine α} {a : Chronicle α} {R : Schema α → Forest α → History α → Prop}
  {kept seen : Nat → History α}

theorem snapshotTxn (h : s.Bears R kept seen) (hs : s.Sound) (id : Nat) :
    (s.next (s.snapshotTxn id)).Bears R kept (Function.update seen s.txns.length (seen id)) := by
  unfold Engine.snapshotTxn
  cases ht : s.txns[id]? with
  | none => exact h.spareTxn (seen id)
  | some t =>
    dsimp only
    cases t.ensureActive with
    | error e => exact h.spareTxn (seen id)
    | ok _ =>
      rcases hs.txns id t ht with ⟨st, _, hf⟩
      refine h.addTxn fun name => ?_
      rw [Txn.forest_of_handles rfl]
      dsimp only
      rw [hf.sound.get?_view]
      exact h.txns id t ht

theorem commitOne (h : s.Bears R kept seen) (hs : s.Sound) {id : Nat} {t : Txn α}
    (ht : s.txns[id]? = some t) (hw : t.isWriting = true) :
    (s.commitOne id).Bears R (Function.update kept t.store (seen id)) seen := by
  rcases hs.txns id t ht with ⟨st, hst, hf⟩
  have hget : (t.rootDraft ⟨t.name, 0, 0⟩ t.primary).tree.get? = t.forest :=
    funext (Txn.get?_rootDraft hf.sound ⟨t.name, 0, 0⟩ t.primary).2
  have hseen := h.txns id t ht
  simp only [Engine.commitOne, ht, hw, if_true]
  rw [commitWrites_eq ht, publish_eq ht]
  -- the store gets the contents of the writer together with its history
  have hroot := h.updateStore t.store (seen id)
    (g := fun st => { st with root := (t.rootDraft ⟨t.name, 0, 0⟩ t.primary).tree })
    fun st' hst' => by
      obtain rfl : st = st' := Option.some.inj (hst.symm.trans hst')
      rw [← hf.schema, hget]
      exact hseen
  have htxn := hroot.updateTxn_aside id
    (f := fun t' => { t' with root := (t.rootDraft ⟨t.name, 0, 0⟩ t.primary).tree, handles := [] })
    fun t' ht' => by
      obtain rfl : t = t' := Option.some.inj (ht.symm.trans ht')
      exact ⟨rfl, (Txn.forest_of_handles rfl).trans hget⟩
  exact ((htxn.withBoard _).finish id t.store .commit).updateTxn_aside id fun _ _ => ⟨rfl, rfl⟩

theorem abortWrites (h : s.Bears R kept seen) (hs : s.Sound) {id : Nat} {t : Txn α}
    (ht : s.txns[id]? = some t) (hw : t.isWriting = true) :
    (s.abortWrites id t.store).Bears R kept (Function.update seen id (kept t.store)) := by
  rcases hs.txns id t ht with ⟨st, hst, hf⟩
  have hforgot := h.updateTxn id (kept t.store)
    (f := fun t => { t with handles := [], changes := none, deferred := [] })
    fun t' ht' => by
      obtain rfl : t = t' := Option.some.inj (ht.symm.trans ht')
      -- the writer works on the current root
      rw [Txn.forest_of_handles rfl]
      dsimp only
      rw [hf.schema, (hf.writes hw).2]
      exact h.stores t.store st hst
  exact hforgot.finish id t.store .abort

theorem drop (h : a.engine.Bears R a.kept a.seen) (hs : a.engine.Sound) (id : Nat) :
    (a.engine.drop id).Bears R a.kept (a.undone id) := by
  cases ht : a.engine.txns[id]? with
  | none =>
    rw [drop_of_none ht, Chronicle.undone, ht]
    exact h
  | some t =>
    rw [drop_of_some ht, Chronicle.undone, ht]
    dsimp only
    split
    · exact h.abortWrites hs ht ‹_›
    · exact h

end Engine.Bears

namespace Chronicle

variable {a : Chronicle α} {R : Schema α → Forest α → History α → Prop}

/-- A write that succeeds is the latest one in the history of its transaction. -/
theorem shows_write {id : Nat} {w : Write α} {t t' : Txn α} {st : Store α} {stats : Stats}
    (ht : a.engine.txns[id]? = some t) (hst : a.engine.stores[t.store]? = some st)
    (hrun : (TxnM.write w).run ⟨t, st.stats⟩ = .ok () ⟨t', stats⟩) :
    a.noted id w = ⟨w, t.forest, t'.forest⟩ :: a.seen id ∧
      (a.perform (.write id w)).Shows t'.schema t'.forest
        (⟨w, t.forest, t'.forest⟩ :: a.seen id) := by
  have hafter := Engine.txns_updateTxn_self (f := fun _ => t') ht
  have hnoted : a.noted id w = ⟨w, t.forest, t'.forest⟩ :: a.seen id := by
    simp only [noted, Engine.run, ht, hst, hrun]
    simp only [Engine.updateStore, hafter]
  refine ⟨hnoted, .inr ⟨id, t', ?_, rfl, rfl, ?_⟩⟩
  · rw [engine_perform, Engine.perform, Engine.next_run ht hst, TxnM.leaves, hrun]
    exact hafter
  · rw [← hnoted]
    exact Function.update_self id _ a.seen

/-- A write carries on what holds of all contents if it does so for its transaction. -/
theorem bears_write (h : a.engine.Bears R a.kept a.seen) (hs : a.engine.Sound) (id : Nat)
    (w : Write α)
    (hwrite : ∀ t stats, a.engine.txns[id]? = some t →
      (∃ e stats', (TxnM.write w).run ⟨t, stats⟩ = .error e ⟨t, stats'⟩) ∨
        ∃ t' stats', (TxnM.write w).run ⟨t, stats⟩ = .ok () ⟨t', stats'⟩ ∧
          ((a.perform (.write id w)).Shows t'.schema t'.forest
              (⟨w, t.forest, t'.forest⟩ :: a.seen id) →
            R t'.schema t'.forest (⟨w, t.forest, t'.forest⟩ :: a.seen id))) :
    (a.perform (.write id w)).engine.Bears R (a.perform (.write id w)).kept
      (a.perform (.write id w)).seen := by
  change (a.engine.next (a.engine.run id (TxnM.write w))).Bears R a.kept
    (Function.update a.seen id (a.noted id w))
  cases ht : a.engine.txns[id]? with
  | none =>
    have hnoted : a.noted id w = a.seen id := by simp only [noted, ht]
    rw [Engine.next_run_none ht, hnoted, Function.update_eq_self]
    exact h
  | some t =>
    rcases hs.txns id t ht with ⟨st, hst, _⟩
    rw [Engine.next_run ht hst]
    refine Engine.Bears.updateStore_aside ?_ t.store fun st => ⟨rfl, rfl, rfl⟩
    refine h.updateTxn id _ fun t₁ ht₁ => ?_
    obtain rfl : t = t₁ := Option.some.inj (ht.symm.trans ht₁)
    rcases hwrite t st.stats ht with ⟨e, stats', hrun⟩ | ⟨t', stats', hrun, hR⟩
    · have hnoted : a.noted id w = a.seen id := by
        simp only [noted, Engine.run, ht, hst, hrun]
      rw [TxnM.leaves, hrun, hnoted]
      exact h.txns id t ht
    · rcases shows_write ht hst hrun with ⟨hnoted, hshows⟩
      rw [TxnM.leaves, hrun, hnoted]
      exact hR hshows

/-- Every other action carries on what holds of all contents, if it holds of new stores. -/
theorem bears_perform (h : a.engine.Bears R a.kept a.seen) (hs : a.engine.Sound)
    (action : Action α)
    (hcreate : ∀ schema settings name st, action = .create schema settings →
      Store.create schema settings name = .ok st → R st.schema st.root.get? [])
    (hwrite : ∀ id w, action = .write id w → ∀ t stats, a.engine.txns[id]? = some t →
      (∃ e stats', (TxnM.write w).run ⟨t, stats⟩ = .error e ⟨t, stats'⟩) ∨
        ∃ t' stats', (TxnM.write w).run ⟨t, stats⟩ = .ok () ⟨t', stats'⟩ ∧
          ((a.perform action).Shows t'.schema t'.forest
              (⟨w, t.forest, t'.forest⟩ :: a.seen id) →
            R t'.schema t'.forest (⟨w, t.forest, t'.forest⟩ :: a.seen id))) :
    (a.perform action).engine.Bears R (a.perform action).kept (a.perform action).seen := by
  cases action with
  | create schema settings =>
    simp only [perform, Engine.perform, Engine.create]
    cases hst : Store.create schema settings a.engine.board.newName.1 with
    | error e => exact h.spareStore []
    | ok st =>
      have hnew := hcreate schema settings _ st rfl hst
      exact (h.withBoard a.engine.board.newName.2).addStore hnew
  | snapshotStore store =>
    simp only [perform, Engine.perform, Engine.snapshotStore]
    cases hst : a.engine.stores[store]? with
    | none => exact h.spareStore _
    | some st =>
      have hview : R st.snapshot.schema st.snapshot.root.get? (a.kept store) :=
        h.stores store st hst
      exact h.addStore hview
  | openRead store =>
    simp only [perform, Engine.perform, Engine.openRead]
    cases hst : a.engine.stores[store]? with
    | none => exact h.spareTxn _
    | some st =>
      have hcount := h.updateStore_aside store
        (g := fun st => { st with stats := { st.stats with readTxns := st.stats.readTxns + 1 } })
        fun _ => ⟨rfl, rfl, rfl⟩
      refine hcount.addTxn fun name => ?_
      rw [Txn.forest_of_handles rfl]
      exact h.stores store st hst
  | requestWrite store => exact h.updateStore_aside store fun _ => ⟨rfl, rfl, rfl⟩
  | acquireWrite store =>
    simp only [perform, Engine.perform, Engine.acquireWrite]
    cases hst : a.engine.stores[store]? with
    | none => exact h.spareTxn _
    | some st =>
      dsimp only
      split
      · exact h.spareTxn _
      · have hturn := h.updateStore_aside store (g := fun st =>
          { st with writer := some a.engine.txns.length, waiting := st.waiting - 1 })
          fun _ => ⟨rfl, rfl, rfl⟩
        refine hturn.addTxn fun name => ?_
        rw [Txn.forest_of_handles rfl]
        exact h.stores store st hst
  | snapshotTxn id => exact h.snapshotTxn hs id
  | write id w => exact bears_write h hs id w (hwrite id w rfl)
  | query id scan table index args =>
    simp only [perform, Engine.perform]
    cases ht : a.engine.txns[id]? with
    | none =>
      rw [Engine.next_run_none ht]
      exact h
    | some t =>
      rcases hs.txns id t ht with ⟨st, hst, _⟩
      rw [Engine.next_run ht hst]
      refine Engine.Bears.updateStore_aside ?_ t.store fun st => ⟨rfl, rfl, rfl⟩
      refine h.updateTxn_aside id fun t' ht' => ?_
      obtain rfl : t = t' := Option.some.inj (ht.symm.trans ht')
      rw [scan.leaves_txn]
      exact ⟨rfl, rfl⟩
  | trackChanges id => exact h.updateTxn_aside id fun _ _ => ⟨rfl, rfl⟩
  | defer id job => exact h.updateTxn_aside id fun _ _ => ⟨rfl, rfl⟩
  | commit id =>
    simp only [perform, Engine.perform, published]
    cases ht : a.engine.txns[id]? with
    | none =>
      rw [Engine.commitOne, ht]
      exact h
    | some t =>
      dsimp only
      split
      · exact h.commitOne hs ht ‹_›
      · rename_i hw
        rw [Engine.commitOne, ht]
        simp only [hw]
        exact h
  | abort id =>
    have hdrop := h.drop hs id
    rw [← Engine.next_abort] at hdrop
    exact hdrop
  | drop id => exact h.drop hs id

end Chronicle

/-! ## Whole runs -/

/-- What all contents keep to where the paths of all indexes differ. -/
structure Forest.Tidy (F : Forest α) (s : Schema α) : Prop where
  nodup : s.paths.Nodup
  consistent : ∀ table ts, s.table? table = some ts → F.Consistent table ts

theorem Forest.Tidy.orderly {t : Txn α} (h : t.forest.Tidy t.schema) (hs : t.Sound)
    (hv : t.schema.validate = .ok ()) : t.Orderly :=
  ⟨hs, hv, h.nodup, h.consistent⟩

theorem Txn.Orderly.tidy {t : Txn α} (h : t.Orderly) : t.forest.Tidy t.schema :=
  ⟨h.nodup, h.consistent⟩

/-- Where no index holds anything, nothing is out of order. -/
theorem Forest.tidy_empty {F : Forest α} {s : Schema α} (hnd : s.paths.Nodup)
    (hF : ∀ table index key, F.value? table index key = none) : F.Tidy s := by
  refine ⟨hnd, fun table ts _ => ⟨fun p o hp => ?_, fun p o hp => ?_, fun name i _ k o hk => ?_⟩⟩
  · rw [hF] at hp
    cases hp
  · rw [hF] at hp
    cases hp
  · rw [hF] at hk
    cases hk

namespace Chronicle

theorem performAll_concat (a : Chronicle α) (actions : List (Action α)) (action : Action α) :
    a.performAll (actions ++ [action]) = (a.performAll actions).perform action :=
  List.foldl_append

theorem Shows.of_bears {a : Chronicle α} {R : Schema α → Forest α → History α → Prop}
    (hb : a.engine.Bears R a.kept a.seen) {schema : Schema α} {F : Forest α} {h : History α}
    (hshows : a.Shows schema F h) : R schema F h := by
  rcases hshows with ⟨n, st, hst, rfl, rfl, rfl⟩ | ⟨id, t, ht, rfl, rfl, rfl⟩
  · exact hb.stores n st hst
  · exact hb.txns id t ht

theorem sound_performAll (actions : List (Action α)) :
    (performAll {} actions : Chronicle α).engine.Sound := by
  rw [engine_performAll]
  exact Engine.Sound.empty.performAll actions

/-- Contents have an accepted schema. -/
theorem Shows.valid {actions : List (Action α)} {schema : Schema α} {F : Forest α} {h : History α}
    (hshows : (performAll {} actions).Shows schema F h) : schema.validate = .ok () := by
  have hs := sound_performAll actions
  rcases hshows with ⟨n, st, hst, rfl, _, _⟩ | ⟨id, t, ht, rfl, _, _⟩
  · exact (hs.stores n st hst).valid
  · rcases hs.txns id t ht with ⟨st, hst, hf⟩
    exact hf.schema ▸ (hs.stores t.store st hst).valid

/-- The trees of contents are in order. -/
theorem Shows.wf {actions : List (Action α)} {schema : Schema α} {F : Forest α} {h : History α}
    (hshows : (performAll {} actions).Shows schema F h) : F.Wf schema := by
  have hs := sound_performAll actions
  rcases hshows with ⟨n, st, hst, rfl, rfl, _⟩ | ⟨id, t, ht, rfl, rfl, _⟩
  · exact (hs.stores n st hst).trees
  · rcases hs.txns id t ht with ⟨st, _, hf⟩
    exact hf.sound.wf_forest

/-- Let `P` hold of all contents throughout a run. What holds of new contents, and is carried
on by every write that succeeds, holds of all contents in the end. -/
theorem holds_performAll {actions : List (Action α)} {P R : Schema α → Forest α → History α → Prop}
    (hnd : ∀ schema settings, .create schema settings ∈ actions → schema.paths.Nodup)
    (hP : Throughout actions P)
    (hempty : ∀ schema settings F, .create schema settings ∈ actions →
      (∀ table index key, F.value? table index key = none) → R schema F [])
    (hwrite : ∀ id (t t' : Txn α) w h, .write id w ∈ actions → t.Orderly → t.Written t' w →
      P t.schema t.forest h → P t'.schema t'.forest (⟨w, t.forest, t'.forest⟩ :: h) →
      R t.schema t.forest h → R t'.schema t'.forest (⟨w, t.forest, t'.forest⟩ :: h)) :
    (performAll {} actions).engine.Bears (fun schema F h => F.Tidy schema ∧ R schema F h)
      (performAll {} actions).kept (performAll {} actions).seen := by
  -- induction on the run from its end: the last action finds what holds after all others
  induction actions using List.reverseRecOn with
  | nil => exact ⟨fun _ _ hst => (nomatch hst), fun _ _ ht => (nomatch ht)⟩
  | append_singleton actions action ih =>
    have hleft {x : Action α} (hx : x ∈ actions) : x ∈ actions ++ [action] :=
      List.mem_append_left _ hx
    have hbefore := ih (fun schema settings hmem => hnd schema settings (hleft hmem))
      (fun run hrun => hP run (hrun.trans (List.prefix_append _ _)))
      (fun schema settings F hmem => hempty schema settings F (hleft hmem))
      fun id t t' w h hmem => hwrite id t t' w h (hleft hmem)
    have hs := sound_performAll actions
    have hPbefore := hP actions (List.prefix_append _ _)
    have hPafter := hP (actions ++ [action]) (List.prefix_refl _)
    rw [performAll_concat] at hPafter ⊢
    refine bears_perform hbefore hs action ?_ ?_
    · -- a new store
      intro schema settings name st heq hst
      have hnone := Store.value?_create hst
      have hschema : st.schema = schema := by
        unfold Store.create at hst
        split at hst
        · cases hst
        · exact (congrArg Store.schema (Except.ok.inj hst)).symm
      have hmem : .create schema settings ∈ actions ++ [action] :=
        List.mem_append_right _ (by simp [heq])
      rw [hschema]
      exact ⟨Forest.tidy_empty (hnd schema settings hmem) hnone,
        hempty schema settings _ hmem hnone⟩
    · -- a write
      rintro id w rfl t stats ht
      rcases hs.txns id t ht with ⟨st, hst, hf⟩
      rcases hbefore.txns id t ht with ⟨htidy, hR⟩
      have hvalid : t.schema.validate = .ok () := hf.schema ▸ (hs.stores t.store st hst).valid
      have horderly := htidy.orderly hf.sound hvalid
      rcases TxnM.run_write horderly w stats with
        ⟨e, _, hrun⟩ | ⟨t', stats', _, hwritten, hrun⟩
      · exact .inl ⟨e, stats, hrun⟩
      · refine .inr ⟨t', stats', hrun, fun hshows => ⟨(horderly.written hwritten).tidy, ?_⟩⟩
        have hPt := hPbefore t.schema t.forest _ (.inr ⟨id, t, ht, rfl, rfl, rfl⟩)
        have hmem : .write id w ∈ actions ++ [.write id w] := by simp
        exact hwrite id t t' w _ hmem horderly hwritten hPt (hPafter _ _ _ hshows) hR

end Chronicle

/-- Contents are in order. -/
theorem Chronicle.Shows.tidy {actions : List (Action α)}
    (hnd : ∀ schema settings, .create schema settings ∈ actions → schema.paths.Nodup)
    {schema : Schema α} {F : Forest α} {h : History α}
    (hshows : (Chronicle.performAll {} actions).Shows schema F h) : F.Tidy schema := by
  have hbears := holds_performAll (P := fun _ _ _ => True) (R := fun _ _ _ => True) hnd
    (fun _ _ _ _ _ _ => trivial) (fun _ _ _ _ _ => trivial)
    fun _ _ _ _ _ _ _ _ _ _ _ => trivial
  exact (hshows.of_bears hbears).1

/-! ## Where contents come from -/

/-- Contents come from a store that the run created, by writes of the run. -/
theorem Chronicle.Shows.recorded {actions : List (Action α)}
    (hnd : ∀ schema settings, .create schema settings ∈ actions → schema.paths.Nodup)
    {schema : Schema α} {F : Forest α} {h : History α}
    (hshows : (Chronicle.performAll {} actions).Shows schema F h) :
    (∃ settings, .create schema settings ∈ actions) ∧
      ∀ d ∈ h, ∃ id, .write id d.write ∈ actions := by
  have hbears := holds_performAll (P := fun _ _ _ => True)
    (R := fun schema _ h => (∃ settings, .create schema settings ∈ actions) ∧
      ∀ d ∈ h, ∃ id, .write id d.write ∈ actions)
    hnd (fun _ _ _ _ _ _ => trivial)
    (fun schema settings F hmem _ => ⟨⟨settings, hmem⟩, by simp⟩)
    (by
      intro id t t' w h hmem _ hwritten _ _ ⟨hcreate, hdeeds⟩
      rw [hwritten.evolves.schema_eq]
      refine ⟨hcreate, fun d hd => ?_⟩
      rcases List.mem_cons.1 hd with rfl | hd
      · exact ⟨id, hmem⟩
      · exact hdeeds d hd)
  exact (hshows.of_bears hbears).2

/-- The history leads from nothing to these contents, one write after another. -/
inductive History.Leads (s : Schema α) : History α → Forest α → Prop
  | nil {F : Forest α} (hF : ∀ table index key, F.value? table index key = none) : Leads s [] F
  | cons {h : History α} {t t' : Txn α} {w : Write α} (hs : t.schema = s) (ho : t.Orderly)
      (hw : t.Written t' w) (hl : Leads s h t.forest) :
      Leads s (⟨w, t.forest, t'.forest⟩ :: h) t'.forest

/-- All contents come about by their histories. -/
theorem Chronicle.Shows.leads {actions : List (Action α)}
    (hnd : ∀ schema settings, .create schema settings ∈ actions → schema.paths.Nodup)
    {schema : Schema α} {F : Forest α} {h : History α}
    (hshows : (Chronicle.performAll {} actions).Shows schema F h) : History.Leads schema h F := by
  have hbears := holds_performAll (P := fun _ _ _ => True)
    (R := fun schema F h => History.Leads schema h F) hnd (fun _ _ _ _ _ _ => trivial)
    (fun _ _ _ _ hF => .nil hF)
    (by
      intro id t t' w h _ horderly hwritten _ _ hl
      rw [hwritten.evolves.schema_eq]
      exact .cons rfl horderly hwritten hl)
  exact (hshows.of_bears hbears).2

/-- Whatever is stored was inserted. -/
theorem History.Leads.exists_insert {s : Schema α} {h : History α} {F : Forest α}
    (hl : Leads s h F) {table : String} {ts : TableSchema α} (ht : s.table? table = some ts)
    {p : Key} {o : α} (hp : F.value? table primaryName p = some o) :
    ∃ d ∈ h, d.write = .insert table o := by
  induction hl with
  | nil hF =>
    rw [hF] at hp
    cases hp
  | @cons h t t' w hs ho hw hl ih =>
    rw [← hs] at ht
    have hearlier (hold : t.forest.value? table primaryName p = some o) :
        ∃ d ∈ ⟨w, t.forest, t'.forest⟩ :: h, d.write = .insert table o := by
      rcases ih hold with ⟨d, hd, hdw⟩
      exact ⟨d, List.mem_cons_of_mem _ hd, hdw⟩
    rcases hw.cases_table ht with ⟨p', o', rfl, hp', htakes⟩ | ⟨gone, hgone, hloses⟩ | hsame
    · rw [htakes.value?_primary ho ht hp'] at hp
      split at hp
      · -- the object is the new one
        obtain rfl : o' = o := Option.some.inj hp
        exact ⟨_, List.mem_cons_self, rfl⟩
      · exact hearlier hp
    · -- a removal adds nothing
      exact hearlier ((hloses.value?_primary ho ht hgone p o).1 hp).1
    · rcases ho.exists_id ht with ⟨id, hid⟩
      rw [hsame primaryName id (TableSchema.mem_primary hid)] at hp
      exact hearlier hp

end SnapStore
