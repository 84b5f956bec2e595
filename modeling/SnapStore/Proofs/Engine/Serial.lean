import Mathlib.Data.List.Induction
import Mathlib.Logic.Function.Basic
import SnapStore.Proofs.Transaction.Alike
import SnapStore.Proofs.Engine.Step
import SnapStore.Proofs.Engine.Wakeup
import SnapStore.Sample.Page

/-! # Writers one after another

Participants take their steps in any order, but each store looks as if its committed write
transactions had been made one after another, each alone from its start to its commit, in the
order of their commits. Aborted and dropped ones leave nothing. Whoever reads, reads from one
state of this sequence.

A schedule is an engine with a record of what each writer wrote and of who committed. The
record is there for statements only, the engine does not look at it.

Main statements: `Recorded.perform` (what one step keeps of the record) and
`serial_and_isolated`.
-/

namespace SnapStore

variable {α : Type}

/-- What a write transaction did: the name under which it made channels, and its writes in
order, also those that failed. -/
structure Work (α : Type) where
  name : Nat
  writes : List (Write α)

namespace Store

/-- The store after a write transaction that nobody else was around of: it is opened, makes its
writes, and is committed. -/
def serve (st : Store α) (work : Work α) : Store α :=
  { st with root := ((st.newWriter 0 work.name).does work.writes).published }

/-- The store after write transactions, one after another. -/
def serveAll (st : Store α) (works : List (Work α)) : Store α :=
  works.foldl serve st

theorem serveAll_concat (st : Store α) (works : List (Work α)) (work : Work α) :
    st.serveAll (works ++ [work]) = (st.serveAll works).serve work :=
  List.foldl_append

theorem serveAll_schema (st : Store α) (works : List (Work α)) :
    (st.serveAll works).schema = st.schema := by
  induction works using List.reverseRecOn with
  | nil => rfl
  | append_singleton works work ih => rw [serveAll_concat, serve, ih]

/-- New writers over the same contents look alike. -/
theorem Stays.alike_newWriter {st st' : Store α} (h : st.Stays st') (id id' name : Nat) :
    (st.newWriter id name).Alike (st'.newWriter id' name) := by
  refine ⟨id', (st'.newWriter id' name).changes, [], ?_⟩
  simp only [newWriter, reader, h.schema, h.primary, h.root]

end Store

/-! ## Schedules -/

/-- An engine with a record: for each store how it was when it was made, and the work of its
committed write transactions in the order of their commits; for each transaction the writes
it has made. -/
structure Schedule (α : Type) where
  engine : Engine α := {}
  origin : Nat → Option (Store α) := fun _ => none
  commits : Nat → List (Work α) := fun _ => []
  writes : Nat → List (Write α) := fun _ => []

namespace Schedule

/-- The commits of all stores after a commit. -/
def committed (a : Schedule α) (id : Nat) : Nat → List (Work α) :=
  match a.engine.txns[id]? with
  | some t =>
    if t.isWriting then
      Function.update a.commits t.store (a.commits t.store ++ [⟨t.name, a.writes id⟩])
    else a.commits
  | none => a.commits

/-- The schedule after an action. -/
def perform (a : Schedule α) (action : Action α) : Schedule α :=
  let s := a.engine.perform action
  let new := a.engine.stores.length
  match action with
  | .create _ _ | .snapshotStore _ =>
    ⟨s, Function.update a.origin new s.stores[new]?, Function.update a.commits new [], a.writes⟩
  | .acquireWrite _ =>
    ⟨s, a.origin, a.commits, Function.update a.writes a.engine.txns.length []⟩
  | .write id w => ⟨s, a.origin, a.commits, Function.update a.writes id (a.writes id ++ [w])⟩
  | .commit id => ⟨s, a.origin, a.committed id, a.writes⟩
  | .openRead _ | .requestWrite _ | .snapshotTxn _ | .query _ _ _ _ _ | .trackChanges _
  | .defer _ _ | .abort _ | .drop _ => ⟨s, a.origin, a.commits, a.writes⟩

/-- The schedule after a run. -/
def performAll (a : Schedule α) (actions : List (Action α)) : Schedule α :=
  actions.foldl perform a

variable {a : Schedule α} {action : Action α} {id n : Nat} {t : Txn α}

@[simp] theorem engine_perform (a : Schedule α) (action : Action α) :
    (a.perform action).engine = a.engine.perform action := by
  cases action <;> rfl

@[simp] theorem engine_performAll (a : Schedule α) (actions : List (Action α)) :
    (a.performAll actions).engine = a.engine.performAll actions := by
  induction actions generalizing a with
  | nil => rfl
  | cons action actions ih => exact (ih (a.perform action)).trans (by rw [engine_perform]; rfl)

/-! ## The record, step by step -/

/-- A new store starts with nothing committed. -/
theorem record_new (hnew : (∃ schema settings, action = .create schema settings) ∨
      ∃ store, action = .snapshotStore store) :
    (a.perform action).origin a.engine.stores.length =
        (a.perform action).engine.stores[a.engine.stores.length]? ∧
      (a.perform action).commits a.engine.stores.length = [] := by
  rcases hnew with ⟨schema, settings, rfl⟩ | ⟨store, rfl⟩
  · exact ⟨Function.update_self _ _ _, Function.update_self _ _ _⟩
  · exact ⟨Function.update_self _ _ _, Function.update_self _ _ _⟩

theorem origin_perform (hn : n < a.engine.stores.length) :
    (a.perform action).origin n = a.origin n := by
  have hne : n ≠ a.engine.stores.length := Nat.ne_of_lt hn
  cases action with
  | create schema settings => exact Function.update_of_ne hne _ _
  | snapshotStore store => exact Function.update_of_ne hne _ _
  | _ => rfl

/-- Without a commit in a store its record stays. -/
theorem commits_of_stays (hn : n < a.engine.stores.length)
    (hno : ∀ id t, a.engine.Commits action id t → t.store ≠ n) :
    (a.perform action).commits n = a.commits n := by
  have hne : n ≠ a.engine.stores.length := Nat.ne_of_lt hn
  cases action with
  | create schema settings => exact Function.update_of_ne hne _ _
  | snapshotStore store => exact Function.update_of_ne hne _ _
  | commit id =>
    change a.committed id n = a.commits n
    rw [committed]
    cases ht : a.engine.txns[id]? with
    | none => rfl
    | some t =>
      dsimp only
      split
      · rename_i hw
        exact Function.update_of_ne (Ne.symm (hno id t ⟨rfl, ht, hw⟩)) _ _
      · rfl
  | _ => rfl

/-- A commit adds the work of its transaction. -/
theorem commits_of_commits (hc : a.engine.Commits action id t) :
    (a.perform action).commits t.store = a.commits t.store ++ [⟨t.name, a.writes id⟩] := by
  rcases hc with ⟨rfl, ht, hw⟩
  change a.committed id t.store = _
  rw [committed, ht]
  dsimp only
  rw [if_pos hw, Function.update_self]

theorem writes_of_stays (hid : id < a.engine.txns.length) (hwrite : ∀ w, action ≠ .write id w) :
    (a.perform action).writes id = a.writes id := by
  cases action with
  | acquireWrite store => exact Function.update_of_ne (Nat.ne_of_lt hid) _ _
  | write id' w =>
    refine Function.update_of_ne ?_ _ _
    rintro rfl
    exact hwrite w rfl
  | _ => rfl

end Schedule

/-! ## What the record says -/

/-- The record tells the contents: those of each store come from its first ones by the work of
the committed transactions, and what a writer sees comes from the current ones by its own
writes. -/
structure Schedule.Recorded (a : Schedule α) : Prop where
  stores : ∀ (n : Nat) (st : Store α), a.engine.stores[n]? = some st →
    ∃ st₀, a.origin n = some st₀ ∧ (st₀.serveAll (a.commits n)).Stays st
  writers : ∀ (id : Nat) (t : Txn α) (st : Store α), a.engine.txns[id]? = some t →
    a.engine.stores[t.store]? = some st → t.isWriting = true →
    ((st.newWriter 0 t.name).does (a.writes id)).Alike t

namespace Schedule.Recorded

variable {a : Schedule α}

/-- The same writes over the same contents publish the same root. -/
theorem serve_root (h : a.Recorded) {id : Nat} {t : Txn α} {st st₀ : Store α}
    (ht : a.engine.txns[id]? = some t) (hst : a.engine.stores[t.store]? = some st)
    (hw : t.isWriting = true) (hstays : st₀.Stays st) :
    (st₀.serve ⟨t.name, a.writes id⟩).root = t.published := by
  have hsame := ((hstays.alike_newWriter 0 0 t.name).does (a.writes id)).trans
    (h.writers id t st ht hst hw)
  exact hsame.published_eq.symm

theorem stores_perform (h : a.Recorded) (hs : a.engine.Sound) (action : Action α) (n : Nat)
    (st' : Store α) (hst' : (a.perform action).engine.stores[n]? = some st') :
    ∃ st₀, (a.perform action).origin n = some st₀ ∧
      (st₀.serveAll ((a.perform action).commits n)).Stays st' := by
  have hlt {st : Store α} (hst : a.engine.stores[n]? = some st) : n < a.engine.stores.length :=
    (List.getElem?_eq_some_iff.1 hst).1
  have hstep := hst'
  rw [engine_perform] at hstep
  cases hs.storeStep hstep with
  | created ha hn _ =>
    subst hn
    rcases record_new (a := a) (.inl ⟨_, _, ha⟩) with ⟨horigin, hcommits⟩
    rw [horigin, hcommits, hst']
    exact ⟨st', rfl, .refl st'⟩
  | copied ha hn _ _ =>
    subst hn
    rcases record_new (a := a) (.inr ⟨_, ha⟩) with ⟨horigin, hcommits⟩
    rw [horigin, hcommits, hst']
    exact ⟨st', rfl, .refl st'⟩
  | stays hst hstays hno =>
    rcases h.stores n _ hst with ⟨st₀, horigin, hserve⟩
    rw [origin_perform (hlt hst), commits_of_stays (hlt hst) hno]
    exact ⟨st₀, horigin, hserve.trans hstays⟩
  | published hst hc hstore hschema hprimary hroot =>
    rename_i st id t
    subst hstore
    rcases h.stores t.store st hst with ⟨st₀, horigin, hserve⟩
    refine ⟨st₀, (origin_perform (hlt hst)).trans horigin, ?_⟩
    rw [commits_of_commits hc, Store.serveAll_concat]
    refine ⟨hschema.trans hserve.schema, hprimary.trans hserve.primary, hroot.trans ?_⟩
    exact (h.serve_root hc.txn hst hc.writing hserve).symm

theorem writers_perform (h : a.Recorded) (hs : a.engine.Sound) (action : Action α) (id : Nat)
    (t' : Txn α) (st' : Store α) (ht' : (a.perform action).engine.txns[id]? = some t')
    (hst' : (a.perform action).engine.stores[t'.store]? = some st') (hw' : t'.isWriting = true) :
    ((st'.newWriter 0 t'.name).does ((a.perform action).writes id)).Alike t' := by
  rw [engine_perform] at ht' hst'
  cases hs.txnStep ht' with
  | reader _ _ _ heq =>
    subst heq
    cases hw'
  | writer ha hid hst heq =>
    -- nothing is written yet, and the contents are those it was opened on
    rename_i n name st
    subst ha hid heq
    have hnone : (a.perform (.acquireWrite n)).writes a.engine.txns.length = [] :=
      Function.update_self _ _ _
    rw [hnone]
    have hlt : n < a.engine.stores.length := (List.getElem?_eq_some_iff.1 hst).1
    cases hs.storeStep hst' with
    | stays hst₁ hstays _ =>
      obtain rfl := Option.some.inj (hst.symm.trans hst₁)
      exact (hstays.alike_newWriter n 0 name).symm
    | created ha _ _ => cases ha
    | copied ha _ _ _ => cases ha
    | published _ hc _ _ _ _ => cases hc.action
  | snapshot _ _ _ _ hviews =>
    rw [Txn.isWriting, hviews.write] at hw'
    cases hw'
  | wrote ha ht hst heq =>
    rename_i w t st
    subst ha
    have hframe := TxnM.keeps_write w ⟨t, st.stats⟩
    rcases hframe.frame with ⟨handles, changes, hleaves⟩
    have hstore : t'.store = t.store := by rw [heq, hleaves]
    have hname : t'.name = t.name := by rw [heq, hleaves]
    have hw : t.isWriting = true := by
      rw [heq, hleaves] at hw'
      exact hw'
    rw [hstore] at hst'
    have hcommit : ¬ a.engine.Commits (.write id w) id t := fun hc => by cases hc.action
    rcases hs.stays_of_writing ht hw hcommit hst' with ⟨st₁, hst₁, hstays⟩
    have hbefore := ((hstays.alike_newWriter 0 0 t.name).does (a.writes id)).symm.trans
      (h.writers id t st₁ ht hst₁ hw)
    have hwrites : (a.perform (.write id w)).writes id = a.writes id ++ [w] :=
      Function.update_self _ _ _
    rw [hwrites, hname, Txn.does_concat, heq]
    exact hbefore.write w {} st.stats
  | stays ht heq hwrite hcommit =>
    rename_i t changes deferred
    subst heq
    have hlt : id < a.engine.txns.length := (List.getElem?_eq_some_iff.1 ht).1
    rcases hs.stays_of_writing ht hw' hcommit hst' with ⟨st, hst, hstays⟩
    rw [writes_of_stays hlt hwrite]
    have hbefore := ((hstays.alike_newWriter 0 0 t.name).does (a.writes id)).symm.trans
      (h.writers id t st ht hst hw')
    exact hbefore.trans ⟨t.store, changes, deferred, rfl⟩
  | ended _ _ hended =>
    rw [Txn.isWriting, hended] at hw'
    simp at hw'

/-- Every action keeps the record in line with the contents. -/
theorem perform (h : a.Recorded) (hs : a.engine.Sound) (action : Action α) :
    (a.perform action).Recorded :=
  ⟨h.stores_perform hs action, h.writers_perform hs action⟩

theorem performAll (h : a.Recorded) (hs : a.engine.Sound) (actions : List (Action α)) :
    (a.performAll actions).Recorded := by
  induction actions generalizing a with
  | nil => exact h
  | cons action actions ih =>
    refine ih (h.perform hs action) ?_
    rw [engine_perform]
    exact hs.perform action

theorem empty : ({} : Schedule α).Recorded :=
  ⟨fun _ _ hst => (nomatch hst), fun _ _ _ ht => (nomatch ht)⟩

end Schedule.Recorded

/-! ## Readers and snapshots -/

namespace Engine.Sound

variable {s : Engine α}

/-- A read transaction is answered over what it saw when it was opened, whatever happens. -/
theorem ask_performAll (h : s.Sound) {id : Nat} {t : Txn α} (ht : s.txns[id]? = some t)
    (hread : t.write = false) (hactive : t.state = .active) (actions : List (Action α))
    (scan : Scan) (table index : String) (args : List Arg) :
    (s.performAll actions).ask id scan table index args =
      some (scan.within t.schema t.forest table index args) := by
  rcases (h.extends_performAll actions).reads id t ht hread with ⟨changes, deferred, ht'⟩
  exact (h.performAll actions).ask_eq ht' hactive scan table index args

/-- A reader goes on to answer as at the moment it was opened. -/
theorem ask_openRead (h : s.Sound) {store : Nat} {st : Store α} (hst : s.stores[store]? = some st)
    (after : List (Action α)) (scan : Scan) (table index : String) (args : List Arg) :
    (s.performAll (.openRead store :: after)).ask s.txns.length scan table index args =
      s.askNow store scan table index args := by
  have hopened := h.perform (.openRead store)
  rw [performAll_cons, hopened.ask_performAll (openRead_eq hst).2 rfl rfl, h.askNow_eq hst]
  rfl

/-- A snapshot of a transaction goes on to answer as the transaction did. -/
theorem ask_snapshotTxn (h : s.Sound) {id : Nat} {t : Txn α} (ht : s.txns[id]? = some t)
    (hactive : t.state = .active) (after : List (Action α)) (scan : Scan) (table index : String)
    (args : List Arg) :
    (s.performAll (.snapshotTxn id :: after)).ask s.txns.length scan table index args =
      s.ask id scan table index args := by
  rcases h.snapshotTxn_views ht hactive with ⟨t', ht', hviews⟩
  have htaken := h.perform (.snapshotTxn id)
  have hforest : t'.forest = t.forest := (Txn.forest_of_handles hviews.handles).trans hviews.root
  rw [performAll_cons, htaken.ask_performAll ht' hviews.write hviews.state,
    h.ask_eq ht hactive, hviews.schema, hforest]

end Engine.Sound

/-- A copy of a store to which nobody commits has its first root. -/
theorem Schedule.origin_performAll {a : Schedule α} {n : Nat} (hn : n < a.engine.stores.length)
    (hs : a.engine.Sound) (actions : List (Action α)) :
    (a.performAll actions).origin n = a.origin n := by
  induction actions generalizing a with
  | nil => rfl
  | cons action actions ih =>
    have hlater : n < (a.perform action).engine.stores.length := by
      rw [engine_perform]
      rcases (hs.extends_perform action).stores n _ (List.getElem?_eq_getElem hn) with
        ⟨st', hst', _⟩
      exact (List.getElem?_eq_some_iff.1 hst').1
    refine (ih hlater ?_).trans (origin_perform hn)
    rw [engine_perform]
    exact hs.perform action

/-! ## Serializability and isolation -/

/-- The engine of the schedule looks as if all committed write transactions had been made one
after another. -/
structure Schedule.Serial (a : Schedule α) : Prop where
  /-- At most one transaction of a store is writing. -/
  unique : ∀ (id id' : Nat) (t t' : Txn α), a.engine.txns[id]? = some t →
    a.engine.txns[id']? = some t' → t.store = t'.store → t.isWriting = true →
    t'.isWriting = true → id = id'
  /-- It captured the root that is current, and sees what its own writes make of it. -/
  writer : ∀ (id : Nat) (t : Txn α), a.engine.txns[id]? = some t → t.isWriting = true →
    ∃ st, a.engine.stores[t.store]? = some st ∧ t.root = st.root ∧
      t.forest = ((st.newWriter 0 t.name).does (a.writes id)).forest
  /-- The current root is what the committed transactions make of the first one, in the order
  of their commits and each of them alone. Every query is answered over it. -/
  root : ∀ (n : Nat) (st : Store α), a.engine.stores[n]? = some st →
    ∃ st₀, a.origin n = some st₀ ∧ st.root = (st₀.serveAll (a.commits n)).root ∧
      ∀ scan table index args, a.engine.askNow n scan table index args =
        some (scan.over st₀.schema (st₀.serveAll (a.commits n)).root table index args)

/-- Whatever reads was taken after the actions `before`, and is asked after the actions `after`:
it answers from the state it was taken in. -/
structure Engine.Isolates (before after : List (Action α)) : Prop where
  /-- A read transaction. -/
  reader : ∀ (store : Nat) (st : Store α), (performAll {} before).stores[store]? = some st →
    ∀ scan table index args,
      (performAll {} (before ++ .openRead store :: after)).ask (performAll {} before).txns.length
          scan table index args =
        (performAll {} before).askNow store scan table index args
  /-- A snapshot of a transaction, which may have written. -/
  snapshotTxn : ∀ (id : Nat) (t : Txn α), (performAll {} before).txns[id]? = some t →
    t.state = .active → ∀ scan table index args,
      (performAll {} (before ++ .snapshotTxn id :: after)).ask (performAll {} before).txns.length
          scan table index args =
        (performAll {} before).ask id scan table index args
  /-- A snapshot of a store, to which no transaction of its own has committed. -/
  snapshotStore : ∀ (store : Nat) (st : Store α),
    (performAll {} before).stores[store]? = some st →
    (Schedule.performAll {} (before ++ .snapshotStore store :: after)).commits
      (performAll {} before).stores.length = [] → ∀ scan table index args,
      (performAll {} (before ++ .snapshotStore store :: after)).askNow
          (performAll {} before).stores.length scan table index args =
        (performAll {} before).askNow store scan table index args

namespace Schedule

theorem Recorded.serial {a : Schedule α} (h : a.Recorded) (hs : a.engine.Sound) : a.Serial where
  unique := fun id id' t t' ht ht' hstore hw hw' => hs.writer_unique ht ht' hstore hw hw'
  writer := by
    intro id t ht hw
    rcases hs.txns id t ht with ⟨st, hst, hf⟩
    exact ⟨st, hst, (hf.writes hw).2, (h.writers id t st ht hst hw).forest_eq⟩
  root := by
    intro n st hst
    rcases h.stores n st hst with ⟨st₀, horigin, hserve⟩
    refine ⟨st₀, horigin, hserve.root, fun scan table index args => ?_⟩
    rw [hs.askNow_eq hst, hserve.root, hserve.schema, Store.serveAll_schema]

theorem performAll_append (a : Schedule α) (actions more : List (Action α)) :
    a.performAll (actions ++ more) = (a.performAll actions).performAll more :=
  List.foldl_append

/-- A snapshot of a store to which nobody commits answers as the store did. -/
theorem askNow_snapshotStore {a : Schedule α} (h : a.Recorded) (hs : a.engine.Sound)
    {store : Nat} {st : Store α} (hst : a.engine.stores[store]? = some st)
    (after : List (Action α))
    (hidle : (a.performAll (.snapshotStore store :: after)).commits a.engine.stores.length = [])
    (scan : Scan) (table index : String) (args : List Arg) :
    (a.performAll (.snapshotStore store :: after)).engine.askNow a.engine.stores.length scan table
        index args =
      a.engine.askNow store scan table index args := by
  have hnew : (a.perform (.snapshotStore store)).engine.stores[a.engine.stores.length]? =
      some st.snapshot := by
    rw [engine_perform]
    simp only [Engine.perform, Engine.snapshotStore, hst]
    exact Engine.getElem?_concat_iff.2 (.inr ⟨rfl, rfl⟩)
  have hlt := (List.getElem?_eq_some_iff.1 hnew).1
  have hs₁ : (a.perform (.snapshotStore store)).engine.Sound := by
    rw [engine_perform]
    exact hs.perform _
  have hs₂ : (a.performAll (.snapshotStore store :: after)).engine.Sound := by
    rw [engine_performAll]
    exact hs.performAll _
  have horigin : (a.performAll (.snapshotStore store :: after)).origin a.engine.stores.length =
      some st.snapshot :=
    (origin_performAll hlt hs₁ after).trans ((record_new (.inr ⟨store, rfl⟩)).1.trans hnew)
  -- the copy is there in the end, with its first root
  have hstores := (hs₁.extends_performAll after).stores _ _ hnew
  rw [← engine_performAll] at hstores
  rcases hstores with ⟨st', hst', _⟩
  rcases ((h.performAll hs (.snapshotStore store :: after)).serial hs₂).root _ st' hst' with
    ⟨st₀, horigin', _, hanswers⟩
  obtain rfl := Option.some.inj (horigin.symm.trans horigin')
  rw [hanswers, hidle, hs.askNow_eq hst]
  rfl

/-- Serializability and snapshot isolation. However the steps of any number of transactions and
of any number of stores and their snapshots are interleaved: each store has at most one writer,
which works on the current root; the current root is what the committed writers make of the
first one, one after another; and readers and snapshots answer from the state in which they were
taken. -/
theorem serial_and_isolated (before after : List (Action α)) :
    (performAll {} before : Schedule α).Serial ∧ Engine.Isolates before after := by
  have hs : (Engine.performAll {} before : Engine α).Sound := Engine.Sound.empty.performAll before
  have hsched : (performAll {} before : Schedule α).engine.Sound := by
    rw [engine_performAll]
    exact hs
  have hrec : (performAll {} before : Schedule α).Recorded :=
    Recorded.empty.performAll Engine.Sound.empty before
  refine ⟨hrec.serial hsched, ⟨?_, ?_, ?_⟩⟩
  · intro store st hst scan table index args
    rw [Engine.performAll_append]
    exact hs.ask_openRead hst after scan table index args
  · intro id t ht hactive scan table index args
    rw [Engine.performAll_append]
    exact hs.ask_snapshotTxn ht hactive after scan table index args
  · intro store st hst hidle scan table index args
    have hengine : (performAll {} before : Schedule α).engine = Engine.performAll {} before :=
      engine_performAll {} before
    have hcopy := askNow_snapshotStore hrec hsched (hengine ▸ hst) after
      (by rw [hengine, ← performAll_append]; exact hidle) scan table index args
    rw [engine_performAll, hengine] at hcopy
    rw [Engine.performAll_append]
    exact hcopy

/-- A reader comes in between, and the second writer aborts and leaves nothing. -/
example :
    let put (id : Nat) (path : String) : Action Page :=
      .write id (.insert Page.pages { path := path })
    let actions : List (Action Page) :=
      [.create Page.schema {}, .requestWrite 0, .acquireWrite 0, .requestWrite 0, put 0 "/a",
        .openRead 0, .commit 0, .acquireWrite 0, put 2 "/b", .abort 2, .requestWrite 0,
        .acquireWrite 0, put 3 "/d", put 3 "/c", .commit 3]
    let a : Schedule Page := performAll {} actions
    let s : Engine Page := Engine.performAll {} actions
    (a.commits 0).map (fun work => work.writes.length) = [1, 2] ∧
      (s.askNow 0 .all Page.pages primaryName []).map (Except.map Prod.snd) =
          some (.ok [{ path := "/a" }, { path := "/c" }, { path := "/d" }]) ∧
      (s.ask 1 .all Page.pages primaryName []).map (Except.map Prod.snd) = some (.ok []) := by
  decide +kernel

end Schedule

end SnapStore
