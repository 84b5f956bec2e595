import SnapStore.Proofs.Engine.Sound

/-! # Jobs are runs of actions

The action that commits a transaction leaves out its deferred jobs. Each of them is a run of
actions itself: it opens transactions of its own, writes and ends them. So a commit with all
of its jobs leads nowhere that a run of actions does not lead.

Main statement: `Sound.reaches_commit`.
-/

namespace SnapStore

variable {α β γ : Type}

namespace TxnM

theorem keeps_writeAll (ws : List (Write α)) : (writeAll ws).Keeps := by
  induction ws with
  | nil => exact keeps_pure ()
  | cons w ws ih => exact (keeps_write w).bind fun _ => ih

/-- What is made of an answer does not change what an operation leaves. -/
theorem leaves_bind_pure (op : TxnM α β) (f : β → γ) (s : Session α) :
    TxnM.leaves (op >>= fun b => pure (f b)) s = op.leaves s := by
  simp only [leaves, run_bind]
  cases op.run s <;> rfl

end TxnM

namespace Engine

variable {s s' s'' : Engine α} {id store : Nat} {t : Txn α} {st : Store α}

/-- A run of actions leads from one engine to the other. -/
def Reaches (s s' : Engine α) : Prop :=
  ∃ actions, s' = s.performAll actions

namespace Reaches

theorem refl (s : Engine α) : s.Reaches s := ⟨[], rfl⟩

theorem trans (h : s.Reaches s') (h' : s'.Reaches s'') : s.Reaches s'' := by
  rcases h with ⟨actions, rfl⟩
  rcases h' with ⟨more, rfl⟩
  exact ⟨actions ++ more, (performAll_append s actions more).symm⟩

theorem perform (s : Engine α) (a : Action α) : s.Reaches (s.perform a) := ⟨[a], rfl⟩

theorem sound (h : s.Reaches s') (hs : s.Sound) : s'.Sound := by
  rcases h with ⟨actions, rfl⟩
  exact hs.performAll actions

end Reaches

/-! ## Operations one after another -/

theorem modify_eq_self {β : Type} {xs : List β} {f : β → β} {n : Nat}
    (h : ∀ x, xs[n]? = some x → f x = x) : xs.modify n f = xs := by
  refine List.ext_getElem? fun m => ?_
  rw [List.getElem?_modify]
  cases hx : xs[m]? with
  | none => rfl
  | some x =>
    by_cases heq : n = m
    · subst heq
      simp [h x hx]
    · simp [heq]

/-- The engine with a session in place of its transaction and of the counters of its store. -/
def put (s : Engine α) (id store : Nat) (session : Session α) : Engine α :=
  (s.updateTxn id fun _ => session.txn).updateStore store fun st =>
    { st with stats := session.stats }

/-- Of two sessions put in one place the later counts. -/
theorem put_put (s : Engine α) (id store : Nat) (before after : Session α) :
    (s.put id store before).put id store after = s.put id store after := by
  simp only [put, updateTxn, updateStore, List.modify_modify_eq]
  rfl

theorem put_self (ht : s.txns[id]? = some t) (hst : s.stores[store]? = some st) :
    s.put id store ⟨t, st.stats⟩ = s := by
  have htxns : s.txns.modify id (fun _ => t) = s.txns := by
    refine modify_eq_self fun t' ht' => ?_
    exact Option.some.inj (ht.symm.trans ht')
  have hstores : s.stores.modify store (fun st' => { st' with stats := st.stats }) = s.stores := by
    refine modify_eq_self fun st' hst' => ?_
    obtain rfl : st = st' := Option.some.inj (hst.symm.trans hst')
    rfl
  simp only [put, updateTxn, updateStore, htxns, hstores]

/-- An operation made of two goes on after the first one, unless that fails. -/
theorem next_run_bind {x : TxnM α β} {f : β → TxnM α γ} (hx : x.Keeps) (ht : s.txns[id]? = some t)
    (hst : s.stores[t.store]? = some st) :
    s.next (s.run id (x >>= f)) = s.next (s.run id x) ∨
      ∃ b, s.next (s.run id (x >>= f)) =
        (s.next (s.run id x)).next ((s.next (s.run id x)).run id (f b)) := by
  have hkeeps := hx ⟨t, st.stats⟩
  rw [next_run ht hst, next_run ht hst]
  simp only [TxnM.leaves, TxnM.run_bind] at hkeeps ⊢
  cases hrun : x.run ⟨t, st.stats⟩ with
  | error e session => exact .inl rfl
  | ok b session =>
    refine .inr ⟨b, ?_⟩
    simp only [hrun] at hkeeps ⊢
    -- the second operation starts in the session that the first one left
    change s.put id t.store _ =
      (s.put id t.store session).next ((s.put id t.store session).run id _)
    have hstore : session.txn.store = t.store := by
      rcases hkeeps.frame with ⟨handles, changes, heq⟩
      rw [heq]
    have ht' : (s.put id t.store session).txns[id]? = some session.txn := txns_updateTxn_self ht
    have hst' : (s.put id t.store session).stores[session.txn.store]? =
        some { st with stats := session.stats } := by
      rw [hstore]
      exact stores_updateStore_self hst
    rw [next_run ht' hst', hstore]
    exact (put_put s id t.store session _).symm

namespace Sound

/-- A list of writes makes one write after the other. -/
theorem reaches_writeAll (h : s.Sound) (id : Nat) (ws : List (Write α)) :
    s.Reaches (s.next (s.run id (TxnM.writeAll ws))) := by
  induction ws generalizing s with
  | nil =>
    cases ht : s.txns[id]? with
    | none =>
      rw [next_run_none ht]
      exact .refl s
    | some t =>
      rcases h.txns id t ht with ⟨st, hst, _⟩
      rw [next_run ht hst]
      have hself : s.put id t.store ⟨t, st.stats⟩ = s := put_self ht hst
      exact ⟨[], hself⟩
  | cons w ws ih =>
    cases ht : s.txns[id]? with
    | none =>
      rw [next_run_none ht]
      exact .refl s
    | some t =>
      rcases h.txns id t ht with ⟨st, hst, _⟩
      have hfirst : s.Reaches (s.perform (.write id w)) := .perform s _
      rcases next_run_bind (f := fun _ => TxnM.writeAll ws) (TxnM.keeps_write w) ht hst with
        hfail | ⟨_, hrest⟩
      · -- no write follows one that failed
        rw [TxnM.writeAll, hfail]
        exact hfirst
      · rw [TxnM.writeAll, hrest]
        exact hfirst.trans (ih (h.perform (.write id w)))

/-- The operation that finds all objects is the query for them. -/
theorem next_run_all (h : s.Sound) (id : Nat) (table index : String) (args : List Arg) :
    s.next (s.run id (TxnM.all table index args)) =
      s.perform (.query id .all table index args) := by
  rw [Engine.perform]
  cases ht : s.txns[id]? with
  | none => rw [next_run_none ht, next_run_none ht]
  | some t =>
    rcases h.txns id t ht with ⟨st, hst, _⟩
    rw [next_run ht hst, next_run ht hst, Scan.run, TxnM.leaves_bind_pure]

theorem reaches_countTable (h : s.Sound) (store : Nat) (table : String) :
    s.Reaches (s.countTable store table).2 := by
  rw [countTable]
  have hread : s.Reaches (s.next (s.openRead store)) := .perform s (.openRead store)
  cases hopen : s.openRead store with
  | none => exact .refl s
  | some x =>
    rcases x with ⟨id, s'⟩
    rw [hopen] at hread
    have hs' : s'.Sound := hread.sound h
    have hall : s'.Reaches (s'.next (s'.run id (TxnM.all table primaryName []))) := by
      rw [hs'.next_run_all]
      exact .perform s' _
    dsimp only
    cases hrun : s'.run id (TxnM.all table primaryName []) with
    | none => exact hread
    | some y =>
      rw [hrun] at hall
      exact hread.trans hall

end Sound

/-! ## Write transactions of jobs -/

/-- A transaction of a store that may write, has not ended and has no deferred jobs. -/
structure Writes (s : Engine α) (id store : Nat) (t : Txn α) : Prop where
  txn : s.txns[id]? = some t
  store : t.store = store
  writing : t.isWriting = true
  deferred : t.deferred = []

/-- A writer that gets its turn has not written yet. -/
theorem exists_writes_acquireWrite (hturn : s.acquireWrite store = some (id, s')) :
    ∃ t, s'.Writes id store t := by
  unfold acquireWrite at hturn
  cases hst : s.stores[store]? with
  | none => simp [hst] at hturn
  | some st =>
    simp only [hst] at hturn
    split at hturn
    · cases hturn
    · rcases Prod.mk.inj (Option.some.inj hturn) with ⟨rfl, rfl⟩
      exact ⟨_, getElem?_concat_iff.2 (.inr ⟨rfl, rfl⟩), rfl, rfl, rfl⟩

/-- A writer goes on to write after operations. -/
theorem Writes.next_run (h : s.Writes id store t) (hst : s.stores[t.store]? = some st)
    {op : TxnM α β} (hop : op.Keeps) : ∃ t', (s.next (s.run id op)).Writes id store t' := by
  rcases (hop ⟨t, st.stats⟩).frame with ⟨handles, changes, heq⟩
  rw [Engine.next_run h.txn hst, heq]
  exact ⟨_, txns_updateTxn_self h.txn, h.store, h.writing, h.deferred⟩

/-- Without deferred jobs there is nothing to take from a writer at its commit. -/
theorem Writes.commitWrites_eq (h : s.Writes id store t) :
    s.commitWrites id store = s.perform (.commit id) := by
  have hafter : (s.commitWrites id t.store).txns[id]? =
      some { t with
        root := (t.rootDraft ⟨t.name, 0, 0⟩ t.primary).tree, handles := []
        state := .ended .commit } := by
    rw [Engine.commitWrites_eq h.txn]
    exact txns_updateTxn_self (txns_publish_self h.txn)
  have hnone : (s.commitWrites id t.store).updateTxn id (fun t => { t with deferred := [] }) =
      s.commitWrites id t.store := by
    have hsame : (s.commitWrites id t.store).txns.modify id (fun t => { t with deferred := [] }) =
        (s.commitWrites id t.store).txns := by
      refine modify_eq_self fun t' ht' => ?_
      obtain rfl := Option.some.inj (hafter.symm.trans ht')
      simp only [h.deferred]
    simp only [updateTxn, hsame]
  rw [Engine.perform, commitOne, h.txn]
  simp only [h.writing, if_true]
  rw [hnone, h.store]

theorem Writes.abortWrites_eq (h : s.Writes id store t) :
    s.abortWrites id store = s.perform (.drop id) := by
  rw [Engine.perform, drop_of_some h.txn, if_pos h.writing, h.store]

/-- Taking a turn is a run of actions. If its writes succeed, its transaction is still open. -/
theorem Sound.reaches_takeTurn (h : s.Sound) {ws : List (Write α)}
    {x : Except Error (Nat × Unit)} (hturn : s.takeTurn store (TxnM.writeAll ws) = some (x, s')) :
    s.Reaches s' ∧ ∀ id, x = .ok (id, ()) → ∃ t, s'.Writes id store t := by
  unfold takeTurn at hturn
  have hacquire : s.Reaches (s.next (s.acquireWrite store)) := .perform s (.acquireWrite store)
  cases hopen : s.acquireWrite store with
  | none => simp [hopen] at hturn
  | some y =>
    rcases y with ⟨id, s₁⟩
    rw [hopen] at hacquire
    have hs₁ : s₁.Sound := hacquire.sound h
    have hwrites := hs₁.reaches_writeAll id ws
    rcases exists_writes_acquireWrite hopen with ⟨t, ht⟩
    rcases hs₁.txns id t ht.txn with ⟨st, hst, _⟩
    rcases ht.next_run hst (TxnM.keeps_writeAll ws) with ⟨t', ht'⟩
    simp only [hopen] at hturn
    cases hrun : s₁.run id (TxnM.writeAll ws) with
    | none => simp [hrun] at hturn
    | some z =>
      rcases z with ⟨result, s₂⟩
      rw [hrun] at hwrites ht'
      simp only [hrun] at hturn
      have hreach : s.Reaches s₂ := hacquire.trans hwrites
      cases result with
      | error e =>
        rcases Prod.mk.inj (Option.some.inj hturn) with ⟨rfl, rfl⟩
        exact ⟨hreach.trans (.perform s₂ (.drop id)), fun id' heq => nomatch heq⟩
      | ok u =>
        rcases Prod.mk.inj (Option.some.inj hturn) with ⟨rfl, rfl⟩
        refine ⟨hreach, fun id' heq => ?_⟩
        obtain rfl : id = id' := congrArg Prod.fst (Except.ok.inj heq)
        exact ⟨t', ht'⟩

/-! ## Jobs -/

mutual

/-- A job is a run of actions. -/
theorem Sound.reaches_runJob (store : Nat) :
    ∀ (job : Job α) {s : Engine α}, s.Sound → s.Reaches (runJob store job s).2
  | .note label, s, _ => by
    rw [runJob]
    exact .refl s
  | .count table, s, h => by
    rw [runJob]
    exact h.reaches_countTable store table
  | .all jobs, s, h => by
    rw [runJob]
    exact Sound.reaches_runJobs store jobs h
  | .write writes deferred ending, s, h => by
    rw [runJob]
    have hrequest : s.Reaches (s.requestWrite store) := .perform s (.requestWrite store)
    cases hturn : (s.requestWrite store).takeTurn store (TxnM.writeAll writes) with
    | none => exact .refl s
    | some x =>
      rcases x with ⟨result, s'⟩
      rcases (hrequest.sound h).reaches_takeTurn hturn with ⟨hreach, hwrites⟩
      have hs' : s.Reaches s' := hrequest.trans hreach
      cases result with
      | error e => exact hs'
      | ok y =>
        rcases y with ⟨id, _⟩
        rcases hwrites id rfl with ⟨t, ht⟩
        -- the transaction of the job is still open, with nothing deferred
        cases ending with
        | abort =>
          dsimp only
          rw [ht.abortWrites_eq]
          exact hs'.trans (.perform s' _)
        | commit =>
          dsimp only
          rw [ht.commitWrites_eq]
          have hcommit : s.Reaches (s'.perform (.commit id)) := hs'.trans (.perform s' _)
          exact hcommit.trans (Sound.reaches_runDeferred store deferred (hcommit.sound h))

/-- Jobs one after another are a run of actions. -/
theorem Sound.reaches_runJobs (store : Nat) :
    ∀ (jobs : List (Job α)) {s : Engine α}, s.Sound → s.Reaches (runJobs store jobs s).2
  | [], s, _ => by
    rw [runJobs]
    exact .refl s
  | job :: jobs, s, h => by
    rw [runJobs]
    have hfirst := Sound.reaches_runJob store job h
    exact hfirst.trans (Sound.reaches_runJobs store jobs (hfirst.sound h))

/-- Deferred jobs are a run of actions. -/
theorem Sound.reaches_runDeferred (store : Nat) :
    ∀ (jobs : List (Job α)) {s : Engine α}, s.Sound → s.Reaches (runDeferred store jobs s).2
  | [], s, _ => by
    rw [runDeferred]
    exact .refl s
  | job :: jobs, s, h => by
    rw [runDeferred]
    have hlast := Sound.reaches_runDeferred store jobs h
    exact hlast.trans (Sound.reaches_runJob store job (hlast.sound h))

end

/-- A writer commits, and then its deferred jobs run. -/
theorem next_commit_of_writing (ht : s.txns[id]? = some t) (hw : t.isWriting = true) :
    s.next (s.commit id) = (runDeferred t.store t.deferred (s.perform (.commit id))).2 := by
  have hboth := Txn.isWriting_iff.1 hw
  have hactive : t.ensureActive = .ok () := by rw [Txn.ensureActive, hboth.2]
  simp only [Engine.perform, Engine.commitOne, Engine.commit, ht, hw, hactive, hboth.1, if_true]
  rfl

/-- Nothing comes of the commit of a transaction that has ended or may not write. -/
theorem next_commit_of_idle (ht : s.txns[id]? = some t) (hw : ¬ t.isWriting = true) :
    s.next (s.commit id) = s := by
  rcases hstate : t.state with _ | ending
  · have hactive : t.ensureActive = .ok () := by rw [Txn.ensureActive, hstate]
    have hread : t.write = false := by simpa [Txn.isWriting, hstate] using hw
    simp [Engine.commit, ht, hactive, hread, next]
  · have hended : t.ensureActive = .error (.ended ending) := by rw [Txn.ensureActive, hstate]
    simp [Engine.commit, ht, hended, next]

/-- A commit with all of its deferred jobs is a run of actions, of which the first is the
commit alone. -/
theorem Sound.reaches_commit (h : s.Sound) (id : Nat) :
    (s.perform (.commit id)).Reaches (s.next (s.commit id)) := by
  cases ht : s.txns[id]? with
  | none =>
    have hsame : s.next (s.commit id) = s.perform (.commit id) := by
      simp only [Engine.perform, Engine.commitOne, Engine.commit, ht, next]
    rw [hsame]
    exact .refl _
  | some t =>
    by_cases hw : t.isWriting = true
    · rw [next_commit_of_writing ht hw]
      exact Sound.reaches_runDeferred t.store t.deferred (h.perform (.commit id))
    · have hsame : s.perform (.commit id) = s := by
        simp only [Engine.perform, Engine.commitOne, ht, if_neg hw]
      rw [next_commit_of_idle ht hw, hsame]
      exact .refl s

end Engine

end SnapStore
