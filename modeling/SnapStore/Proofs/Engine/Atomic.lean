import SnapStore.Proofs.Engine.History
import SnapStore.Proofs.Engine.Jobs
import SnapStore.Sample.Page

/-! # Writes are atomic

A write that fails leaves the whole engine as it was: the drafts of its transaction and what
they hold, the change log, the deferred jobs, and all counters. It can fail only in its
preparation, before it changes anything. Once prepared it succeeds, and a removal of several
objects removes them all.

Main statements: `orderly_performAll` (what holds of the transactions of a run) and
`run_write_atomic`.
-/

namespace SnapStore

variable {α : Type}

namespace Engine

/-- Where the paths of all indexes differ, every transaction of a run is orderly. -/
theorem orderly_performAll {actions : List (Action α)}
    (hnd : ∀ schema settings, .create schema settings ∈ actions → schema.paths.Nodup) {id : Nat}
    {t : Txn α} (ht : (performAll {} actions).txns[id]? = some t) : t.Orderly := by
  have hs : (performAll {} actions : Engine α).Sound := Sound.empty.performAll actions
  have hshows : (Chronicle.performAll {} actions).Shows t.schema t.forest
      ((Chronicle.performAll {} actions).seen id) := by
    refine .inr ⟨id, t, ?_, rfl, rfl, rfl⟩
    rw [Chronicle.engine_performAll]
    exact ht
  rcases hs.txns id t ht with ⟨st, _, hf⟩
  exact (hshows.tidy hnd).orderly hf.sound hshows.valid

/-- An operation puts the session that it leaves in place. -/
theorem run_eq_put {β : Type} {s : Engine α} {id : Nat} {t : Txn α} {st : Store α}
    {op : TxnM α β} (ht : s.txns[id]? = some t) (hst : s.stores[t.store]? = some st) :
    s.run id op =
      match op.run ⟨t, st.stats⟩ with
      | .ok b after => some (.ok b, s.put id t.store after)
      | .error e after => some (.error e, s.put id t.store after) := by
  simp only [run, ht, hst]
  cases op.run ⟨t, st.stats⟩ <;> rfl

theorem run_eq_of_ok {β : Type} {s : Engine α} {id : Nat} {t : Txn α} {st : Store α}
    {op : TxnM α β} {b : β} {after : Session α} (ht : s.txns[id]? = some t)
    (hst : s.stores[t.store]? = some st) (h : op.run ⟨t, st.stats⟩ = .ok b after) :
    s.run id op = some (.ok b, s.put id t.store after) := by
  rw [run_eq_put ht hst, h]

/-- After a first part that succeeds, an operation goes on in the engine that this one left. -/
theorem run_bind_of_ok {β γ : Type} {s s' : Engine α} {id : Nat} {t : Txn α} {st : Store α}
    {x : TxnM α β} {f : β → TxnM α γ} {b : β} (hx : x.Keeps) (ht : s.txns[id]? = some t)
    (hst : s.stores[t.store]? = some st) (h : s.run id x = some (.ok b, s')) :
    s.run id (x >>= f) = s'.run id (f b) := by
  have hkeeps := hx ⟨t, st.stats⟩
  rw [run_eq_put ht hst] at h ⊢
  simp only [TxnM.leaves, TxnM.run_bind] at hkeeps ⊢
  cases hrun : x.run ⟨t, st.stats⟩ with
  | error e session => simp [hrun] at h
  | ok b' session =>
    obtain ⟨rfl, rfl⟩ : b' = b ∧ s.put id t.store session = s' := by simpa [hrun] using h
    simp only [hrun] at hkeeps ⊢
    have hstore : session.txn.store = t.store := by
      rcases hkeeps.frame with ⟨handles, changes, heq⟩
      rw [heq]
    have ht' : (s.put id t.store session).txns[id]? = some session.txn := txns_updateTxn_self ht
    have hst' : (s.put id t.store session).stores[session.txn.store]? =
        some { st with stats := session.stats } := by
      rw [hstore]
      exact stores_updateStore_self hst
    rw [run_eq_put ht' hst', hstore]
    cases (f b').run session <;> simp only [put_put]

/-- An operation that fails and leaves its session as it was changes nothing. -/
theorem run_eq_of_error {β : Type} {s : Engine α} {id : Nat} {t : Txn α} {st : Store α}
    {op : TxnM α β} {e : Error} (ht : s.txns[id]? = some t) (hst : s.stores[t.store]? = some st)
    (h : op.run ⟨t, st.stats⟩ = .error e ⟨t, st.stats⟩) : s.run id op = some (.error e, s) := by
  rw [run_eq_put ht hst, h]
  dsimp only
  rw [put_self ht hst]

/-- Writes are atomic. Whatever a run has led to, in stores whose indexes have different paths:
a write that fails changes nothing at all, and it fails if its preparation does. A write whose
preparation succeeds does all it is about. -/
theorem run_write_atomic {actions : List (Action α)}
    (hnd : ∀ schema settings, .create schema settings ∈ actions → schema.paths.Nodup) {id : Nat}
    {t : Txn α} (ht : (performAll {} actions).txns[id]? = some t) (w : Write α) :
    let s : Engine α := performAll {} actions
    (∀ e s', s.run id (TxnM.write w) = some (.error e, s') → s' = s ∧ t.prepare w = .error e) ∧
      (∀ e, t.prepare w = .error e → s.run id (TxnM.write w) = some (.error e, s)) ∧
      (t.prepare w = .ok () → ∃ t' s', s.run id (TxnM.write w) = some (.ok (), s') ∧
        s'.txns[id]? = some t' ∧ t.Written t' w) := by
  intro s
  have hs : s.Sound := Sound.empty.performAll actions
  rcases hs.txns id t ht with ⟨st, hst, _⟩
  rcases TxnM.run_write (orderly_performAll hnd ht) w st.stats with
    ⟨e, hprepare, hrun⟩ | ⟨t', stats', hprepare, hwritten, hrun⟩
  · -- the session is left as it was, and so is the engine
    have hsame : s.run id (TxnM.write w) = some (.error e, s) := by
      rw [run_eq_put ht hst, hrun]
      dsimp only
      rw [put_self ht hst]
    refine ⟨fun e' s' hfail => ?_, fun e' he' => ?_, fun hok => ?_⟩
    · rw [hsame] at hfail
      rcases Prod.mk.inj (Option.some.inj hfail) with ⟨he, rfl⟩
      exact ⟨rfl, Except.error.inj he ▸ hprepare⟩
    · rw [hprepare] at he'
      exact Except.error.inj he' ▸ hsame
    · rw [hprepare] at hok
      cases hok
  · have hafter : s.run id (TxnM.write w) = some (.ok (), s.put id t.store ⟨t', stats'⟩) := by
      rw [run_eq_put ht hst, hrun]
    refine ⟨fun e' s' hfail => ?_, fun e' he' => ?_, fun _ => ?_⟩
    · rw [hafter] at hfail
      cases hfail
    · rw [hprepare] at he'
      cases he'
    · exact ⟨t', _, hafter, txns_updateTxn_self ht, hwritten⟩

/-- A page that is not there is to be deleted, after another one was inserted. -/
theorem run_write_atomic_pages :
    let page : Page := { path := "/a", slug := "one", tags := ["new", "top"] }
    let actions : List (Action Page) :=
      [.create Page.schema {}, .requestWrite 0, .acquireWrite 0, .write 0 (.insert Page.pages page)]
    let w : Write Page := .delete Page.pages { path := "/b" }
    let s : Engine Page := performAll {} actions
    (∀ schema settings, .create schema settings ∈ actions → schema.paths.Nodup) ∧
      s.run 0 (TxnM.write w) = some (.error (.notFound Page.pages), s) ∧
      ∃ t, s.txns[0]? = some t ∧
        (∀ e s', s.run 0 (TxnM.write w) = some (.error e, s') →
          s' = s ∧ t.prepare w = .error e) ∧
        (∀ e, t.prepare w = .error e → s.run 0 (TxnM.write w) = some (.error e, s)) ∧
        (t.prepare w = .ok () → ∃ t' s', s.run 0 (TxnM.write w) = some (.ok (), s') ∧
          s'.txns[0]? = some t' ∧ t.Written t' w) := by
  intro page actions w s
  have hnd (schema : Schema Page) (settings : Settings) (h : .create schema settings ∈ actions) :
      schema.paths.Nodup := by
    simp only [actions, List.mem_cons, List.not_mem_nil, reduceCtorEq, or_false,
      Action.create.injEq] at h
    rw [h.1]
    decide +kernel
  have hfails : (s.run 0 (TxnM.write w)).map Prod.fst = some (.error (.notFound Page.pages)) := by
    decide +kernel
  rcases Option.map_eq_some_iff.1 hfails with ⟨⟨_, s'⟩, hrun, rfl⟩
  have htxn : s.txns[0]?.isSome = true := by decide +kernel
  rcases Option.isSome_iff_exists.1 htxn with ⟨t, ht⟩
  have hatomic := run_write_atomic hnd ht w
  obtain rfl := (hatomic.1 _ s' hrun).1
  exact ⟨hnd, hrun, t, ht, hatomic⟩

end Engine

end SnapStore
