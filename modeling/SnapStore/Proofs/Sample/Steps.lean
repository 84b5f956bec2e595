import Mathlib.Algebra.Ring.Nat
import Mathlib.Data.List.Perm.Basic
import SnapStore.Proofs.Engine.Jobs
import SnapStore.Proofs.Engine.Step
import SnapStore.Sample.Threads

/-! # Steps of threads

What the writer lock of a store does with those who wait for it, and what a step of a thread can
be. Every step leaves the threads less to do, so no order of their steps goes on for ever.

Main statements: `steps_of_step` and `length_run`.
-/

namespace SnapStore

open Person (people sample)

/-! ## The queue of a store -/

namespace Engine

variable {α β : Type} {s : Engine α} {t : Txn α} {id store n : Nat} {writer : Option Nat}

/-- The store has this writer, and so many others wait for their turn. -/
def Queued (s : Engine α) (store : Nat) (writer : Option Nat) (n : Nat) : Prop :=
  ∃ st, s.stores[store]? = some st ∧ st.writer = writer ∧ st.waiting = n

theorem Queued.requestWrite (h : s.Queued store writer n) :
    (s.requestWrite store).Queued store writer (n + 1) := by
  rcases h with ⟨st, hst, rfl, rfl⟩
  exact ⟨_, stores_updateStore_self hst, rfl, rfl⟩

/-- One of those who wait gets its turn. -/
theorem Queued.acquireWrite (h : s.Queued store none (n + 1)) :
    ∃ s', s.acquireWrite store = some (s.txns.length, s') ∧
      s'.Queued store (some s.txns.length) n := by
  rcases h with ⟨st, hst, hwriter, hwaiting⟩
  have hturn : s.acquireWrite store = some ((s.updateStore store fun st =>
      { st with writer := some s.txns.length, waiting := st.waiting - 1 }).addTxn
        (st.newWriter store)) := by
    simp [Engine.acquireWrite, hst, hwriter, hwaiting]
  exact ⟨_, hturn, _, stores_updateStore_self hst, rfl, by simp only [hwaiting, Nat.add_sub_cancel]⟩

/-- While somebody writes, nobody else gets a turn. -/
theorem Queued.acquireWrite_eq_none (h : s.Queued store (some id) n) :
    s.acquireWrite store = none := by
  rcases h with ⟨st, hst, hwriter, _⟩
  simp [Engine.acquireWrite, hst, hwriter]

theorem Queued.next_run (h : s.Queued store writer n) (hw : s.Writes id store t)
    (op : TxnM α β) : (s.next (s.run id op)).Queued store writer n := by
  rcases h with ⟨st, hst, hwriter, hwaiting⟩
  obtain rfl := hw.store
  rw [Engine.next_run hw.txn hst]
  exact ⟨_, stores_updateStore_self hst, hwriter, hwaiting⟩

theorem Queued.commit (h : s.Queued store writer n) (hw : s.Writes id store t) :
    (s.perform (.commit id)).Queued store none n := by
  rcases h with ⟨st, hst, _, hwaiting⟩
  obtain rfl := hw.store
  exact ⟨_, stores_commitOne_self hw.txn hw.writing hst, rfl, hwaiting⟩

/-- Without deferred jobs a commit is the commit alone, and it succeeds. -/
theorem Writes.commit_eq (h : s.Writes id store t) :
    s.commit id = some (.ok [], s.perform (.commit id)) := by
  have hboth := Txn.isWriting_iff.1 h.writing
  have hactive : t.ensureActive = .ok () := by rw [Txn.ensureActive, hboth.2]
  simp only [Engine.commit, Engine.perform, Engine.commitOne, h.txn, hactive, hboth.1, h.writing,
    h.deferred, if_true]
  rfl

end Engine

/-! ## One of several parties -/

section parties

variable {β : Type} {xs : List β} {x : β} {k : Nat}

/-- A party after it has moved. -/
theorem getElem?_moved (hk : xs[k]? = some x) (y : β) : (xs.set k y)[k]? = some y :=
  List.getElem?_set_self (List.getElem?_eq_some_iff.1 hk).1

/-- Any party after one has moved: it is that one, or it has stayed as it was. -/
theorem moved_or_stays {j : Nat} {y : β} (h : (xs.set k y)[j]? = some x) :
    (j = k ∧ x = y) ∨ (j ≠ k ∧ xs[j]? = some x) := by
  rw [List.getElem?_set] at h
  split at h
  · rename_i hj
    split at h
    · exact .inl ⟨hj.symm, (Option.some.inj h).symm⟩
    · cases h
  · exact .inr ⟨Ne.symm ‹_›, h⟩

/-- All parties but one. -/
theorem exists_others (hk : xs[k]? = some x) :
    ∃ others, xs.Perm (x :: others) ∧ ∀ y, (xs.set k y).Perm (y :: others) := by
  rcases List.getElem?_eq_some_iff.1 hk with ⟨hlt, rfl⟩
  exact ⟨xs.eraseIdx k, (List.getElem_cons_eraseIdx_perm hlt).symm,
    fun y => List.set_perm_cons_eraseIdx hlt y⟩

/-- What one party changes about a sum over all of them. -/
theorem sum_moved (hk : xs[k]? = some x) (y : β) (f : β → Nat) :
    ((xs.set k y).map f).sum + f x = (xs.map f).sum + f y := by
  rcases exists_others hk with ⟨others, hbefore, hafter⟩
  rw [((hafter y).map f).sum_nat, (hbefore.map f).sum_nat, List.map_cons, List.map_cons,
    List.sum_cons, List.sum_cons]
  omega

end parties

/-! ## Steps -/

namespace Thread

/-- The thread has got its turn. -/
def isWriting (th : Thread) : Bool :=
  match th.stage with
  | .writing _ _ => true
  | _ => false

/-- How many threads wait for their turn: this one, or none. -/
def waits (th : Thread) : Nat :=
  match th.stage with
  | .waiting => 1
  | _ => 0

/-- How many steps a thread has left at most, if each batch is of the given size. -/
def work (size : Nat) (th : Thread) : Nat :=
  match th.starts, th.stage with
  | [], _ => 0
  | _ :: starts, .idle => size + 3 + starts.length * (size + 3)
  | _ :: starts, .waiting => size + 2 + starts.length * (size + 3)
  | _ :: starts, .writing _ rest => rest.length + 1 + starts.length * (size + 3)

theorem work_idle (size : Nat) (starts : List Nat) :
    work size { starts := starts } = starts.length * (size + 3) := by
  cases starts with
  | nil => simp [work]
  | cons start starts => exact (Nat.add_comm _ _).trans (Nat.succ_mul _ _).symm

end Thread

namespace Workload

/-- The numbers of the people in a batch. -/
def numbers (config : WorkloadConfig) (start : Nat) : List Nat :=
  (List.range (max 1 config.batchSize)).map fun j => (start + j) % max 1 config.objectCount

theorem batch_eq (config : WorkloadConfig) (start : Nat) :
    batch config start = (numbers config start).map sample := by
  rw [batch, numbers, List.map_map]
  rfl

theorem length_batch (config : WorkloadConfig) (start : Nat) :
    (batch config start).length = max 1 config.batchSize := by
  simp [batch]

end Workload

namespace Crew

variable {store : Nat} {config : WorkloadConfig} {c c' : Crew} {k start : Nat} {starts : List Nat}

/-- The sum of something over all threads. -/
def total (f : Thread → Nat) (c : Crew) : Nat :=
  (c.threads.map f).sum

theorem total_set {th : Thread} (hk : c.threads[k]? = some th) (th' : Thread) (f : Thread → Nat)
    (s : Engine Person) (tally : Tally) :
    total f ⟨s, c.threads.set k th', tally⟩ + f th = c.total f + f th' :=
  sum_moved hk th' f

/-- What a step of a thread can be. -/
inductive Steps (store : Nat) (config : WorkloadConfig) (c : Crew) (k : Nat) : Crew → Prop
  | request {start : Nat} {starts : List Nat}
      (hk : c.threads[k]? = some ⟨start :: starts, .idle⟩) :
    Steps store config c k
      (c.goOn k ⟨start :: starts, .waiting⟩ (c.engine.requestWrite store))
  | acquire {start id : Nat} {starts : List Nat} {s : Engine Person}
      (hk : c.threads[k]? = some ⟨start :: starts, .waiting⟩)
      (hturn : c.engine.acquireWrite store = some (id, s)) :
    Steps store config c k
      (c.goOn k ⟨start :: starts, .writing id (Workload.batch config start)⟩ s)
  | insert {start id : Nat} {starts : List Nat} {p : Person} {rest : List Person}
      {s : Engine Person} (hk : c.threads[k]? = some ⟨start :: starts, .writing id (p :: rest)⟩)
      (hrun : c.engine.run id (TxnM.insert people p) = some (.ok (), s)) :
    Steps store config c k (c.goOn k ⟨start :: starts, .writing id rest⟩ s)
  | insertFails {start id : Nat} {starts : List Nat} {p : Person} {rest : List Person}
      {s : Engine Person} {e : Error}
      (hk : c.threads[k]? = some ⟨start :: starts, .writing id (p :: rest)⟩)
      (hrun : c.engine.run id (TxnM.insert people p) = some (.error e, s)) :
    Steps store config c k (c.finish k starts false (s.drop id))
  | commit {start id : Nat} {starts : List Nat} {s : Engine Person} {events : List Event}
      (hk : c.threads[k]? = some ⟨start :: starts, .writing id []⟩)
      (hcommit : c.engine.commit id = some (.ok events, s)) :
    Steps store config c k (c.finish k starts true s)
  | commitFails {start id : Nat} {starts : List Nat} {s : Engine Person} {e : Error}
      (hk : c.threads[k]? = some ⟨start :: starts, .writing id []⟩)
      (hcommit : c.engine.commit id = some (.error e, s)) :
    Steps store config c k (c.finish k starts false (s.drop id))

theorem steps_of_step (h : c.step store config k = some c') : Steps store config c k c' := by
  unfold step at h
  split at h
  · rename_i hk
    obtain rfl := Option.some.inj h
    exact .request hk
  · rename_i hk
    split at h
    · cases h
    · obtain rfl := Option.some.inj h
      exact .acquire hk ‹_›
  · rename_i hk
    split at h
    · cases h
    · obtain rfl := Option.some.inj h
      exact .insert hk ‹_›
    · obtain rfl := Option.some.inj h
      exact .insertFails hk ‹_›
  · rename_i hk
    split at h
    · cases h
    · obtain rfl := Option.some.inj h
      exact .commit hk ‹_›
    · obtain rfl := Option.some.inj h
      exact .commitFails hk ‹_›
  · cases h

/-- Every step leaves less to do. -/
theorem work_step (h : c.step store config k = some c') :
    c'.total (Thread.work (max 1 config.batchSize)) <
      c.total (Thread.work (max 1 config.batchSize)) := by
  have hless {th : Thread} (hk : c.threads[k]? = some th) (th' : Thread) (s : Engine Person)
      (tally : Tally)
      (hwork : th'.work (max 1 config.batchSize) < th.work (max 1 config.batchSize)) :
      total (Thread.work (max 1 config.batchSize)) ⟨s, c.threads.set k th', tally⟩ <
        c.total (Thread.work (max 1 config.batchSize)) := by
    have htotal := total_set hk th' (Thread.work (max 1 config.batchSize)) s tally
    omega
  cases steps_of_step h with
  | request hk => exact hless hk _ _ _ (by simp [Thread.work])
  | acquire hk _ => exact hless hk _ _ _ (by simp [Thread.work, Workload.length_batch])
  | insert hk _ => exact hless hk _ _ _ (by simp [Thread.work])
  | insertFails hk _ | commit hk _ | commitFails hk _ =>
    refine hless hk _ _ _ ?_
    rw [Thread.work_idle]
    simp [Thread.work]

/-- No order of the threads goes on for longer than there is work. -/
theorem length_run {order : List Nat} (h : c.run store config order = some c') :
    order.length + c'.total (Thread.work (max 1 config.batchSize)) ≤
      c.total (Thread.work (max 1 config.batchSize)) := by
  induction order generalizing c with
  | nil =>
    obtain rfl := Option.some.inj h
    exact Nat.le_of_eq (Nat.zero_add _)
  | cons k order ih =>
    simp only [run, List.foldlM_cons, Option.bind_eq_bind, Option.bind_eq_some_iff] at h
    rcases h with ⟨c₁, hstep, hrest⟩
    have hless := work_step hstep
    have hmore := ih hrest
    rw [List.length_cons]
    omega

end Crew

end SnapStore
