import SnapStore.Proofs.Engine.Removals
import SnapStore.Proofs.Sample.People
import SnapStore.Proofs.Sample.Steps

/-! # Threads that store people

The writer lock lets one thread after another store its batch, in an order that nobody controls.
Whatever the order, the threads stand as after a run of actions that commits whole batches one
after another: no step fails, and while a thread is left with a batch some thread can go on. When
all batches have ended, the store shows the people of all of them, and not the order.

Main statements: `Follows.step`, `Follows.done_of_stuck` and `Follows.complete`.
-/

namespace SnapStore

open Person (people archive sample slotId)
open Workload (numbers perThread threadPositions)

/-- A transaction that is still written can store any sample person. -/
theorem Sampled.exists_run_insert {actions : List (Action Person)} (h : Sampled actions) {id : Nat}
    {t : Txn Person} (ht : (Chronicle.performAll {} actions).engine.txns[id]? = some t)
    (hw : t.isWriting = true) (x : Nat) (stats : Stats) : ∃ t' stats',
      (TxnM.write (.insert people (sample x))).run ⟨t, stats⟩ = .ok () ⟨t', stats'⟩ := by
  have hschema := h.schema_eq (.inr ⟨id, t, ht, rfl, rfl, rfl⟩)
  have horderly : t.Orderly := by
    rw [Chronicle.engine_performAll] at ht
    exact Engine.orderly_performAll h.nodup ht
  have hprepare : t.prepare (.insert people (sample x)) = .ok () :=
    Person.prepare_insert horderly (Txn.ensureWrite_eq_ok_iff.2 hw) hschema
      (Person.name_sample_ne x) (Person.email_sample_ne x)
  rcases TxnM.run_write horderly (.insert people (sample x)) stats with
    ⟨e, he, _⟩ | ⟨t', stats', _, _, hrun⟩
  · rw [hprepare] at he
    cases he
  · exact ⟨t', stats', hrun⟩

/-- Every position that the threads get to fits in a machine word. -/
def WorkloadConfig.Fits (config : WorkloadConfig) : Prop :=
  ∀ t < config.threads, ∀ i < perThread config, ∀ j < max 1 config.batchSize,
    (t * perThread config + i) * config.batchSize + j < UInt64.size

namespace Workload

variable {config : WorkloadConfig} {start : Nat}

/-- The ledger has the people of all batches of all threads in the table of people, and nobody
else. -/
def Fills (config : WorkloadConfig) (L : Ledger Person) : Prop :=
  ∀ table p o, L table p = some o ↔ table = people ∧ p = o.id.bytes ∧
    ∃ t < config.threads, ∃ i < perThread config, ∃ j < max 1 config.batchSize,
      o = sample (((t * perThread config + i) * config.batchSize + j) % max 1 config.objectCount)

theorem mem_threadPositions {n : Nat} : n ∈ threadPositions config ↔
    ∃ t < config.threads, ∃ i < perThread config, n = t * perThread config + i := by
  simp [threadPositions, eq_comm]

theorem length_threadPositions (config : WorkloadConfig) :
    (threadPositions config).length = config.threads * (config.operations / config.threads) := by
  have hlength : (threadPositions config).length = config.threads * perThread config := by
    simp [threadPositions, List.length_flatMap]
  rw [hlength, perThread]
  cases config.threads with
  | zero => rw [Nat.zero_mul, Nat.zero_mul]
  | succ n => rw [Nat.max_eq_right (Nat.succ_le_succ (Nat.zero_le n))]

theorem mem_numbers {x : Nat} : x ∈ numbers config start ↔
    ∃ j < max 1 config.batchSize, x = (start + j) % max 1 config.objectCount := by
  simp [numbers, eq_comm]

theorem numbers_lt (hfits : config.Fits)
    (hstart : start ∈ (threadPositions config).map (· * config.batchSize)) :
    ∀ x ∈ numbers config start, x < UInt64.size := by
  intro x hx
  rcases List.mem_map.1 hstart with ⟨n, hn, rfl⟩
  rcases mem_threadPositions.1 hn with ⟨t, ht, i, hi, rfl⟩
  rcases mem_numbers.1 hx with ⟨j, hj, rfl⟩
  exact Nat.lt_of_le_of_lt (Nat.mod_le _ _) (hfits t ht i hi j hj)

end Workload

namespace Crew

variable {store : Nat} {config : WorkloadConfig} {c c' : Crew} {k start : Nat} {starts : List Nat}

theorem starts_start (config : WorkloadConfig) (s : Engine Person) :
    (Crew.start config s).threads.flatMap (·.starts) =
      (threadPositions config).map (· * config.batchSize) := by
  simp [Crew.start, threadPositions, List.flatMap_map, List.map_flatMap, Function.comp_def]

/-! ## One batch after another -/

/-- Who has the writer lock: no thread, or one that has got a write transaction and in it has
stored the first people of its batch, on top of the batches that have ended. -/
inductive Lock (config : WorkloadConfig) (c : Crew) (seen : Nat → History Person)
    (ended : List Nat) : Option Nat → Prop
  | free (hnone : ∀ th ∈ c.threads, th.isWriting = false) : Lock config c seen ended none
  | held {k start id : Nat} {starts after : List Nat} {t : Txn Person} (before : List Nat)
      (hk : c.threads[k]? = some ⟨start :: starts, .writing id (after.map sample)⟩)
      (hothers : ∀ k' th, k' ≠ k → c.threads[k']? = some th → th.isWriting = false)
      (hwrites : c.engine.Writes id 0 t) (hbatch : numbers config start = before ++ after)
      (hseen : History.Stored (seen id) (ended.flatMap (numbers config) ++ before)) :
    Lock config c seen ended (some id)

/-- The threads stand as after a run of actions, in which the batches with these starts have
ended, in this order. -/
structure Follows (config : WorkloadConfig) (c : Crew) (actions : List (Action Person))
    (ended : List Nat) : Prop where
  engine : (Chronicle.performAll {} actions).engine = c.engine
  creates : ∀ schema settings, .create schema settings ∈ actions →
    schema = Person.schema [people, archive]
  writes : ∀ id w, .write id w ∈ actions → ∃ x < UInt64.size, w = .insert people (sample x)
  starts : (ended ++ c.threads.flatMap (·.starts)).Perm
    ((Workload.threadPositions config).map (· * config.batchSize))
  tally : c.tally = ⟨ended.length, 0⟩
  kept : History.Stored ((Chronicle.performAll {} actions).kept 0)
    (ended.flatMap (numbers config))
  lock : ∃ writer, c.engine.Queued 0 writer (c.total Thread.waits) ∧
    c.Lock config (Chronicle.performAll {} actions).seen ended writer

/-- The thread that has got its turn is the one with the lock. -/
theorem Lock.of_writing {seen : Nat → History Person} {ended : List Nat} {writer : Option Nat}
    {id : Nat} {rest : List Person} (h : c.Lock config seen ended writer)
    (hk : c.threads[k]? = some ⟨start :: starts, .writing id rest⟩) :
    writer = some id ∧ (∀ k' th, k' ≠ k → c.threads[k']? = some th → th.isWriting = false) ∧
      ∃ before after t, rest = after.map sample ∧ c.engine.Writes id 0 t ∧
        numbers config start = before ++ after ∧
        History.Stored (seen id) (ended.flatMap (numbers config) ++ before) := by
  cases h with
  | free hnone => exact absurd (hnone _ (List.mem_of_getElem? hk)) (by simp [Thread.isWriting])
  | @held k' start' id' starts' after t before hk' hothers hwrites hbatch hseen =>
    by_cases heq : k = k'
    · subst heq
      rw [hk] at hk'
      cases hk'
      exact ⟨rfl, hothers, before, after, t, rfl, hwrites, hbatch, hseen⟩
    · exact absurd (hothers k _ heq hk) (by simp [Thread.isWriting])

namespace Follows

variable {actions : List (Action Person)} {ended : List Nat} {id : Nat} {s : Engine Person}

theorem sampled (h : c.Follows config actions ended) : Sampled actions where
  creates := h.creates
  inserts := by
    intro id table o hmem
    rcases h.writes id _ hmem with ⟨x, hx, heq⟩
    rcases Write.insert.inj heq with ⟨htable, ho⟩
    exact ⟨htable, x, hx, ho⟩

/-- One more action. -/
theorem concat (h : c.Follows config actions ended) {action : Action Person} {ended' : List Nat}
    (hengine : c'.engine = c.engine.perform action)
    (hcreate : ∀ schema settings, action ≠ .create schema settings)
    (hwrite : ∀ id w, action = .write id w → ∃ x < UInt64.size, w = .insert people (sample x))
    (hstarts : (ended' ++ c'.threads.flatMap (·.starts)).Perm
      (ended ++ c.threads.flatMap (·.starts)))
    (htally : c'.tally = ⟨ended'.length, 0⟩)
    (hkept : History.Stored (((Chronicle.performAll {} actions).perform action).kept 0)
      (ended'.flatMap (numbers config)))
    (hlock : ∃ writer, c'.engine.Queued 0 writer (c'.total Thread.waits) ∧
      c'.Lock config ((Chronicle.performAll {} actions).perform action).seen ended' writer) :
    c'.Follows config (actions ++ [action]) ended' := by
  refine ⟨?_, fun schema settings hmem => ?_, fun id w hmem => ?_, hstarts.trans h.starts, htally,
    ?_, ?_⟩
  · rw [Chronicle.performAll_concat, Chronicle.engine_perform, h.engine, hengine]
  · rcases List.mem_append.1 hmem with hmem | hlast
    · exact h.creates schema settings hmem
    · exact absurd (List.mem_singleton.1 hlast).symm (hcreate schema settings)
  · rcases List.mem_append.1 hmem with hmem | hlast
    · exact h.writes id w hmem
    · exact hwrite id w (List.mem_singleton.1 hlast).symm
  · rw [Chronicle.performAll_concat]
    exact hkept
  · rw [Chronicle.performAll_concat]
    exact hlock

/-- As long as no batch ends, the batches that are left are the same. -/
theorem perm_goOn {stage : Progress} (hk : c.threads[k]? = some ⟨starts, stage⟩) (stage' : Progress)
    (s : Engine Person) :
    ((c.goOn k ⟨starts, stage'⟩ s).threads.flatMap (·.starts)).Perm
      (c.threads.flatMap (·.starts)) := by
  rcases exists_others hk with ⟨others, hbefore, hafter⟩
  have hafter' := (hafter ⟨starts, stage'⟩).flatMap_right (·.starts)
  exact hafter'.trans (hbefore.flatMap_right (·.starts)).symm

theorem request (h : c.Follows config actions ended)
    (hk : c.threads[k]? = some ⟨start :: starts, .idle⟩) :
    (c.goOn k ⟨start :: starts, .waiting⟩ (c.engine.requestWrite 0)).Follows config
      (actions ++ [.requestWrite 0]) ended := by
  rcases h.lock with ⟨writer, hqueued, hlock⟩
  have hwaits : (c.goOn k ⟨start :: starts, .waiting⟩ (c.engine.requestWrite 0)).total
      Thread.waits = c.total Thread.waits + 1 :=
    total_set hk _ Thread.waits _ _
  refine h.concat rfl (by simp) (by simp) ((perm_goOn hk _ _).append_left ended) h.tally h.kept
    ⟨writer, hwaits ▸ hqueued.requestWrite, ?_⟩
  cases hlock with
  | free hnone =>
    refine .free fun th hmem => ?_
    rcases List.mem_or_eq_of_mem_set hmem with hmem | rfl
    · exact hnone th hmem
    · rfl
  | @held k' _ _ _ _ _ _ hk' hothers hwrites hbatch hseen =>
    have hne : k ≠ k' := by
      rintro rfl
      rw [hk] at hk'
      cases hk'
    refine .held _ ((List.getElem?_set_ne hne).trans hk') (fun j th hj hth => ?_)
      ⟨hwrites.txn, hwrites.store, hwrites.writing, hwrites.deferred⟩ hbatch hseen
    rcases moved_or_stays hth with ⟨rfl, rfl⟩ | ⟨_, hstays⟩
    · rfl
    · exact hothers j th hj hstays

/-- A thread that gets its turn starts from the batches that have ended. -/
theorem acquire (h : c.Follows config actions ended)
    (hk : c.threads[k]? = some ⟨start :: starts, .waiting⟩)
    (hturn : c.engine.acquireWrite 0 = some (id, s)) :
    (c.goOn k ⟨start :: starts, .writing id (Workload.batch config start)⟩ s).Follows config
      (actions ++ [.acquireWrite 0]) ended := by
  rcases h.lock with ⟨writer, hqueued, hlock⟩
  cases hlock with
  | held => simp [hqueued.acquireWrite_eq_none] at hturn
  | free hnone =>
    have hwaits : (c.goOn k ⟨start :: starts, .writing id (Workload.batch config start)⟩ s).total
        Thread.waits + 1 = c.total Thread.waits :=
      total_set hk _ Thread.waits _ _
    rw [← hwaits] at hqueued
    rcases hqueued.acquireWrite with ⟨s', hturn', hqueued'⟩
    obtain ⟨rfl, rfl⟩ : c.engine.txns.length = id ∧ s' = s := by
      simpa [hturn'] using hturn
    rcases Engine.exists_writes_acquireWrite hturn with ⟨t, hwrites⟩
    have hengine : s' = c.engine.perform (.acquireWrite 0) := by
      rw [Engine.perform, hturn]
      rfl
    refine h.concat hengine (by simp) (by simp) ((perm_goOn hk _ _).append_left ended) h.tally
      h.kept ⟨_, hqueued', ?_⟩
    rw [Workload.batch_eq]
    refine .held [] (getElem?_moved hk _) (fun j th hj hth => ?_) hwrites
      (List.nil_append _).symm ?_
    · rcases moved_or_stays hth with ⟨rfl, _⟩ | ⟨_, hstays⟩
      · exact absurd rfl hj
      · exact hnone th (List.mem_of_getElem? hstays)
    · have hseen : ((Chronicle.performAll {} actions).perform (.acquireWrite 0)).seen
          c.engine.txns.length = (Chronicle.performAll {} actions).kept 0 := by
        rw [← h.engine]
        exact Function.update_self _ _ _
      rw [hseen, List.append_nil]
      exact h.kept

theorem txn (h : c.Follows config actions ended) {t : Txn Person}
    (hwrites : c.engine.Writes id 0 t) :
    (Chronicle.performAll {} actions).engine.txns[id]? = some t := by
  rw [h.engine]
  exact hwrites.txn

/-- A thread that has got its turn stores the next of its people. -/
theorem insert (h : c.Follows config actions ended) {p : Person} {rest : List Person}
    (hfits : ∀ x ∈ numbers config start, x < UInt64.size)
    (hk : c.threads[k]? = some ⟨start :: starts, .writing id (p :: rest)⟩) :
    ∃ s, c.engine.run id (TxnM.insert people p) = some (.ok (), s) ∧
      (c.goOn k ⟨start :: starts, .writing id rest⟩ s).Follows config
        (actions ++ [.write id (.insert people p)]) ended := by
  rcases h.lock with ⟨writer, hqueued, hlock⟩
  rcases hlock.of_writing hk with
    ⟨rfl, hothers, before, after, t, hrest, hwrites, hbatch, hseen⟩
  obtain ⟨x, after, rfl⟩ : ∃ x after', after = x :: after' := by
    cases after with
    | nil => cases hrest
    | cons x after => exact ⟨x, after, rfl⟩
  obtain ⟨rfl, rfl⟩ : p = sample x ∧ rest = after.map sample := List.cons.inj hrest
  have hx : x < UInt64.size := hfits x (by simp [hbatch])
  obtain ⟨st, hst⟩ : ∃ st, c.engine.stores[t.store]? = some st := by
    rcases hqueued with ⟨st, hst, _⟩
    exact ⟨st, hwrites.store ▸ hst⟩
  rcases h.sampled.exists_run_insert (h.txn hwrites) hwrites.writing x st.stats with
    ⟨t', stats', hrun⟩
  obtain ⟨s, hgo⟩ : ∃ s, c.engine.run id (TxnM.insert people (sample x)) = some (.ok (), s) :=
    ⟨_, Engine.run_eq_of_ok hwrites.txn hst hrun⟩
  have hs : s = c.engine.next (c.engine.run id (TxnM.insert people (sample x))) := by
    rw [hgo]
    rfl
  have hseen' : ((Chronicle.performAll {} actions).perform
      (.write id (.insert people (sample x)))).seen id =
        ⟨.insert people (sample x), t.forest, t'.forest⟩ ::
          (Chronicle.performAll {} actions).seen id := by
    rw [← (Chronicle.shows_write (h.txn hwrites) (h.engine ▸ hst) hrun).1]
    exact Function.update_self _ _ _
  refine ⟨s, hgo, h.concat hs (by simp) ?_ ((perm_goOn hk _ _).append_left ended) h.tally h.kept
    ⟨some id, ?_, ?_⟩⟩
  · intro id' w heq
    cases heq
    exact ⟨x, hx, rfl⟩
  · have hwaits : (c.goOn k ⟨start :: starts, .writing id (after.map sample)⟩ s).total
        Thread.waits = c.total Thread.waits :=
      total_set hk _ Thread.waits _ _
    rw [hwaits, goOn, hs]
    exact hqueued.next_run hwrites _
  · obtain ⟨t'', hwrites'⟩ := hwrites.next_run hst (TxnM.keeps_write (.insert people (sample x)))
    refine .held (before ++ [x]) (getElem?_moved hk _) (fun j th hj hth => ?_) (hs ▸ hwrites')
      (by simp [hbatch]) ?_
    · rcases moved_or_stays hth with ⟨rfl, _⟩ | ⟨_, hstays⟩
      · exact absurd rfl hj
      · exact hothers j th hj hstays
    · rw [hseen', ← List.append_assoc]
      exact hseen.cons

/-- A thread that has stored its batch commits it. -/
theorem commit (h : c.Follows config actions ended)
    (hk : c.threads[k]? = some ⟨start :: starts, .writing id []⟩) :
    c.engine.commit id = some (.ok [], c.engine.perform (.commit id)) ∧
      (c.finish k starts true (c.engine.perform (.commit id))).Follows config
        (actions ++ [.commit id]) (ended ++ [start]) := by
  rcases h.lock with ⟨writer, hqueued, hlock⟩
  rcases hlock.of_writing hk with
    ⟨rfl, hothers, before, after, t, hrest, hwrites, hbatch, hseen⟩
  obtain rfl : after = [] := List.map_eq_nil_iff.1 hrest.symm
  obtain rfl : numbers config start = before := hbatch.trans (List.append_nil before)
  refine ⟨hwrites.commit_eq, h.concat rfl (by simp) (by simp) ?_ ?_ ?_
    ⟨none, ?_, .free fun th hmem => ?_⟩⟩
  · rcases exists_others hk with ⟨others, hbefore, hafter⟩
    have hleft := (hafter { starts := starts }).flatMap_right (·.starts)
    have hright := hbefore.flatMap_right (·.starts)
    rw [List.append_assoc]
    refine ((hleft.append_left [start]).trans ?_).append_left ended
    exact hright.symm
  · rw [finish, h.tally, List.length_append]
    rfl
  · have hkept : ((Chronicle.performAll {} actions).perform (.commit id)).kept 0 =
        (Chronicle.performAll {} actions).seen id := by
      simp only [Chronicle.perform, Chronicle.published, h.txn hwrites, hwrites.writing, if_true,
        hwrites.store, Function.update_self]
    rw [hkept, List.flatMap_append, List.flatMap_singleton]
    exact hseen
  · have hwaits : (c.finish k starts true (c.engine.perform (.commit id))).total Thread.waits =
        c.total Thread.waits :=
      total_set hk _ Thread.waits _ _
    rw [hwaits]
    exact hqueued.commit hwrites
  · obtain ⟨j, hj⟩ := List.getElem?_of_mem hmem
    rcases moved_or_stays hj with ⟨rfl, rfl⟩ | ⟨hne, hstays⟩
    · rfl
    · exact hothers j th hne hstays

/-- A batch that a thread is at is one of the workload. -/
theorem start_mem (h : c.Follows config actions ended) {stage : Progress}
    (hk : c.threads[k]? = some ⟨start :: starts, stage⟩) :
    start ∈ (threadPositions config).map (· * config.batchSize) := by
  refine h.starts.mem_iff.1 (List.mem_append_right ended ?_)
  exact List.mem_flatMap.2 ⟨_, List.mem_of_getElem? hk, List.mem_cons_self⟩

/-- Every step is one action, and it does not fail. -/
theorem step (h : c.Follows config actions ended) (hfits : config.Fits)
    (hstep : c.step 0 config k = some c') :
    ∃ action ended', c'.Follows config (actions ++ [action]) ended' := by
  cases steps_of_step hstep with
  | request hk => exact ⟨_, _, h.request hk⟩
  | acquire hk hturn => exact ⟨_, _, h.acquire hk hturn⟩
  | insert hk hrun =>
    rcases h.insert (Workload.numbers_lt hfits (h.start_mem hk)) hk with ⟨s, hgo, hafter⟩
    cases hrun.symm.trans hgo
    exact ⟨_, _, hafter⟩
  | insertFails hk hrun =>
    rcases h.insert (Workload.numbers_lt hfits (h.start_mem hk)) hk with ⟨s, hgo, _⟩
    cases hrun.symm.trans hgo
  | commit hk hcommit =>
    rcases h.commit hk with ⟨hgo, hafter⟩
    cases hcommit.symm.trans hgo
    exact ⟨_, _, hafter⟩
  | commitFails hk hcommit => cases hcommit.symm.trans (h.commit hk).1

theorem run (h : c.Follows config actions ended) (hfits : config.Fits) {order : List Nat}
    (hrun : c.run 0 config order = some c') :
    ∃ actions' ended', c'.Follows config actions' ended' := by
  induction order generalizing c actions ended with
  | nil =>
    obtain rfl := Option.some.inj hrun
    exact ⟨_, _, h⟩
  | cons k order ih =>
    simp only [Crew.run, List.foldlM_cons, Option.bind_eq_bind, Option.bind_eq_some_iff] at hrun
    rcases hrun with ⟨c₁, hstep, hrest⟩
    rcases h.step hfits hstep with ⟨action, ended', h₁⟩
    exact ih h₁ hrest

/-- As long as a thread is left with a batch, one of the threads can go on. -/
theorem done_of_stuck (h : c.Follows config actions ended) (hfits : config.Fits)
    (hstuck : ∀ k, c.step 0 config k = none) : ∀ th ∈ c.threads, th.starts = [] := by
  intro th hmem
  obtain ⟨k, hk⟩ := List.getElem?_of_mem hmem
  rcases h.lock with ⟨writer, hqueued, hlock⟩
  cases hlock with
  | @held j start' id starts' after _ _ hj =>
    -- the thread with the lock can go on
    refine absurd (hstuck j) ?_
    cases after with
    | nil => simp [Crew.step, hj, (h.commit hj).1]
    | cons x after =>
      rcases h.insert (Workload.numbers_lt hfits (h.start_mem hj)) hj with ⟨s, hgo, _⟩
      simp [Crew.step, hj, hgo]
  | free hnone =>
    rcases th with ⟨_ | ⟨start, starts⟩, stage⟩
    · rfl
    refine absurd (hstuck k) ?_
    cases stage with
    | idle => simp [Crew.step, hk]
    | waiting =>
      -- nobody keeps those who wait from their turn
      have hwaits : total Thread.waits ⟨c.engine, c.threads.set k ⟨[], .idle⟩, c.tally⟩ + 1 =
          c.total Thread.waits := total_set hk _ Thread.waits _ _
      rw [← hwaits] at hqueued
      rcases hqueued.acquireWrite with ⟨s, hturn, _⟩
      simp [Crew.step, hk, hturn]
    | writing id rest => exact absurd (hnone _ hmem) (by simp [Thread.isWriting])

end Follows

/-- All batches have succeeded, and every index of the store shows the people of all of them. -/
structure Complete (config : WorkloadConfig) (c : Crew) : Prop where
  tally : c.tally = ⟨config.threads * (config.operations / config.threads), 0⟩
  store : ∃ st L, c.engine.stores[0]? = some st ∧
    Forest.Mirrors st.root.get? (Person.schema [people, archive]) L ∧ Workload.Fills config L

namespace Follows

variable {actions : List (Action Person)} {ended : List Nat}

/-- When all batches have ended, it cannot be told in which order they did. -/
theorem complete (h : c.Follows config actions ended) (hfits : config.Fits)
    (hdone : ∀ th ∈ c.threads, th.starts = []) : c.Complete config := by
  have hall : ended.Perm ((threadPositions config).map (· * config.batchSize)) := by
    have hstarts := h.starts
    rwa [List.flatMap_eq_nil_iff.2 hdone, List.append_nil] at hstarts
  refine ⟨?_, ?_⟩
  · rw [h.tally, hall.length_eq, List.length_map, Workload.length_threadPositions]
  · have hlists := h.kept.lists fun x hx => by
      rcases List.mem_flatMap.1 hx with ⟨start, hstart, hnumber⟩
      exact Workload.numbers_lt hfits (hall.mem_iff.1 hstart) x hnumber
    rcases h.lock with ⟨writer, ⟨st, hst, _⟩, _⟩
    have hshows : (Chronicle.performAll {} actions).Shows st.schema st.root.get?
        ((Chronicle.performAll {} actions).kept 0) :=
      .inl ⟨0, st, h.engine ▸ hst, rfl, rfl, rfl⟩
    have hexact := hshows.exact h.sampled.nodup h.sampled.apart
    have hmirrors := hexact.mirrors (hshows.tidy h.sampled.nodup) hshows.wf hshows.valid
    rw [h.sampled.schema_eq hshows] at hmirrors
    refine ⟨st, _, hst, hmirrors, fun table p o => (hlists table p o).trans ?_⟩
    refine and_congr_right fun _ => ⟨?_, ?_⟩
    · rintro ⟨x, hx, hp, ho⟩
      rcases List.mem_flatMap.1 hx with ⟨start, hstart, hnumber⟩
      rcases List.mem_map.1 (hall.mem_iff.1 hstart) with ⟨n, hn, rfl⟩
      rcases Workload.mem_threadPositions.1 hn with ⟨t, ht, i, hi, rfl⟩
      rcases Workload.mem_numbers.1 hnumber with ⟨j, hj, rfl⟩
      exact ⟨hp.trans (congrArg (·.id.bytes) ho.symm), t, ht, i, hi, j, hj, ho⟩
    · rintro ⟨rfl, t, ht, i, hi, j, hj, rfl⟩
      refine ⟨_, List.mem_flatMap.2 ⟨_, hall.mem_iff.2 (List.mem_map.2
        ⟨_, Workload.mem_threadPositions.2 ⟨t, ht, i, hi, rfl⟩, rfl⟩),
        Workload.mem_numbers.2 ⟨j, hj, rfl⟩⟩, rfl, rfl⟩

/-- A new store, and threads that have not begun. -/
theorem exists_create (config : WorkloadConfig) (settings : Settings) : ∃ s,
    ({} : Engine Person).create (Person.schema [people, archive]) settings = .ok (0, s) ∧
      (Crew.start config s).Follows config [.create (Person.schema [people, archive]) settings]
        [] := by
  obtain ⟨s, hcreate, st, hst, hwriter, hwaiting⟩ : ∃ s,
      ({} : Engine Person).create (Person.schema [people, archive]) settings = .ok (0, s) ∧
        s.Queued 0 none 0 := by
    simp only [Engine.create, Store.create, Person.validate_schema]
    exact ⟨_, rfl, _, rfl, rfl, rfl⟩
  have hwaits : (Crew.start config s).total Thread.waits = 0 := by
    simp [Crew.start, total, Thread.waits, Function.comp_def]
  refine ⟨s, hcreate, ?_, ?_, by simp, ?_, rfl, ?_, none, ?_, .free ?_⟩
  · rw [Chronicle.engine_performAll, Engine.performAll_cons, Engine.performAll_nil, Engine.perform,
      hcreate]
    rfl
  · intro schema settings' hmem
    cases List.mem_singleton.1 hmem
    rfl
  · rw [List.nil_append, starts_start]
  · exact List.map_eq_nil_iff.2 (by simp [Chronicle.performAll, Chronicle.perform])
  · rw [hwaits]
    exact ⟨st, hst, hwriter, hwaiting⟩
  · intro th hmem
    rcases List.mem_map.1 hmem with ⟨t, _, rfl⟩
    rfl

end Follows

end Crew

end SnapStore
