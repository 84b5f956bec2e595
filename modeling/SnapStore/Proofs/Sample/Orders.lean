import SnapStore.Proofs.Sample.Threads

/-! # Orders of threads

Threads that store people may take their steps in any order that the writer lock admits. No order
goes on for ever, and where one stops, all batches have succeeded and the store shows the same
people, whatever the order. To let one thread after another run is one of these orders.

Main statement: `Crew.any_order`.
-/

namespace SnapStore

open Person (people archive sample)

namespace Crew

variable {store : Nat} {config : WorkloadConfig} {c c' : Crew} {k start : Nat} {starts : List Nat}

theorem run_append {c₁ : Crew} {order order' : List Nat} (h : c.run store config order = some c₁)
    (h' : c₁.run store config order' = some c') :
    c.run store config (order ++ order') = some c' := by
  rw [run, List.foldlM_append]
  change (c.run store config order).bind _ = some c'
  rw [h]
  exact h'

theorem run_one (h : c.step store config k = some c') : c.run store config [k] = some c' := by
  rw [run, List.foldlM_cons, h]
  rfl

namespace Follows

variable {actions : List (Action Person)} {ended : List Nat} {id : Nat}

theorem exists_writes (h : c.Follows config actions ended) {rest : List Person}
    (hk : c.threads[k]? = some ⟨start :: starts, .writing id rest⟩) :
    ∃ t st, c.engine.Writes id 0 t ∧ c.engine.stores[t.store]? = some st := by
  rcases h.lock with ⟨writer, ⟨st, hst, _⟩, hlock⟩
  rcases hlock.of_writing hk with ⟨_, _, _, _, t, _, hwrites, _⟩
  exact ⟨t, st, hwrites, hwrites.store ▸ hst⟩

/-- A thread that has got its turn can store all of its people with nobody else in between, and
that is to make the list of these writes. -/
theorem exists_inserts {rest : List Person} (h : c.Follows config actions ended)
    (hfits : config.Fits) (hk : c.threads[k]? = some ⟨start :: starts, .writing id rest⟩) :
    ∃ order c' actions', c.run 0 config order = some c' ∧ c'.Follows config actions' ended ∧
      c'.threads = c.threads.set k ⟨start :: starts, .writing id []⟩ ∧ c'.tally = c.tally ∧
      c.engine.run id (TxnM.writeAll (rest.map (.insert people))) = some (.ok (), c'.engine) := by
  induction rest generalizing c actions with
  | nil =>
    rcases h.exists_writes hk with ⟨t, st, hwrites, hst⟩
    refine ⟨[], c, actions, rfl, h, ?_, rfl, ?_⟩
    · rcases List.getElem?_eq_some_iff.1 hk with ⟨hlt, hk⟩
      rw [← hk, List.set_getElem_self]
    · have hnone : c.engine.run id (TxnM.writeAll []) =
          some (.ok (), c.engine.put id t.store ⟨t, st.stats⟩) :=
        Engine.run_eq_of_ok hwrites.txn hst rfl
      rwa [Engine.put_self hwrites.txn hst] at hnone
  | cons p rest ih =>
    rcases h.exists_writes hk with ⟨t, st, hwrites, hst⟩
    rcases h.insert (Workload.numbers_lt hfits (h.start_mem hk)) hk with ⟨s, hgo, h₁⟩
    have hstep : c.step 0 config k = some (c.goOn k ⟨start :: starts, .writing id rest⟩ s) := by
      simp only [Crew.step, hk, hgo]
    rcases ih h₁ (getElem?_moved hk _) with
      ⟨order, c', actions', hrun, h', hthreads, htally, hrest⟩
    refine ⟨[k] ++ order, c', actions', run_append (run_one hstep) hrun, h', ?_, htally, ?_⟩
    · rw [hthreads, goOn, List.set_set]
    · rw [List.map_cons, TxnM.writeAll]
      have hkeeps := TxnM.keeps_write (.insert people p)
      exact (Engine.run_bind_of_ok hkeeps hwrites.txn hst hgo).trans hrest

/-- As long as no thread has begun, whoever asks gets its turn at once. -/
theorem exists_turn (h : c.Follows config actions ended)
    (hidle : ∀ th ∈ c.threads, th.stage = .idle) :
    ∃ id s, (c.engine.requestWrite 0).acquireWrite 0 = some (id, s) := by
  rcases h.lock with ⟨writer, hqueued, hlock⟩
  cases hlock with
  | free =>
    rcases hqueued.requestWrite.acquireWrite with ⟨s, hturn, _⟩
    exact ⟨_, s, hturn⟩
  | held _ hj => cases hidle _ (List.mem_of_getElem? hj)

/-- A thread can do a whole batch with nobody else in between, and that is to write the batch. -/
theorem exists_batch (h : c.Follows config actions ended) (hfits : config.Fits)
    (hidle : ∀ th ∈ c.threads, th.stage = .idle)
    (hk : c.threads[k]? = some ⟨start :: starts, .idle⟩) :
    ∃ order c' actions' ended', c.run 0 config order = some c' ∧
      c'.Follows config actions' ended' ∧ c'.threads = c.threads.set k { starts := starts } ∧
      c'.tally = c.tally.count true ∧
      Workload.writeBatch 0 config start c.engine = (true, c'.engine) := by
  rcases h.exists_turn hidle with ⟨id, s, hturn⟩
  -- the thread asks
  obtain ⟨c₁, hstep₁, h₁, hthreads₁, htally₁, hengine₁⟩ : ∃ c₁, c.step 0 config k = some c₁ ∧
      c₁.Follows config (actions ++ [.requestWrite 0]) ended ∧
      c₁.threads = c.threads.set k ⟨start :: starts, .waiting⟩ ∧ c₁.tally = c.tally ∧
      c₁.engine = c.engine.requestWrite 0 :=
    ⟨c.goOn k ⟨start :: starts, .waiting⟩ (c.engine.requestWrite 0), by simp only [Crew.step, hk],
      h.request hk, rfl, rfl, rfl⟩
  have hk₁ : c₁.threads[k]? = some ⟨start :: starts, .waiting⟩ := by
    rw [hthreads₁, getElem?_moved hk]
  rw [← hengine₁] at hturn
  -- it gets its turn
  obtain ⟨c₂, hstep₂, h₂, hthreads₂, htally₂, hengine₂⟩ : ∃ c₂, c₁.step 0 config k = some c₂ ∧
      c₂.Follows config (actions ++ [.requestWrite 0] ++ [.acquireWrite 0]) ended ∧
      c₂.threads = c₁.threads.set k ⟨start :: starts, .writing id (Workload.batch config start)⟩ ∧
      c₂.tally = c₁.tally ∧ c₂.engine = s :=
    ⟨c₁.goOn k ⟨start :: starts, .writing id (Workload.batch config start)⟩ s,
      by simp only [Crew.step, hk₁, hturn], h₁.acquire hk₁ hturn, rfl, rfl, rfl⟩
  have hk₂ : c₂.threads[k]? =
      some ⟨start :: starts, .writing id (Workload.batch config start)⟩ := by
    rw [hthreads₂, getElem?_moved hk₁]
  -- it stores its people
  rcases h₂.exists_inserts hfits hk₂ with
    ⟨order, c₃, actions₃, hrun, h₃, hthreads₃, htally₃, hinserts⟩
  have hk₃ : c₃.threads[k]? = some ⟨start :: starts, .writing id []⟩ := by
    rw [hthreads₃, getElem?_moved hk₂]
  rcases h₃.exists_writes hk₃ with ⟨t, st, hwrites, _⟩
  rcases h₃.commit hk₃ with ⟨hcommit, h₄⟩
  have hstep₄ : c₃.step 0 config k =
      some (c₃.finish k starts true (c₃.engine.perform (.commit id))) := by
    simp only [Crew.step, hk₃, hcommit]
  refine ⟨[k] ++ ([k] ++ (order ++ [k])), _, _, _,
    run_append (run_one hstep₁) (run_append (run_one hstep₂) (run_append hrun (run_one hstep₄))),
    h₄, ?_, ?_, ?_⟩
  · simp only [finish, hthreads₃, hthreads₂, hthreads₁, List.set_set]
  · rw [finish, htally₃, htally₂, htally₁]
  · have hwriteAll : s.run id (TxnM.writeAll ((Workload.batch config start).map (.insert people))) =
        some (.ok (), c₃.engine) := hengine₂ ▸ hinserts
    rw [hengine₁] at hturn
    simp only [Workload.writeBatch, Workload.ofJob, Workload.insertAll, Engine.runJob,
      Engine.takeTurn, hturn, hwriteAll, hwrites.commitWrites_eq, Engine.runDeferred]
    rfl

end Follows

/-! ## One thread after another -/

/-- The first batch of threads one after another is the next batch of one of them. -/
theorem exists_first {threads : List Thread} {remaining : List Nat}
    (hidle : ∀ th ∈ threads, th.stage = .idle)
    (h : threads.flatMap (·.starts) = start :: remaining) :
    ∃ (k : Nat) (starts : List Nat), threads[k]? = some ⟨start :: starts, .idle⟩ ∧
      (threads.set k { starts := starts }).flatMap (·.starts) = remaining := by
  induction threads with
  | nil => cases h
  | cons th threads ih =>
    rcases th with ⟨_ | ⟨start', starts⟩, stage⟩
    · have hlater (th : Thread) (hmem : th ∈ threads) : th.stage = .idle :=
        hidle th (List.mem_cons_of_mem _ hmem)
      rcases ih hlater h with ⟨k, starts, hk, hremaining⟩
      exact ⟨k + 1, starts, hk, hremaining⟩
    · obtain rfl : stage = .idle := hidle _ List.mem_cons_self
      obtain ⟨rfl, rfl⟩ : start' = start ∧ starts ++ threads.flatMap (·.starts) = remaining :=
        List.cons.inj h
      exact ⟨0, starts, rfl, rfl⟩

/-- The counts and the engine after operations one after another, from some counts on. -/
def tallied (x : Tally × Engine Person) (operations : List Workload.Operation) :
    Tally × Engine Person :=
  operations.foldl (fun x op => (x.1.count (op x.2).1, (op x.2).2)) x

/-- To write all batches, thread by thread, is one of the orders. -/
theorem Follows.exists_run {actions : List (Action Person)} {ended remaining : List Nat}
    (h : c.Follows config actions ended) (hfits : config.Fits)
    (hidle : ∀ th ∈ c.threads, th.stage = .idle)
    (hremaining : c.threads.flatMap (·.starts) = remaining) :
    ∃ order c', c.run 0 config order = some c' ∧ (∀ th ∈ c'.threads, th.starts = []) ∧
      tallied (c.tally, c.engine) (remaining.map (Workload.writeBatch 0 config)) =
        (c'.tally, c'.engine) := by
  induction remaining generalizing c actions ended with
  | nil => exact ⟨[], c, rfl, List.flatMap_eq_nil_iff.1 hremaining, rfl⟩
  | cons start remaining ih =>
    rcases exists_first hidle hremaining with ⟨k, starts, hk, hrest⟩
    rcases h.exists_batch hfits hidle hk with
      ⟨order, c₁, actions₁, ended₁, hrun, h₁, hthreads, htally, hbatch⟩
    have hidle₁ : ∀ th ∈ c₁.threads, th.stage = .idle := by
      intro th hmem
      rw [hthreads] at hmem
      rcases List.mem_or_eq_of_mem_set hmem with hmem | rfl
      · exact hidle th hmem
      · rfl
    rcases ih h₁ hidle₁ (hthreads ▸ hrest) with ⟨more, c', hmore, hdone, htallied⟩
    refine ⟨order ++ more, c', run_append hrun hmore, hdone, ?_⟩
    rw [← htallied, htally, List.map_cons]
    simp only [tallied, List.foldl_cons, hbatch]

theorem step_eq_none (hdone : ∀ th ∈ c.threads, th.starts = []) (k : Nat) :
    c.step store config k = none := by
  cases hk : c.threads[k]? with
  | none => simp only [step, hk]
  | some th =>
    rcases th with ⟨starts, stage⟩
    obtain rfl : starts = [] := hdone _ (List.mem_of_getElem? hk)
    simp only [step, hk]

/-! ## Any order -/

/-- Let threads store their batches of people in a new store, in any order of their steps that the
writer lock admits. The order comes to an end, and it ends only when all batches have succeeded
and the indexes of the store show exactly the people of all batches. One such order is that one
thread runs after another. -/
theorem any_order (config : WorkloadConfig) (hfits : config.Fits) (settings : Settings) :
    ∃ s, ({} : Engine Person).create (Person.schema [people, archive]) settings = .ok (0, s) ∧
      (∀ order c, (Crew.start config s).run 0 config order = some c →
        order.length ≤ config.threads * Workload.perThread config *
          (max 1 config.batchSize + 3) ∧
        ((∀ k, c.step 0 config k = none) → c.Complete config)) ∧
      ∃ order c, (Crew.start config s).run 0 config order = some c ∧
        (∀ k, c.step 0 config k = none) ∧
        Workload.concurrentWrites 0 config s = (c.tally, c.engine) := by
  rcases Follows.exists_create config settings with ⟨s, hcreate, hstart⟩
  refine ⟨s, hcreate, fun order c hrun => ⟨?_, fun hstuck => ?_⟩, ?_⟩
  · have hwork : (Crew.start config s).total (Thread.work (max 1 config.batchSize)) =
        config.threads * Workload.perThread config * (max 1 config.batchSize + 3) := by
      simp [Crew.start, total, Thread.work_idle, Function.comp_def, Nat.mul_assoc]
    have hlength := length_run hrun
    omega
  · rcases hstart.run hfits hrun with ⟨actions, ended, h⟩
    exact h.complete hfits (h.done_of_stuck hfits hstuck)
  · have hidle : ∀ th ∈ (Crew.start config s).threads, th.stage = .idle := by
      intro th hmem
      rcases List.mem_map.1 hmem with ⟨t, _, rfl⟩
      rfl
    rcases hstart.exists_run hfits hidle (starts_start config s) with
      ⟨order, c, hrun, hdone, htallied⟩
    refine ⟨order, c, hrun, step_eq_none hdone, ?_⟩
    rw [List.map_map] at htallied
    exact htallied

/-- Two threads store two batches of three people each, of whom there are four. -/
theorem any_order_four :
    let config : WorkloadConfig :=
      { operations := 5, threads := 2, batchSize := 3, objectCount := 4 }
    config.Fits ∧ ∃ s,
      ({} : Engine Person).create (Person.schema [people, archive]) {} = .ok (0, s) ∧
      ∀ order c, (Crew.start config s).run 0 config order = some c →
        order.length ≤ 24 ∧ ((∀ k, c.step 0 config k = none) → c.tally = ⟨4, 0⟩ ∧
          ∃ st L, c.engine.stores[0]? = some st ∧
            Forest.Mirrors st.root.get? (Person.schema [people, archive]) L ∧
            ∀ table p o, L table p = some o ↔
              table = people ∧ p = o.id.bytes ∧ ∃ x < 4, o = sample x) := by
  intro config
  have hfits : config.Fits := by
    unfold WorkloadConfig.Fits
    decide
  have hsteps : config.threads * Workload.perThread config * (max 1 config.batchSize + 3) = 24 := by
    decide
  have hbatches : config.threads * (config.operations / config.threads) = 4 := by decide
  have hper : Workload.perThread config = 2 := by decide
  rcases any_order config hfits {} with ⟨s, hcreate, hany, _⟩
  refine ⟨hfits, s, hcreate, fun order c hrun => ?_⟩
  rcases hany order c hrun with ⟨hlength, hstuck⟩
  refine ⟨hsteps ▸ hlength, fun hk => ?_⟩
  rcases hstuck hk with ⟨htally, st, L, hst, hmirrors, hfills⟩
  refine ⟨hbatches ▸ htally, st, L, hst, hmirrors, fun table p o => (hfills table p o).trans ?_⟩
  refine and_congr_right fun _ => and_congr_right fun _ => ⟨?_, ?_⟩
  · rintro ⟨t, _, i, _, j, _, rfl⟩
    exact ⟨_, Nat.mod_lt _ (by decide), rfl⟩
  · -- the first thread stores the first three people, and then the last one
    rintro ⟨x, hx, rfl⟩
    have hturn : ∀ x < 4, ∃ i < 2, ∃ j < 3, (i * 3 + j) % 4 = x := by decide
    rcases hturn x hx with ⟨i, hi, j, hj, hx⟩
    refine ⟨0, by decide, i, hper ▸ hi, j, hj, ?_⟩
    rw [Nat.zero_mul, Nat.zero_add]
    exact congrArg sample hx.symm

end Crew

end SnapStore
