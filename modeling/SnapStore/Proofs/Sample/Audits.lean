import SnapStore.Proofs.Sample.Orders
import SnapStore.Sample.Workload

/-! # Audits of sample people

Every snapshot of a store of sample people has equally many of them in any two indexes with one
key for each person. A read transaction goes on to read what it read when it was opened, so it
does not matter what the writer does between two steps of a check, and no check fails, in whatever
order the parties have their turns. No reader has to wait either, so each of its checks is over
after four turns of its own.

Main statements: `Sampled.counts` (what a transaction sees), `Audit.Follows.turn` (what one turn
keeps), `Audit.checks_succeed` and `Workload.concurrentReads_succeed`.
-/

namespace SnapStore

open Person (people archive sample)
open Workload (perThread)

/-! ## Counting people -/

/-- A query for all people in an index lists so many. -/
def Txn.Counts (t : Txn Person) (index : String) (n : Nat) : Prop :=
  ∃ c found, Scan.all.within t.schema t.forest people index [] = .ok (c, found) ∧ found.length = n

theorem Txn.Counts.unique {t : Txn Person} {index : String} {n m : Nat} (h : t.Counts index n)
    (h' : t.Counts index m) : n = m := by
  rcases h with ⟨c, found, hwithin, rfl⟩
  rcases h' with ⟨c', found', hwithin', rfl⟩
  obtain ⟨rfl, rfl⟩ := Prod.mk.inj (Except.ok.inj (hwithin.symm.trans hwithin'))
  rfl

namespace Sampled

variable {actions : List (Action Person)} {id : Nat} {t : Txn Person}

/-- A transaction that is still written can store one sample person after another. -/
theorem exists_writeAll (h : Sampled actions) {store : Nat}
    (hw : (Chronicle.performAll {} actions).engine.Writes id store t) {xs : List Nat}
    (hxs : ∀ x ∈ xs, x < UInt64.size) :
    ∃ actions' t', Sampled actions' ∧
      (Chronicle.performAll {} actions').engine.Writes id store t' ∧
      (Chronicle.performAll {} actions).engine.run id
        (TxnM.writeAll ((xs.map sample).map (.insert people))) =
          some (.ok (), (Chronicle.performAll {} actions').engine) := by
  induction xs generalizing actions t with
  | nil =>
    rcases (Chronicle.sound_performAll actions).txns id t hw.txn with ⟨st, hst, _⟩
    have hnone : (Chronicle.performAll {} actions).engine.run id (TxnM.writeAll []) =
        some (.ok (), (Chronicle.performAll {} actions).engine.put id t.store ⟨t, st.stats⟩) :=
      Engine.run_eq_of_ok hw.txn hst rfl
    rw [Engine.put_self hw.txn hst] at hnone
    exact ⟨actions, t, h, hw, hnone⟩
  | cons x xs ih =>
    rcases (Chronicle.sound_performAll actions).txns id t hw.txn with ⟨st, hst, _⟩
    rcases h.exists_run_insert hw.txn hw.writing x st.stats with ⟨_, _, hinsert⟩
    have hkeeps := TxnM.keeps_write (.insert people (sample x))
    have hfirst : Sampled (actions ++ [.write id (.insert people (sample x))]) :=
      h.append (.insert id (hxs x List.mem_cons_self))
    have hgo := Engine.run_eq_of_ok hw.txn hst hinsert
    have hengine : (Chronicle.performAll {} actions).engine.next
        ((Chronicle.performAll {} actions).engine.run id
          (TxnM.write (.insert people (sample x)))) =
        (Chronicle.performAll {} (actions ++ [.write id (.insert people (sample x))])).engine := by
      rw [Chronicle.performAll_concat, Chronicle.engine_perform]
      rfl
    rcases hw.next_run hst hkeeps with ⟨t₁, hw₁⟩
    rw [hengine] at hw₁
    rw [hgo] at hengine
    have hlater (y : Nat) (hy : y ∈ xs) : y < UInt64.size := hxs y (List.mem_cons_of_mem _ hy)
    rcases ih hfirst hw₁ hlater with ⟨actions', t', hsampled, hw', hrest⟩
    refine ⟨actions', t', hsampled, hw', ?_⟩
    rw [List.map_cons, List.map_cons, TxnM.writeAll]
    rw [← hengine] at hrest
    exact (Engine.run_bind_of_ok hkeeps hw.txn hst hgo).trans hrest

/-- There are equally many people in both indexes. -/
theorem counts (h : Sampled actions)
    (ht : (Chronicle.performAll {} actions).engine.txns[id]? = some t) :
    ∃ n, t.Counts primaryName n ∧ t.Counts "email" n := by
  have hshows : (Chronicle.performAll {} actions).Shows t.schema t.forest
      ((Chronicle.performAll {} actions).seen id) := .inr ⟨id, t, ht, rfl, rfl, rfl⟩
  have hexact := hshows.exact h.nodup h.apart
  have htidy := hshows.tidy h.nodup
  have hapart := h.apart actions (List.prefix_refl _) _ _ _ hshows
  have hschema : t.schema = Person.schema [people, archive] := h.schema_eq hshows
  obtain ⟨byId, hbyId, hid⟩ : ∃ q, t.schema.resolve people primaryName [] = .ok q ∧
      q.index.indexer = .single (IdentifierIndex.field (some ·.id)) := by
    rw [hschema]
    exact ⟨_, rfl, rfl⟩
  obtain ⟨byEmail, hbyEmail, hemail⟩ : ∃ q, t.schema.resolve people "email" [] = .ok q ∧
      q.index.indexer = .single (TextIndex.single (some ·.email) true) := by
    rw [hschema]
    exact ⟨_, rfl, rfl⟩
  rcases hexact.within_nil htidy hapart hshows.wf hbyId with ⟨items, c, hitems, hwithin⟩
  rcases hexact.within_nil htidy hapart hshows.wf hbyEmail with ⟨items', c', hitems', hwithin'⟩
  have hlength : items.length = items'.length := by
    refine hitems.length_eq hitems' (fun p o _ => ⟨o.id.bytes, ?_⟩) fun p o ho => ?_
    · rw [hid]
      rfl
    · have hts : t.schema.table? people = some (Person.table people) := by
        rw [hschema]
        exact Person.table?_people
      rw [← hexact.stock people _ hts p] at ho
      rcases h.exists_sample hshows ho with ⟨x, rfl⟩
      exact ⟨_, hemail ▸ Person.keys_email x⟩
  refine ⟨items.length, ⟨c, _, hwithin, List.length_map _⟩, c', _, hwithin', ?_⟩
  rw [List.length_map, hlength]

/-- Nobody has to be there to be looked for. -/
theorem exists_first (h : Sampled actions)
    (ht : (Chronicle.performAll {} actions).engine.txns[id]? = some t) (u : Uuid) :
    ∃ answer, Scan.first.within t.schema t.forest people primaryName [.uuid u] = .ok answer := by
  have hshows : (Chronicle.performAll {} actions).Shows t.schema t.forest
      ((Chronicle.performAll {} actions).seen id) := .inr ⟨id, t, ht, rfl, rfl, rfl⟩
  obtain ⟨q, hq⟩ : ∃ q, t.schema.resolve people primaryName [.uuid u] = .ok q := by
    rw [h.schema_eq hshows]
    exact ⟨_, rfl⟩
  rcases Schema.resolve_spec hq with ⟨ts, hts, hi⟩
  rcases hshows.wf.exists_tree (Schema.mem_paths hts hi) with ⟨tree, htree, _⟩
  refine ⟨Scan.first.answer q tree, ?_⟩
  simp only [Scan.within, hq, htree]

end Sampled

/-! ## What the parties rely on -/

/-- A read transaction that has not ended. -/
structure Engine.Looks (s : Engine Person) (id : Nat) (t : Txn Person) : Prop where
  txn : s.txns[id]? = some t
  reading : t.write = false
  active : t.state = .active

namespace Checking

/-- A reader has a read transaction, and what it has counted is what it would count again. -/
def Holds (s : Engine Person) : Checking → Prop
  | .idle => True
  | .opened id | .found id => ∃ t, s.Looks id t
  | .counted id n => ∃ t, s.Looks id t ∧ t.Counts primaryName n

/-- Nothing that happens takes this from a reader. -/
theorem Holds.later {s s' : Engine Person} {stage : Checking} (h : stage.Holds s)
    (hextends : s.Extends s') : stage.Holds s' := by
  have hlater {id : Nat} {t : Txn Person} (ht : s.Looks id t) : ∃ changes deferred,
      s'.Looks id { t with changes := changes, deferred := deferred } := by
    rcases hextends.reads id t ht.txn ht.reading with ⟨changes, deferred, ht'⟩
    exact ⟨changes, deferred, ht', ht.reading, ht.active⟩
  cases stage with
  | idle => trivial
  | opened id | found id =>
    rcases h with ⟨t, ht⟩
    rcases hlater ht with ⟨changes, deferred, ht'⟩
    exact ⟨_, ht'⟩
  | counted id n =>
    rcases h with ⟨t, ht, hcounts⟩
    rcases hlater ht with ⟨changes, deferred, ht'⟩
    exact ⟨_, ht', hcounts⟩

end Checking

namespace Replacing

/-- The writer has the write transaction that it believes to have. -/
def Holds (s : Engine Person) : Replacing → Prop
  | .idle | .waiting => True
  | .deleting id | .inserting id | .committing id => ∃ t, s.Writes id 0 t

/-- What happens in other transactions does not take this from the writer. -/
theorem Holds.perform {s : Engine Person} {stage : Replacing} (h : stage.Holds s) (hs : s.Sound)
    {action : Action Person} (hother : ∀ id t, s.Writes id 0 t → action.actor? ≠ some id) :
    stage.Holds (s.perform action) := by
  cases stage with
  | idle | waiting => trivial
  | deleting id | inserting id | committing id =>
    rcases h with ⟨t, ht⟩
    exact ⟨t, hs.txns_perform ht.txn (hother id t ht), ht.store, ht.writing, ht.deferred⟩

end Replacing

/-! ## What readers have left to do -/

/-- How many steps a check has left. -/
def Checking.left : Checking → Nat
  | .idle => 4
  | .opened _ => 3
  | .found _ => 2
  | .counted _ _ => 1

/-- How many steps a reader has left. -/
def Checker.left (r : Checker) : Nat :=
  match r.positions with
  | [] => 0
  | _ :: positions => r.stage.left + 4 * positions.length

theorem Checker.left_idle (positions : List Nat) :
    left { positions := positions } = 4 * positions.length := by
  cases positions with
  | nil => rfl
  | cons i positions => exact (Nat.add_comm _ _).trans (Nat.mul_succ _ _).symm

theorem Checker.positions_eq_nil {r : Checker} (h : r.left = 0) : r.positions = [] := by
  rcases r with ⟨_ | ⟨i, positions⟩, stage⟩
  · rfl
  · cases stage <;> simp [Checker.left, Checking.left] at h

namespace Audit

variable {config : WorkloadConfig} {a a' : Audit} {k : Nat} {actions : List (Action Person)}
  {action : Action Person}

/-- The parties stand as after a run of actions. -/
structure Follows (a : Audit) (actions : List (Action Person)) : Prop where
  engine : (Chronicle.performAll {} actions).engine = a.engine
  sampled : Sampled actions
  store : ∃ st, a.engine.stores[0]? = some st
  writer : a.stage.Holds a.engine
  checkers : ∀ r ∈ a.checkers, r.stage.Holds a.engine

/-- A reader has made one step, and its check has not failed. -/
structure Advances (a : Audit) (k : Nat) (r : Checker) (a' : Audit) (r' : Checker) : Prop where
  checkers : a'.checkers = a.checkers.set k r'
  left : r'.left + 1 = r.left
  failed : a'.tally.failed = a.tally.failed
  successful : a'.tally.successful + r'.positions.length =
    a.tally.successful + r.positions.length

namespace Follows

theorem sound (h : a.Follows actions) : a.engine.Sound :=
  h.engine ▸ Chronicle.sound_performAll actions

theorem later (h : a.Follows actions) (action : Action Person) :
    a.engine.Extends (a.engine.perform action) :=
  h.sound.extends_perform action

/-- One more action. -/
theorem concat (h : a.Follows actions) (hengine : a'.engine = a.engine.perform action)
    (haction : Sampled [action]) (hwriter : a'.stage.Holds (a.engine.perform action))
    (hcheckers : ∀ r ∈ a'.checkers, r ∈ a.checkers ∨ r.stage.Holds (a.engine.perform action)) :
    a'.Follows (actions ++ [action]) where
  engine := by
    rw [Chronicle.performAll_concat, Chronicle.engine_perform, h.engine, hengine]
  sampled := h.sampled.append haction
  store := by
    rcases h.store with ⟨st, hst⟩
    rcases (h.later action).stores 0 st hst with ⟨st', hst', _⟩
    exact ⟨st', hengine ▸ hst'⟩
  writer := hengine ▸ hwriter
  checkers := by
    intro r hr
    rw [hengine]
    rcases hcheckers r hr with hmem | hholds
    · exact (h.checkers r hmem).later (h.later action)
    · exact hholds

/-! ## The writer -/

/-- The writer goes on, by one action. -/
theorem proceed (h : a.Follows actions) (action : Action Person) {stage : Replacing}
    (haction : Sampled [action]) (hwriter : stage.Holds (a.engine.perform action)) :
    (a.proceed stage (a.engine.perform action)).Follows (actions ++ [action]) :=
  h.concat rfl haction hwriter fun _ hr => .inl hr

/-- The writer is through with a person, by one action. -/
theorem replacedOne (h : a.Follows actions) (action : Action Person)
    (haction : Sampled [action]) :
    (a.replacedOne (a.engine.perform action)).Follows (actions ++ [action]) :=
  h.concat rfl haction trivial fun _ hr => .inl hr

/-- The writer writes and goes on, or it drops its transaction. -/
theorem write (h : a.Follows actions) {id : Nat} {t : Txn Person} (ht : a.engine.Writes id 0 t)
    {w : Write Person} {next : Replacing} (hstep : a.write id w next = some a')
    (hwrite : Sampled [.write id w]) (hnext : ∀ s t, s.Writes id 0 t → next.Holds s) :
    (∃ more, a'.Follows (actions ++ more)) ∧ a'.checkers = a.checkers ∧ a'.tally = a.tally := by
  have hproceed (stage : Replacing) (hstage : stage.Holds (a.engine.perform (.write id w))) :
      (a.proceed stage (a.engine.perform (.write id w))).Follows (actions ++ [.write id w]) :=
    h.proceed _ hwrite hstage
  have hengine {result : Except Error Unit} {s : Engine Person}
      (hrun : a.engine.run id (TxnM.write w) = some (result, s)) :
      s = a.engine.perform (.write id w) := by
    rw [Engine.perform, hrun]
    rfl
  unfold Audit.write at hstep
  split at hstep
  · cases hstep
  · obtain rfl := Option.some.inj hstep
    obtain rfl := hengine ‹_›
    rcases h.sound.txns id t ht.txn with ⟨st, hst, _⟩
    rcases ht.next_run hst (TxnM.keeps_write w) with ⟨t', ht'⟩
    exact ⟨⟨_, hproceed next (hnext _ t' ht')⟩, rfl, rfl⟩
  · obtain rfl := Option.some.inj hstep
    obtain rfl := hengine ‹_›
    have hdrop : Sampled [.drop id] := .of_other (by simp) (by simp)
    have hdropped := (hproceed .idle trivial).replacedOne (.drop id) hdrop
    rw [List.append_assoc] at hdropped
    exact ⟨⟨_, hdropped⟩, rfl, rfl⟩

/-- Whatever the writer does is a run of actions, and it leaves the readers as they are. -/
theorem replace (h : a.Follows actions) (hcount : config.objectCount ≤ UInt64.size)
    (hstep : a.replace 0 config = some a') :
    (∃ more, a'.Follows (actions ++ more)) ∧ a'.checkers = a.checkers ∧ a'.tally = a.tally := by
  have hwriter := h.writer
  have hinsert (id : Nat) :
      Sampled [.write id (.insert people (Workload.personAt config a.replaced))] := by
    have hlt : a.replaced % max 1 config.objectCount < max 1 config.objectCount :=
      Nat.mod_lt _ (Nat.lt_of_lt_of_le Nat.one_pos (Nat.le_max_left _ _))
    exact .insert id (Nat.lt_of_lt_of_le hlt (Nat.max_le.2 ⟨by decide, hcount⟩))
  unfold Audit.replace at hstep
  cases hstage : a.stage with
  | idle =>
    simp only [hstage] at hstep
    split at hstep
    · cases hstep
    · obtain rfl := Option.some.inj hstep
      exact ⟨⟨_, h.proceed (.requestWrite 0) (.of_other (by simp) (by simp)) trivial⟩, rfl, rfl⟩
  | waiting =>
    simp only [hstage] at hstep
    split at hstep
    · cases hstep
    · rename_i id s hturn
      obtain rfl := Option.some.inj hstep
      obtain rfl : s = a.engine.perform (.acquireWrite 0) := by
        rw [Engine.perform, hturn]
        rfl
      exact ⟨⟨_, h.proceed (.acquireWrite 0) (.of_other (by simp) (by simp))
        (Engine.exists_writes_acquireWrite hturn)⟩, rfl, rfl⟩
  | deleting id =>
    rw [hstage] at hwriter
    rcases hwriter with ⟨t, ht⟩
    simp only [hstage] at hstep
    exact h.write ht hstep (.of_other (by simp) (by simp)) fun _ t ht => ⟨t, ht⟩
  | inserting id =>
    rw [hstage] at hwriter
    rcases hwriter with ⟨t, ht⟩
    simp only [hstage] at hstep
    exact h.write ht hstep (hinsert id) fun _ t ht => ⟨t, ht⟩
  | committing id =>
    rw [hstage] at hwriter
    rcases hwriter with ⟨t, ht⟩
    simp only [hstage, ht.commit_eq] at hstep
    obtain rfl := Option.some.inj hstep
    exact ⟨⟨_, h.replacedOne (.commit id) (.of_other (by simp) (by simp))⟩, rfl, rfl⟩

/-! ## The readers -/

/-- A reader makes a step by one action, which is not made in the transaction of the writer. -/
theorem concat_reader (h : a.Follows actions) {r : Checker}
    (hengine : a'.engine = a.engine.perform action) (hstage : a'.stage = a.stage)
    (hcheckers : a'.checkers = a.checkers.set k r) (haction : Sampled [action])
    (hother : ∀ id t, a.engine.Writes id 0 t → action.actor? ≠ some id)
    (hholds : r.stage.Holds (a.engine.perform action)) : a'.Follows (actions ++ [action]) := by
  have hwriter := h.writer.perform h.sound hother
  refine h.concat hengine haction (hstage ▸ hwriter) fun r' hr' => ?_
  rw [hcheckers] at hr'
  rcases List.mem_or_eq_of_mem_set hr' with hmem | rfl
  · exact .inl hmem
  · exact .inr hholds

/-- A reader makes a step by a query in its transaction. -/
theorem queried (h : a.Follows actions) {id : Nat} {t : Txn Person} (ht : a.engine.Looks id t)
    {r : Checker} {scan : Scan} {table index : String} {args : List Arg}
    (hengine : a'.engine = a.engine.perform (.query id scan table index args))
    (hstage : a'.stage = a.stage) (hcheckers : a'.checkers = a.checkers.set k r)
    (hholds : r.stage.Holds a.engine) :
    a'.Follows (actions ++ [.query id scan table index args]) := by
  refine h.concat_reader hengine hstage hcheckers (.of_other (by simp) (by simp))
    (fun id' t' hwrites heq => ?_) (hholds.later (h.later _))
  -- the reader's transaction may not write
  obtain rfl : id = id' := Option.some.inj heq
  obtain rfl := Option.some.inj (ht.txn.symm.trans hwrites.txn)
  have hwriting := (Txn.isWriting_iff.1 hwrites.writing).1
  rw [ht.reading] at hwriting
  cases hwriting

/-- A reader that is left with a check never waits, and no check fails. -/
theorem check (h : a.Follows actions) (config : WorkloadConfig) {r : Checker}
    (hk : a.checkers[k]? = some r) (hleft : r.positions ≠ []) :
    ∃ a' r' action, a.check 0 config k = some a' ∧ a'.Follows (actions ++ [action]) ∧
      a.Advances k r a' r' := by
  have hholds := h.checkers r (List.mem_of_getElem? hk)
  rcases r with ⟨_ | ⟨i, positions⟩, stage⟩
  · exact absurd rfl hleft
  cases stage with
  | idle =>
    rcases h.store with ⟨st, hst⟩
    rcases Engine.openRead_eq hst with ⟨hopen, htxn⟩
    have hafter : (a.goOn k ⟨i :: positions, .opened a.engine.txns.length⟩
        (a.engine.perform (.openRead 0))).Follows (actions ++ [.openRead 0]) :=
      h.concat_reader rfl rfl rfl (.of_other (by simp) (by simp)) (by simp [Action.actor?])
        ⟨_, htxn, rfl, rfl⟩
    refine ⟨_, _, _, ?_, hafter, rfl, ?_, rfl, rfl⟩
    · simp only [Audit.check, hk, hopen]
    · simp only [Checker.left, Checking.left]
      omega
  | opened id =>
    rcases hholds with ⟨t, ht⟩
    rcases h.sampled.exists_first (h.engine ▸ ht.txn) (Workload.personAt config i).id with
      ⟨answer, hanswer⟩
    rcases h.sound.run_first ht.txn ht.active hanswer with ⟨found, hrun⟩
    have hafter : (a.goOn k ⟨i :: positions, .found id⟩ (a.engine.perform (.query id .first people
        primaryName [.uuid (Workload.personAt config i).id]))).Follows _ :=
      h.queried ht rfl rfl rfl ⟨t, ht⟩
    refine ⟨_, _, _, ?_, hafter, rfl, ?_, rfl, rfl⟩
    · simp only [Audit.check, Audit.read, hk, hrun]
    · simp only [Checker.left, Checking.left]
      omega
  | found id =>
    rcases hholds with ⟨t, ht⟩
    rcases h.sampled.counts (h.engine ▸ ht.txn) with ⟨n, hcounts, _⟩
    have hcounted := hcounts
    rcases hcounts with ⟨c, objects, hwithin, rfl⟩
    rcases h.sound.run_all ht.txn ht.active hwithin with ⟨found, rfl, hrun⟩
    have hafter : (a.goOn k ⟨i :: positions, .counted id found.objects.length⟩ (a.engine.perform
        (.query id .all people primaryName []))).Follows _ :=
      h.queried ht rfl rfl rfl ⟨t, ht, hcounted⟩
    refine ⟨_, _, _, ?_, hafter, rfl, ?_, rfl, rfl⟩
    · simp only [Audit.check, Audit.read, hk, hrun]
    · simp only [Checker.left, Checking.left]
      omega
  | counted id n =>
    rcases hholds with ⟨t, ht, hcounted⟩
    rcases h.sampled.counts (h.engine ▸ ht.txn) with ⟨m, hcounts, c, objects, hwithin, hlength⟩
    obtain rfl : n = m := hcounted.unique hcounts
    rcases h.sound.run_all ht.txn ht.active hwithin with ⟨found, rfl, hrun⟩
    have hafter : (a.finish k positions true (a.engine.perform
        (.query id .all people "email" []))).Follows _ :=
      h.queried ht rfl rfl rfl trivial
    refine ⟨_, _, _, ?_, hafter, rfl, ?_, rfl, ?_⟩
    · simp only [Audit.check, Audit.read, hk, hrun, hlength, beq_self_eq_true]
    · rw [Checker.left_idle]
      exact Nat.add_comm _ _
    · exact Nat.add_right_comm _ _ _

end Follows

/-! ## Turns -/

/-- How many checks there are, those that have succeeded and those that are left. -/
def checks (a : Audit) : Nat :=
  a.tally.successful + (a.checkers.map (·.positions.length)).sum

/-- No check has failed or got lost, and each reader has made as many steps as it had turns, up to
its end. -/
structure Progresses (a a' : Audit) (turns : Nat → Nat) : Prop where
  failed : a'.tally.failed = a.tally.failed
  checks : a'.checks = a.checks
  left : ∀ k, a'.checkers[k]?.map Checker.left = a.checkers[k]?.map fun r => r.left - turns k

namespace Progresses

variable {a'' : Audit} {turns turns' : Nat → Nat}

theorem of_same (hcheckers : a'.checkers = a.checkers) (htally : a'.tally = a.tally)
    (hturns : ∀ k r, a.checkers[k]? = some r → r.left - turns k = r.left) :
    a.Progresses a' turns where
  failed := by rw [htally]
  checks := by rw [Audit.checks, hcheckers, htally]; rfl
  left := by
    intro k
    rw [hcheckers]
    cases hk : a.checkers[k]? with
    | none => rfl
    | some r => exact congrArg some (hturns k r hk).symm

theorem trans (h : a.Progresses a' turns) (h' : a'.Progresses a'' turns') :
    a.Progresses a'' fun k => turns k + turns' k where
  failed := h'.failed.trans h.failed
  checks := h'.checks.trans h.checks
  left := by
    intro k
    have hlater (x : Option Checker) : (x.map fun r => r.left - turns' k) =
        (x.map Checker.left).map (· - turns' k) := by
      rw [Option.map_map]
      rfl
    rw [h'.left k, hlater, h.left k, Option.map_map]
    refine congrArg (Option.map · _) (funext fun r => ?_)
    exact Nat.sub_sub _ _ _

end Progresses

theorem Advances.progresses {r r' : Checker} (h : a.Advances k r a' r')
    (hk : a.checkers[k]? = some r) :
    a.Progresses a' fun j => [Party.checker k].count (.checker j) where
  failed := h.failed
  checks := by
    have hsum := sum_moved hk r' (·.positions.length)
    have hsuccessful := h.successful
    rw [Audit.checks, Audit.checks, h.checkers]
    omega
  left := by
    intro j
    rw [h.checkers]
    by_cases hj : j = k
    · subst hj
      rw [getElem?_moved hk, hk, List.count_singleton_self]
      exact congrArg some (Nat.eq_sub_of_add_eq h.left)
    · have hnone : [Party.checker k].count (.checker j) = 0 := by simp [Ne.symm hj]
      rw [List.getElem?_set_ne (Ne.symm hj), hnone]
      rfl

theorem check_eq_none {store : Nat}
    (hended : ∀ r, a.checkers[k]? = some r → r.positions = []) :
    a.check store config k = none := by
  cases hk : a.checkers[k]? with
  | none => simp only [Audit.check, hk]
  | some r =>
    rcases r with ⟨positions, stage⟩
    obtain rfl : positions = [] := hended _ hk
    simp only [Audit.check, hk]

namespace Follows

/-- One turn. -/
theorem turn (h : a.Follows actions) (hcount : config.objectCount ≤ UInt64.size) (p : Party) :
    (∃ more, (a.turn 0 config p).Follows (actions ++ more)) ∧
      a.Progresses (a.turn 0 config p) fun k => [p].count (.checker k) := by
  have hnothing : ∃ more, a.Follows (actions ++ more) := ⟨[], (List.append_nil actions).symm ▸ h⟩
  cases p with
  | writer =>
    have hturns (k : Nat) (r : Checker) (_ : a.checkers[k]? = some r) :
        r.left - [Party.writer].count (.checker k) = r.left := by simp
    cases hstep : a.replace 0 config with
    | none =>
      simp only [Audit.turn, Audit.step, hstep, Option.getD_none]
      exact ⟨hnothing, .of_same rfl rfl hturns⟩
    | some a' =>
      simp only [Audit.turn, Audit.step, hstep, Option.getD_some]
      rcases h.replace hcount hstep with ⟨hfollows, hcheckers, htally⟩
      exact ⟨hfollows, .of_same hcheckers htally hturns⟩
  | main =>
    have hturns (k : Nat) (r : Checker) (_ : a.checkers[k]? = some r) :
        r.left - [Party.main].count (.checker k) = r.left := by simp
    simp only [Audit.turn, Audit.step]
    split
    · exact ⟨⟨[], (List.append_nil actions).symm ▸
        ⟨h.engine, h.sampled, h.store, h.writer, h.checkers⟩⟩, .of_same rfl rfl hturns⟩
    · exact ⟨hnothing, .of_same rfl rfl hturns⟩
  | checker k =>
    by_cases hleft : ∃ r, a.checkers[k]? = some r ∧ r.positions ≠ []
    · rcases hleft with ⟨r, hk, hr⟩
      rcases h.check config hk hr with ⟨a', r', action, hstep, hfollows, hadvances⟩
      simp only [Audit.turn, Audit.step, hstep, Option.getD_some]
      exact ⟨⟨_, hfollows⟩, hadvances.progresses hk⟩
    · -- the reader has ended
      have hended (r : Checker) (hk : a.checkers[k]? = some r) : r.positions = [] :=
        Classical.byContradiction fun hr => hleft ⟨r, hk, hr⟩
      simp only [Audit.turn, Audit.step, check_eq_none hended, Option.getD_none]
      refine ⟨hnothing, .of_same rfl rfl fun j r hj => ?_⟩
      by_cases hjk : j = k
      · subst hjk
        rw [Checker.left, hended r hj]
        exact Nat.zero_sub _
      · simp [Ne.symm hjk]

theorem play (h : a.Follows actions) (hcount : config.objectCount ≤ UInt64.size)
    (order : List Party) : (∃ more, (a.play 0 config order).Follows (actions ++ more)) ∧
      a.Progresses (a.play 0 config order) fun k => order.count (.checker k) := by
  induction order generalizing a actions with
  | nil => exact ⟨⟨[], (List.append_nil actions).symm ▸ h⟩, .of_same rfl rfl fun _ _ _ => rfl⟩
  | cons p order ih =>
    rcases h.turn hcount p with ⟨⟨more, hfollows⟩, hfirst⟩
    rcases ih hfollows with ⟨⟨rest, hlast⟩, hrest⟩
    rw [List.append_assoc] at hlast
    refine ⟨⟨_, hlast⟩, ?_⟩
    have hturns (k : Nat) : [p].count (.checker k) + order.count (.checker k) =
        (p :: order).count (.checker k) :=
      (List.count_append : ([p] ++ order).count _ = _).symm
    have hboth := hfirst.trans hrest
    simp only [hturns] at hboth
    exact hboth

end Follows

/-! ## Any order -/

/-- Each reader begins with all of its checks. -/
theorem left_start {s : Engine Person} {r : Checker}
    (hk : (Audit.start config s).checkers[k]? = some r) :
    k < config.threads ∧ r.left = 4 * perThread config := by
  rcases List.getElem?_eq_some_iff.1 hk with ⟨hlt, rfl⟩
  refine ⟨by simpa [Audit.start] using hlt, ?_⟩
  simp [Audit.start, Checker.left_idle]

theorem checks_start (config : WorkloadConfig) (s : Engine Person) :
    (Audit.start config s).checks = config.threads * perThread config := by
  simp [checks, Audit.start, Function.comp_def]

/-- When all readers have ended, the checks are those that have succeeded. -/
theorem checks_of_ended (hended : ∀ r ∈ a.checkers, r.positions = []) :
    a.checks = a.tally.successful := by
  have hnone : a.checkers.map (·.positions.length) = a.checkers.map fun _ => 0 :=
    List.map_congr_left fun r hr => by rw [hended r hr, List.length_nil]
  rw [checks, hnone]
  simp

/-- The parties begin. -/
theorem follows_start (config : WorkloadConfig) {s : Engine Person}
    (hs : (Chronicle.performAll {} actions).engine = s) (hsampled : Sampled actions)
    (hstore : ∃ st, s.stores[0]? = some st) : (Audit.start config s).Follows actions := by
  refine ⟨hs, hsampled, hstore, trivial, fun r hr => ?_⟩
  rcases List.mem_map.1 hr with ⟨t, _, rfl⟩
  trivial

/-- Let people be stored by any run. Then let readers check what they read, while a writer
replaces one person after another, and give each of them a turn in any order. No check fails. And
when each reader has had four turns for each of its checks, all of them have succeeded. -/
theorem checks_succeed (config : WorkloadConfig) (hcount : config.objectCount ≤ UInt64.size)
    (hsampled : Sampled actions) {st : Store Person}
    (hst : (Chronicle.performAll {} actions).engine.stores[0]? = some st) (order : List Party) :
    let a := (Audit.start config (Chronicle.performAll {} actions).engine).play 0 config order
    a.tally.failed = 0 ∧
      ((∀ k < config.threads, 4 * perThread config ≤ order.count (.checker k)) →
        a.tally = ⟨config.threads * perThread config, 0⟩) := by
  intro a
  have hstart := follows_start config rfl hsampled ⟨st, hst⟩
  rcases hstart.play hcount order with ⟨_, hprogresses⟩
  have hfailed : a.tally.failed = 0 := hprogresses.failed
  refine ⟨hfailed, fun hturns => ?_⟩
  have hended : ∀ r ∈ a.checkers, r.positions = [] := by
    intro r hr
    rcases List.getElem?_of_mem hr with ⟨k, hk⟩
    have hleft := hprogresses.left k
    change a.checkers[k]?.map Checker.left = _ at hleft
    rw [hk] at hleft
    rcases Option.map_eq_some_iff.1 hleft.symm with ⟨r₀, hk₀, hr₀⟩
    rcases left_start hk₀ with ⟨hlt, hall⟩
    refine Checker.positions_eq_nil (hr₀.symm.trans ?_)
    rw [hall]
    exact Nat.sub_eq_zero_of_le (hturns k hlt)
  have hchecks := (checks_of_ended hended).symm.trans (hprogresses.checks.trans (checks_start _ _))
  rw [← hchecks, ← hfailed]

/-- Each reader has enough turns. -/
theorem count_rounds (config : WorkloadConfig) (hk : k < config.threads) :
    4 * perThread config ≤ (rounds config).count (.checker k) := by
  have hround : 0 < (Party.writer :: (List.range config.threads).map .checker).count
      (.checker k) := by
    refine List.count_pos_iff.2 (List.mem_cons_of_mem _ ?_)
    exact List.mem_map_of_mem (List.mem_range.2 hk)
  rw [rounds, List.count_append, List.count_flatten, List.map_replicate, List.sum_replicate_nat]
  exact Nat.le_add_right_of_le (Nat.le_mul_of_pos_right _ hround)

end Audit

namespace Workload

variable {config : WorkloadConfig}

/-- In a new store whoever asks gets its turn at once. -/
theorem exists_first_turn (settings : Settings) : ∃ s id t asked,
    ({} : Engine Person).create (Person.schema [people, archive]) settings = .ok (0, s) ∧
      (s.requestWrite 0).acquireWrite 0 = some (id, (Chronicle.performAll {} asked).engine) ∧
      Sampled asked ∧ (Chronicle.performAll {} asked).engine.Writes id 0 t := by
  rcases Crew.Follows.exists_create ⟨0, 0, 0, 0⟩ settings with ⟨s, hcreate, h⟩
  obtain ⟨id, s₁, hturn⟩ : ∃ id s₁, (s.requestWrite 0).acquireWrite 0 = some (id, s₁) :=
    h.exists_turn (by simp [Crew.start])
  rcases Engine.exists_writes_acquireWrite hturn with ⟨t, hwrites⟩
  have hrequest : Sampled [.requestWrite 0] := .of_other (by simp) (by simp)
  have hacquire : Sampled [.acquireWrite 0] := .of_other (by simp) (by simp)
  have hengine : (Chronicle.performAll {} ([.create (Person.schema [people, archive]) settings] ++
      [.requestWrite 0] ++ [.acquireWrite 0])).engine = s₁ := by
    rw [Chronicle.performAll_concat, Chronicle.performAll_concat, Chronicle.engine_perform,
      Chronicle.engine_perform, h.engine]
    change (s.requestWrite 0).next ((s.requestWrite 0).acquireWrite 0) = s₁
    rw [hturn]
    rfl
  subst hengine
  exact ⟨s, id, t, _, hcreate, hturn, (h.sampled.append hrequest).append hacquire, hwrites⟩

/-- In a new store all different people can be stored. -/
theorem exists_setup (hcount : config.objectCount ≤ UInt64.size) (settings : Settings) :
    ∃ s actions st, ({} : Engine Person).create (Person.schema [people, archive]) settings =
        .ok (0, s) ∧ Sampled actions ∧
      (Chronicle.performAll {} actions).engine.stores[0]? = some st ∧
      ofJob 0 (insertAll people (Person.samples config.objectCount)) s =
        (true, (Chronicle.performAll {} actions).engine) := by
  rcases exists_first_turn settings with ⟨s, id, t, asked, hcreate, hturn, hasked, hwrites⟩
  have hxs : ∀ x ∈ List.range config.objectCount, x < UInt64.size := fun x hx =>
    Nat.lt_of_lt_of_le (List.mem_range.1 hx) hcount
  rcases hasked.exists_writeAll hwrites hxs with ⟨actions, t', hsampled, hwrites', hrun⟩
  have hsound := Chronicle.sound_performAll actions
  obtain ⟨st, hst⟩ : ∃ st, (Chronicle.performAll {} actions).engine.stores[0]? = some st := by
    rcases hsound.txns id t' hwrites'.txn with ⟨st, hst, _⟩
    exact ⟨st, hwrites'.store ▸ hst⟩
  rcases (hsound.extends_perform (.commit id)).stores 0 st hst with ⟨st', hst', _⟩
  refine ⟨s, actions ++ [.commit id], st', hcreate,
    hsampled.append (.of_other (by simp) (by simp)), ?_, ?_⟩
  · rw [Chronicle.performAll_concat, Chronicle.engine_perform]
    exact hst'
  · rw [Chronicle.performAll_concat, Chronicle.engine_perform]
    simp only [ofJob, insertAll, Person.samples, Engine.runJob, Engine.takeTurn, hturn, hrun,
      hwrites'.commitWrites_eq, Engine.runDeferred]
    rfl

/-- In a new store, with readers and the writer taking turns, all checks succeed. -/
theorem concurrentReads_succeed (hcount : config.objectCount ≤ UInt64.size) (settings : Settings) :
    ∃ s, ({} : Engine Person).create (Person.schema [people, archive]) settings = .ok (0, s) ∧
      (concurrentReads 0 config s).1 = ⟨config.threads * perThread config, 0⟩ := by
  rcases exists_setup hcount settings with ⟨s, actions, st, hcreate, hsampled, hst, hsetup⟩
  refine ⟨s, hcreate, ?_⟩
  rw [concurrentReads, afterSetup, hsetup]
  exact (Audit.checks_succeed config hcount hsampled hst (Audit.rounds config)).2
    fun k hk => Audit.count_rounds config hk

end Workload

end SnapStore
