import SnapStore.Proofs.Engine.Jobs
import SnapStore.Proofs.Engine.Serial

/-! # Deferred jobs in the course of time

A commit runs the deferred jobs of its transaction, the last one first. A job may run write
transactions of its own, which defer jobs and commit while the first commit is still running its
own, to any depth. The course of a commit tells all that happens in the order of time: which
transactions are committed, which jobs start and what they find, and what they leave behind.

Main statements: `runDeferred_eq` (the course tells what the engine does), `Passes.append` and
`passes_deferred` (what jobs keep to), and `deferred_run_last_first`.
-/

namespace SnapStore

variable {α : Type}

/-! ## Courses -/

/-- What happens while jobs run. -/
inductive Moment (α : Type) where
  /-- A write transaction is committed, with this work and these deferred jobs. -/
  | commit (txn : Nat) (work : Work α) (deferred : List (Job α))
  /-- A job that was deferred in the transaction starts, and finds the engine like this. -/
  | start (txn : Nat) (job : Job α) (found : Engine α)
  /-- A job leaves something behind. -/
  | event (e : Event)

namespace Moment

/-- What is left behind. -/
def event? : Moment α → Option Event
  | event e => some e
  | _ => none

/-- The work that is committed. -/
def work? : Moment α → Option (Work α)
  | commit _ work _ => some work
  | _ => none

/-- The job of the transaction that starts. -/
def job? (txn : Nat) : Moment α → Option (Job α)
  | start n job _ => if n = txn then some job else none
  | _ => none

end Moment

/-- What happened, in the order of time. -/
abbrev Course (α : Type) := List (Moment α)

namespace Course

/-- What was left behind. -/
def events (course : Course α) : List Event :=
  course.filterMap Moment.event?

/-- The work of the transactions that were committed. -/
def works (course : Course α) : List (Work α) :=
  course.filterMap Moment.work?

/-- The jobs of a transaction that were started. -/
def started (course : Course α) (txn : Nat) : List (Job α) :=
  course.filterMap (Moment.job? txn)

theorem works_append (course more : Course α) :
    works (course ++ more) = course.works ++ works more :=
  List.filterMap_append

theorem started_append (course more : Course α) (txn : Nat) :
    started (course ++ more) txn = course.started txn ++ started more txn :=
  List.filterMap_append

/-- A transaction of which no job was started. -/
theorem started_eq_nil {course : Course α} {txn : Nat}
    (h : ∀ job found, .start txn job found ∉ course) : course.started txn = [] := by
  refine List.filterMap_eq_nil_iff.2 fun m hm => ?_
  cases m with
  | start n job found =>
    refine if_neg ?_
    rintro rfl
    exact h job found hm
  | commit n work deferred => rfl
  | event e => rfl

/-- A moment of one course after another is in the first one or in the second one. -/
theorem eq_append_cons_cases {course more earlier later : Course α} {m : Moment α}
    (h : course ++ more = earlier ++ m :: later) :
    (∃ rest, course = earlier ++ m :: rest) ∨
      ∃ front, earlier = course ++ front ∧ more = front ++ m :: later := by
  rcases List.append_eq_append_iff.1 h with ⟨front, hearlier, hmore⟩ | ⟨rest, hcourse, hrest⟩
  · exact .inr ⟨front, hearlier, hmore⟩
  · cases rest with
    | nil => exact .inr ⟨[], by simpa using hcourse.symm, by simpa using hrest.symm⟩
    | cons m' rest =>
      obtain ⟨rfl, -⟩ := List.cons.inj hrest
      exact .inl ⟨rest, hcourse⟩

end Course

namespace Engine

mutual

/-- The course of a job, with the engine after it. -/
def courseOfJob (store : Nat) : Job α → Engine α → Course α × Engine α
  | .note label, s => ([.event (.note label)], s)
  | .count table, s =>
    let (event, s) := s.countTable store table
    ([.event event], s)
  | .all jobs, s => courseOfJobs store jobs s
  | .write writes deferred ending, s =>
    let work := ⟨s.board.named, writes⟩
    match (s.requestWrite store).takeTurn store (TxnM.writeAll writes) with
    | none => ([.event .blocked], s)
    | some (.error e, s) => ([.event (.wrote (.error e))], s)
    | some (.ok (id, ()), s) =>
      match ending with
      | .abort => ([.event (.wrote (.ok ()))], s.abortWrites id store)
      | .commit =>
        let (course, s) := courseOfDeferred store id deferred (s.commitWrites id store)
        (.commit id work deferred :: (course ++ [.event (.wrote (.ok ()))]), s)

/-- The course of jobs one after another. -/
def courseOfJobs (store : Nat) : List (Job α) → Engine α → Course α × Engine α
  | [], s => ([], s)
  | job :: jobs, s =>
    let (course, s) := courseOfJob store job s
    let (more, s) := courseOfJobs store jobs s
    (course ++ more, s)

/-- The course of the deferred jobs of a transaction. -/
def courseOfDeferred (store txn : Nat) : List (Job α) → Engine α → Course α × Engine α
  | [], s => ([], s)
  | job :: jobs, s =>
    let (course, s) := courseOfDeferred store txn jobs s
    let (more, s') := courseOfJob store job s
    (course ++ .start txn job s :: more, s')

end

/-- The course of the commit of a writer that did this work. -/
def courseOfCommit (s : Engine α) (id : Nat) (t : Txn α) (work : Work α) :
    Course α × Engine α :=
  let (course, s) := courseOfDeferred t.store id t.deferred (s.commitOne id)
  (.commit id work t.deferred :: course, s)

/-! ## The course of a job is what the job does -/

mutual

theorem runJob_eq (store : Nat) : ∀ (job : Job α) (s : Engine α),
    runJob store job s = ((courseOfJob store job s).1.events, (courseOfJob store job s).2)
  | .note label, s => by
    rw [runJob, courseOfJob]
    rfl
  | .count table, s => by
    rw [runJob, courseOfJob]
    rfl
  | .all jobs, s => by
    rw [runJob, courseOfJob]
    exact runJobs_eq store jobs s
  | .write writes deferred ending, s => by
    rw [runJob, courseOfJob]
    cases (s.requestWrite store).takeTurn store (TxnM.writeAll writes) with
    | none => rfl
    | some x =>
      rcases x with ⟨_ | ⟨id, _⟩, s'⟩
      · rfl
      · cases ending with
        | abort => rfl
        | commit =>
          dsimp only
          rw [runDeferred_eq store id deferred]
          simp [Course.events, Moment.event?, List.filterMap_cons]

theorem runJobs_eq (store : Nat) : ∀ (jobs : List (Job α)) (s : Engine α),
    runJobs store jobs s = ((courseOfJobs store jobs s).1.events, (courseOfJobs store jobs s).2)
  | [], s => by
    rw [runJobs, courseOfJobs]
    rfl
  | job :: jobs, s => by
    rw [runJobs, courseOfJobs, runJob_eq store job s]
    dsimp only
    rw [runJobs_eq store jobs]
    simp [Course.events]

theorem runDeferred_eq (store txn : Nat) : ∀ (jobs : List (Job α)) (s : Engine α),
    runDeferred store jobs s =
      ((courseOfDeferred store txn jobs s).1.events, (courseOfDeferred store txn jobs s).2)
  | [], s => by
    rw [runDeferred, courseOfDeferred]
    rfl
  | job :: jobs, s => by
    rw [runDeferred, courseOfDeferred, runDeferred_eq store txn jobs s]
    dsimp only
    rw [runJob_eq store job]
    simp [Course.events, Moment.event?, List.filterMap_cons]

end

/-! ## Turns -/

variable {s s' : Engine α} {store id : Nat} {st st' : Store α} {t : Txn α}

/-- The store has no writer, so whoever asks is let in. -/
structure Free (s : Engine α) (store : Nat) (st : Store α) : Prop where
  sound : s.Sound
  store : s.stores[store]? = some st
  idle : st.writer = none

/-- An operation of a transaction that is there leaves its session in place. -/
theorem exists_run {β : Type} (op : TxnM α β) (ht : s.txns[id]? = some t)
    (hst : s.stores[t.store]? = some st) :
    ∃ result session, s.run id op = some (result, s.put id t.store session) ∧
      session = op.leaves ⟨t, st.stats⟩ ∧
      ∀ b, result = .ok b → op.run ⟨t, st.stats⟩ = .ok b session := by
  simp only [Engine.run, ht, hst, TxnM.leaves]
  cases op.run ⟨t, st.stats⟩ with
  | ok b session =>
    refine ⟨.ok b, session, rfl, rfl, fun b' heq => ?_⟩
    rw [Except.ok.inj heq]
  | error e session =>
    refine ⟨.error e, session, rfl, rfl, fun b heq => ?_⟩
    cases heq

theorem stores_put (id : Nat) (hst : s.stores[store]? = some st) (session : Session α) :
    (s.put id store session).stores[store]? = some { st with stats := session.stats } :=
  stores_updateStore_self hst

/-- A table can be counted at any time, and nothing changes by it. -/
theorem Free.countTable (h : s.Free store st) (table : String) :
    ∃ result s' st', s.countTable store table = (.counted result, s') ∧ s'.Free store st' ∧
      st.Stays st' := by
  have hsound := (h.sound.reaches_countTable store table).sound h.sound
  rcases openRead_eq h.store with ⟨hopen, ht⟩
  have hst : (s.perform (.openRead store)).stores[store]? = some { st with
      stats := { st.stats with readTxns := st.stats.readTxns + 1 } } := by
    simp only [Engine.perform, Engine.openRead, h.store]
    exact stores_updateStore_self h.store
  rcases exists_run (TxnM.all table primaryName []) ht hst with ⟨result, session, hrun, -, -⟩
  have hcount : s.countTable store table = (.counted (result.map (·.objects.length)),
      (s.perform (.openRead store)).put s.txns.length store session) := by
    simp only [Engine.countTable, hopen, hrun]
    rfl
  rw [hcount] at hsound
  exact ⟨_, _, _, hcount, ⟨hsound, stores_put _ hst session, h.idle⟩, rfl, rfl, rfl⟩

/-- What comes of a turn of a writer. -/
inductive Turn (s : Engine α) (store : Nat) (st : Store α) (writes : List (Write α))
    (s' : Engine α) : Except Error (Nat × Unit) → Prop
  /-- One of the writes failed, and the transaction has been dropped. -/
  | failed {e : Error} {st' : Store α} (hfree : s'.Free store st') (hstays : st.Stays st') :
    Turn s store st writes s' (.error e)
  /-- The transaction is new, has made all writes, and is still open. -/
  | done {t : Txn α} {st' : Store α} (hsound : s'.Sound)
    (hwrites : s'.Writes s.txns.length store t) (hst : s'.stores[store]? = some st')
    (hstays : st.Stays st')
    (halike : ((st.newWriter 0 s.board.named).does writes).Alike t) :
    Turn s store st writes s' (.ok (s.txns.length, ()))

/-- Writes that all succeed come to the same as one after another. -/
theorem alike_does_writeAll (ws : List (Write α)) {session session' : Session α} {u : Unit}
    (hok : (TxnM.writeAll ws).run session = .ok u session') :
    (session.txn.does ws).Alike session'.txn := by
  induction ws generalizing session with
  | nil =>
    cases hok
    exact ⟨_, _, _, rfl⟩
  | cons w ws ih =>
    have hfirst := (show session.txn.Alike session.txn from ⟨_, _, _, rfl⟩).write w {}
      session.stats
    simp only [TxnM.writeAll, TxnM.run_bind] at hok
    cases hw : (TxnM.write w).run session with
    | error e after => simp [hw] at hok
    | ok b after =>
      simp only [hw] at hok
      rw [TxnM.leaves, TxnM.leaves, hw] at hfirst
      exact (hfirst.does ws).trans (ih hok)

/-- A writer that has written is still open, with its session in place. -/
theorem Writes.put (h : s.Writes id store t) (hs : s.Sound) (hst : s.stores[store]? = some st)
    {writes : List (Write α)} {result : Except Error Unit} {session : Session α}
    (hrun : s.run id (TxnM.writeAll writes) = some (result, s.put id store session)) :
    (s.put id store session).Sound ∧ (s.put id store session).Writes id store session.txn := by
  have hsound := (hs.reaches_writeAll id writes).sound hs
  obtain rfl := h.store
  rcases h.next_run hst (TxnM.keeps_writeAll writes) with ⟨t', hwrites⟩
  rw [hrun] at hsound hwrites
  have hself : (s.put id t.store session).txns[id]? = some session.txn := txns_updateTxn_self h.txn
  obtain rfl : session.txn = t' := Option.some.inj (hself.symm.trans hwrites.txn)
  exact ⟨hsound, hwrites⟩

/-- A writer that is dropped lets the next one in, over the contents that were there before. -/
theorem Writes.free_drop (h : s.Writes id store t) (hs : s.Sound)
    (hst : s.stores[store]? = some st') (hstays : st.Stays st') :
    ∃ st'', (s.drop id).Free store st'' ∧ st.Stays st'' := by
  obtain rfl := h.store
  exact ⟨_, ⟨hs.drop id, stores_drop_self h.txn h.writing hst, rfl⟩, hstays.schema,
    hstays.primary, hstays.root⟩

/-- When the writer of a store has been committed, the store has its work and no writer. -/
theorem Writes.free_commitWrites (h : s.Writes id store t) (hs : s.Sound)
    (hst : s.stores[store]? = some st') (hstays : st.Stays st') (work : Work α)
    (halike : ((st.newWriter 0 work.name).does work.writes).Alike t) :
    ∃ st'', (s.commitWrites id store).Free store st'' ∧ (st.serve work).Stays st'' := by
  rw [h.commitWrites_eq]
  obtain rfl := h.store
  exact ⟨_, ⟨hs.perform _, stores_commitOne_self h.txn h.writing hst, rfl⟩, hstays.schema,
    hstays.primary, halike.published_eq⟩

/-- A waiting writer gets its turn at a store without a writer. -/
theorem Free.acquireWrite (h : s.Free store st) :
    ∃ s₁ st₁, (s.requestWrite store).acquireWrite store = some (s.txns.length, s₁) ∧ s₁.Sound ∧
      s₁.Writes s.txns.length store (st.newWriter store s.board.named) ∧
      s₁.stores[store]? = some st₁ ∧ st.Stays st₁ := by
  have hst : (s.requestWrite store).stores[store]? = some { st with
      stats := { st.stats with writeTxns := st.stats.writeTxns + 1 }
      waiting := st.waiting + 1 } := stores_updateStore_self h.store
  have hsound := (h.sound.requestWrite store).acquireWrite store
  have hacquire : (s.requestWrite store).acquireWrite store = some (s.txns.length,
      (((s.requestWrite store).updateStore store fun st =>
        { st with writer := some s.txns.length, waiting := st.waiting - 1 }).addTxn
          (st.newWriter store)).2) := by
    simp only [Engine.acquireWrite, hst, h.idle]
    rfl
  rw [hacquire] at hsound
  exact ⟨_, _, hacquire, hsound, ⟨getElem?_concat_iff.2 (.inr ⟨rfl, rfl⟩), rfl, rfl, rfl⟩,
    stores_updateStore_self hst, rfl, rfl, rfl⟩

/-- A store without a writer gives a waiting writer its turn. -/
theorem Free.takeTurn (h : s.Free store st) (writes : List (Write α)) :
    ∃ x s', (s.requestWrite store).takeTurn store (TxnM.writeAll writes) = some (x, s') ∧
      s.Turn store st writes s' x := by
  rcases h.acquireWrite with ⟨s₁, st₁, hacquire, hs₁, ht₁, hst₁, hstays⟩
  rcases exists_run (TxnM.writeAll writes) ht₁.txn hst₁ with
    ⟨result, session, hrun, -, hok⟩
  rcases ht₁.put hs₁ hst₁ hrun with ⟨hs₂, ht₂⟩
  have hst₂ := stores_put s.txns.length hst₁ session
  have hstays₂ : st.Stays { st₁ with stats := session.stats } :=
    ⟨hstays.schema, hstays.primary, hstays.root⟩
  cases result with
  | error e =>
    -- the transaction of the job is dropped, which lets the next writer in
    rcases ht₂.free_drop hs₂ hst₂ hstays₂ with ⟨st', hfree, hstays'⟩
    refine ⟨.error e, _, ?_, .failed hfree hstays'⟩
    simp only [Engine.takeTurn, hacquire, hrun]
    rfl
  | ok u =>
    refine ⟨.ok (s.txns.length, u), _, ?_, .done hs₂ ht₂ hst₂ hstays₂ ?_⟩
    · simp only [Engine.takeTurn, hacquire, hrun]
      rfl
    · have hsame := ((Store.Stays.refl st).alike_newWriter 0 store s.board.named).does writes
      exact hsame.trans (alike_does_writeAll writes (hok u rfl))

/-! ## What jobs keep to -/

theorem serve_stays {st st' : Store α} (h : st.Stays st') (work : Work α) :
    (st.serve work).Stays (st'.serve work) :=
  ⟨h.schema, h.primary, ((h.alike_newWriter 0 0 work.name).does work.writes).published_eq⟩

theorem serveAll_stays {st st' : Store α} (h : st.Stays st') (works : List (Work α)) :
    (st.serveAll works).Stays (st'.serveAll works) := by
  induction works generalizing st st' with
  | nil => exact h
  | cons work works ih => exact ih (serve_stays h work)

/-- The engine has a store without a writer, with the contents that the committed work makes of
those of `st`. -/
def Finds (s : Engine α) (store : Nat) (st : Store α) (works : List (Work α)) : Prop :=
  ∃ st', s.Free store st' ∧ (st.serveAll works).Stays st'

/-- What is found after one course and then another. -/
theorem Finds.after (course : Course α) {more : Course α} {st₁ : Store α}
    (h : s.Finds store st₁ more.works)
    (hst₁ : (st.serveAll course.works).Stays st₁) :
    s.Finds store st (Course.works (course ++ more)) := by
  rcases h with ⟨st', hfree, hstays⟩
  refine ⟨st', hfree, ?_⟩
  rw [Course.works_append, Store.serveAll, List.foldl_append]
  exact (serveAll_stays hst₁ more.works).trans hstays

/-- In this course jobs lead to the engine `s'`, from contents as in `st`. The transactions in `P`
were committed before it began, and their deferred jobs are among those that are run. Those
from the position `low` on are new. -/
structure Passes (P : Nat → Prop) (store low : Nat) (st : Store α) (course : Course α)
    (s' : Engine α) : Prop where
  before : ∀ n, P n → n < low
  grows : low ≤ s'.txns.length
  finds : s'.Finds store st course.works
  /-- Each transaction that is committed is a new one, and its jobs are run once each, the last
  one first. -/
  commits : ∀ n work deferred, .commit n work deferred ∈ course →
    low ≤ n ∧ n < s'.txns.length ∧ course.started n = deferred.reverse
  /-- A job starts after the commit of its transaction, and finds all that was committed. -/
  starts : ∀ (earlier : Course α) n job found (later : Course α),
    course = earlier ++ .start n job found :: later →
    (P n ∨ ∃ work deferred, .commit n work deferred ∈ earlier) ∧
      found.Finds store st earlier.works
  unblocked : .event .blocked ∉ course

namespace Passes

variable {P : Nat → Prop} {low n : Nat} {course more : Course α} {s₁ : Engine α} {st₁ : Store α}
  {job : Job α} {found : Engine α}

/-- Whose jobs start was committed before the course, or in it. -/
theorem committed_of_start (h : Passes P store low st course s')
    (hstart : .start n job found ∈ course) :
    P n ∨ ∃ work deferred, .commit n work deferred ∈ course := by
  rcases List.append_of_mem hstart with ⟨earlier, later, hsplit⟩
  refine (h.starts earlier n job found later hsplit).1.imp_right ?_
  rintro ⟨work, deferred, hc⟩
  exact ⟨work, deferred, hsplit ▸ List.mem_append_left _ hc⟩

theorem lt_of_start (h : Passes P store low st course s') (hstart : .start n job found ∈ course) :
    n < s'.txns.length := by
  rcases h.committed_of_start hstart with hP | ⟨work, deferred, hc⟩
  · exact Nat.lt_of_lt_of_le (h.before n hP) h.grows
  · exact (h.commits n work deferred hc).2.1

/-- Of no other transaction a job is started. -/
theorem started_eq_nil (h : Passes P store low st course s') (hP : ¬ P n) (hn : n < low) :
    course.started n = [] := by
  refine Course.started_eq_nil fun job found hstart => ?_
  rcases h.committed_of_start hstart with hbefore | ⟨work, deferred, hc⟩
  · exact hP hbefore
  · exact absurd hn (Nat.not_lt.2 (h.commits n work deferred hc).1)

/-- A course in which nothing is committed and no job starts. -/
theorem event {e : Event} (hgrows : low ≤ s'.txns.length)
    (hfinds : ∃ st', s'.Free store st' ∧ st.Stays st') (he : e ≠ .blocked) :
    Passes (fun _ => False) store low st [.event e] s' where
  before := nofun
  grows := hgrows
  finds := hfinds
  commits := by simp
  starts := by
    intro earlier n job found later hsplit
    have hmem : .start n job found ∈ ([.event e] : Course α) := by simp [hsplit]
    simp at hmem
  unblocked := by simpa using Ne.symm he

theorem nil (h : s.Free store st) (hP : ∀ n, P n → n < s.txns.length) :
    Passes P store s.txns.length st [] s where
  before := hP
  grows := Nat.le_refl _
  finds := ⟨st, h, .refl st⟩
  commits := nofun
  starts := by simp
  unblocked := nofun

/-- One course after another. -/
theorem append (h : Passes P store low st course s₁) (hst₁ : (st.serveAll course.works).Stays st₁)
    (hmore : Passes P store s₁.txns.length st₁ more s') :
    Passes P store low st (course ++ more) s' where
  before := h.before
  grows := Nat.le_trans h.grows hmore.grows
  finds := hmore.finds.after _ hst₁
  commits := by
    intro n work deferred hc
    rw [Course.started_append]
    rcases List.mem_append.1 hc with hc | hc
    · -- a transaction that was committed before the second course starts has no jobs in it
      rcases h.commits n work deferred hc with ⟨hlow, hhigh, hstarted⟩
      have hP : ¬ P n := fun hP => absurd (h.before n hP) (Nat.not_lt.2 hlow)
      rw [hmore.started_eq_nil hP hhigh, List.append_nil]
      exact ⟨hlow, Nat.lt_of_lt_of_le hhigh hmore.grows, hstarted⟩
    · rcases hmore.commits n work deferred hc with ⟨hlow, hhigh, hstarted⟩
      have hnone : course.started n = [] := Course.started_eq_nil fun job found hstart =>
        absurd (h.lt_of_start hstart) (Nat.not_lt.2 hlow)
      rw [hnone, List.nil_append]
      exact ⟨Nat.le_trans h.grows hlow, hhigh, hstarted⟩
  starts := by
    intro earlier n job found later hsplit
    rcases Course.eq_append_cons_cases hsplit with ⟨rest, hcourse⟩ | ⟨front, rfl, hmore'⟩
    · exact h.starts earlier n job found rest hcourse
    · rcases hmore.starts front n job found later hmore' with ⟨hcommitted, hfinds⟩
      refine ⟨hcommitted.imp_right ?_, hfinds.after _ hst₁⟩
      exact fun ⟨work, deferred, hc⟩ => ⟨work, deferred, List.mem_append_right _ hc⟩
  unblocked := by
    intro hblocked
    rcases List.mem_append.1 hblocked with hblocked | hblocked
    · exact h.unblocked hblocked
    · exact hmore.unblocked hblocked

/-- A job of a transaction that was committed before starts. -/
theorem start {txn : Nat} (hfree : s.Free store st)
    (h : Passes (fun _ => False) store s.txns.length st course s') (htxn : txn < s.txns.length)
    (job : Job α) :
    Passes (· = txn) store s.txns.length st (.start txn job s :: course) s' where
  before := fun _ heq => heq ▸ htxn
  grows := h.grows
  finds := h.finds
  commits := by
    intro n work deferred hc
    rcases List.mem_cons.1 hc with heq | hc
    · cases heq
    · rcases h.commits n work deferred hc with ⟨hlow, hhigh, hstarted⟩
      have hother : Moment.job? n (.start txn job s) = none :=
        if_neg (Nat.ne_of_lt (Nat.lt_of_lt_of_le htxn hlow))
      refine ⟨hlow, hhigh, ?_⟩
      rw [Course.started, List.filterMap_cons_none hother]
      exact hstarted
  starts := by
    intro earlier n job' found later hsplit
    cases earlier with
    | nil =>
      obtain ⟨rfl, rfl, rfl⟩ := Moment.start.inj (List.cons.inj hsplit).1
      exact ⟨.inl rfl, st, hfree, .refl st⟩
    | cons m earlier =>
      obtain ⟨rfl, hrest⟩ := List.cons.inj hsplit
      rcases h.starts earlier n job' found later hrest with ⟨hcommitted, hfinds⟩
      refine ⟨.inr ?_, hfinds⟩
      rcases hcommitted.resolve_left id with ⟨work, deferred, hc⟩
      exact ⟨work, deferred, List.mem_cons_of_mem _ hc⟩
  unblocked := by
    intro hblocked
    rcases List.mem_cons.1 hblocked with heq | hblocked
    · cases heq
    · exact h.unblocked hblocked

/-- A transaction is committed, and its deferred jobs are run. -/
theorem commit (work : Work α) {deferred : List (Job α)} {high : Nat}
    (h : Passes (· = n) store high st₁ course s') (hlow : low ≤ n)
    (hst₁ : (st.serve work).Stays st₁) (hstarted : course.started n = deferred.reverse) :
    Passes (fun _ => False) store low st (.commit n work deferred :: course) s' where
  before := nofun
  grows := Nat.le_trans hlow (Nat.le_trans (Nat.le_of_lt (h.before n rfl)) h.grows)
  finds := h.finds.after [.commit n work deferred] hst₁
  commits := by
    intro n' work' deferred' hc
    rcases List.mem_cons.1 hc with heq | hc
    · obtain ⟨rfl, rfl, rfl⟩ := Moment.commit.inj heq
      exact ⟨hlow, Nat.lt_of_lt_of_le (h.before n' rfl) h.grows, hstarted⟩
    · rcases h.commits n' work' deferred' hc with ⟨hhigh, hlt, hstarted'⟩
      exact ⟨Nat.le_trans hlow (Nat.le_trans (Nat.le_of_lt (h.before n rfl)) hhigh), hlt,
        hstarted'⟩
  starts := by
    intro earlier n' job found later hsplit
    cases earlier with
    | nil => cases (List.cons.inj hsplit).1
    | cons m earlier =>
      obtain ⟨rfl, hrest⟩ := List.cons.inj hsplit
      rcases h.starts earlier n' job found later hrest with ⟨hcommitted, hfinds⟩
      refine ⟨.inr ?_, hfinds.after [.commit n work deferred] hst₁⟩
      rcases hcommitted with rfl | ⟨work', deferred', hc⟩
      · exact ⟨work, deferred, List.mem_cons_self⟩
      · exact ⟨work', deferred', List.mem_cons_of_mem _ hc⟩
  unblocked := by
    intro hblocked
    rcases List.mem_cons.1 hblocked with heq | hblocked
    · cases heq
    · exact h.unblocked hblocked

end Passes

/-- No transaction gets lost in a job. -/
theorem Free.grows_job (h : s.Free store st) (job : Job α) :
    s.txns.length ≤ (courseOfJob store job s).2.txns.length := by
  rcases h.sound.reaches_runJob store job with ⟨actions, heq⟩
  rw [runJob_eq] at heq
  rw [heq]
  exact (h.sound.extends_performAll actions).length

mutual

/-- What a job keeps to, and all jobs that are deferred in its course. -/
theorem passes_job (store : Nat) : ∀ (job : Job α) {s : Engine α} {st : Store α},
    s.Free store st →
      Passes (fun _ => False) store s.txns.length st (courseOfJob store job s).1
        (courseOfJob store job s).2
  | .note label, s, st, h => by
    rw [courseOfJob]
    exact .event (Nat.le_refl _) ⟨st, h, .refl st⟩ (by simp)
  | .count table, s, st, h => by
    have hgrows := h.grows_job (.count table)
    rcases h.countTable table with ⟨result, s', st', hcount, hfree, hstays⟩
    rw [courseOfJob, hcount] at hgrows ⊢
    exact .event hgrows ⟨st', hfree, hstays⟩ (by simp)
  | .all jobs, s, st, h => by
    rw [courseOfJob]
    exact passes_jobs store jobs h
  | .write writes deferred ending, s, st, h => by
    have hgrows := h.grows_job (.write writes deferred ending)
    rcases h.takeTurn writes with ⟨x, s₁, hturn, hx⟩
    rw [courseOfJob, hturn] at hgrows ⊢
    cases hx with
    | failed hfree hstays => exact .event hgrows ⟨_, hfree, hstays⟩ (by simp)
    | done hs₁ hwrites hst₁ hstays halike =>
      cases ending with
      | abort =>
        rcases hwrites.free_drop hs₁ hst₁ hstays with ⟨st', hfree, hstays'⟩
        dsimp only at hgrows ⊢
        rw [hwrites.abortWrites_eq] at hgrows ⊢
        exact .event hgrows ⟨st', hfree, hstays'⟩ (by simp)
      | commit =>
        let work : Work α := ⟨s.board.named, writes⟩
        rcases hwrites.free_commitWrites hs₁ hst₁ hstays work halike with
          ⟨st', hfree, hstays'⟩
        have hid : s.txns.length < (s₁.commitWrites s.txns.length store).txns.length := by
          have hlt := (List.getElem?_eq_some_iff.1 hwrites.txn).1
          rw [hwrites.commitWrites_eq]
          exact Nat.lt_of_lt_of_le hlt (hs₁.extends_perform _).length
        rcases passes_deferred store s.txns.length deferred hfree hid with ⟨hjobs, hstarted⟩
        have hcommit := hjobs.commit work (Nat.le_refl _) hstays' hstarted
        rcases hcommit.finds with ⟨st'', hfree', hstays''⟩
        exact hcommit.append hstays'' (.event (Nat.le_refl _) ⟨st'', hfree', .refl st''⟩ (by simp))

/-- What jobs one after another keep to. -/
theorem passes_jobs (store : Nat) : ∀ (jobs : List (Job α)) {s : Engine α} {st : Store α},
    s.Free store st →
      Passes (fun _ => False) store s.txns.length st (courseOfJobs store jobs s).1
        (courseOfJobs store jobs s).2
  | [], s, st, h => by
    rw [courseOfJobs]
    exact .nil h nofun
  | job :: jobs, s, st, h => by
    rw [courseOfJobs]
    have hfirst := passes_job store job h
    rcases hfirst.finds with ⟨st₁, hfree, hstays⟩
    exact hfirst.append hstays (passes_jobs store jobs hfree)

/-- What the deferred jobs of a transaction keep to: they are run in reverse order. -/
theorem passes_deferred (store txn : Nat) :
    ∀ (jobs : List (Job α)) {s : Engine α} {st : Store α}, s.Free store st →
      txn < s.txns.length →
        Passes (· = txn) store s.txns.length st (courseOfDeferred store txn jobs s).1
            (courseOfDeferred store txn jobs s).2 ∧
          (courseOfDeferred store txn jobs s).1.started txn = jobs.reverse
  | [], s, st, h, htxn => by
    rw [courseOfDeferred]
    exact ⟨.nil h fun _ heq => heq ▸ htxn, rfl⟩
  | job :: jobs, s, st, h, htxn => by
    rw [courseOfDeferred]
    rcases passes_deferred store txn jobs h htxn with ⟨hrest, hstarted⟩
    rcases hrest.finds with ⟨st₁, hfree, hstays⟩
    have htxn₁ := Nat.lt_of_lt_of_le htxn hrest.grows
    have hjob := passes_job store job hfree
    refine ⟨hrest.append hstays (.start hfree hjob htxn₁ job), ?_⟩
    -- the job itself starts none of the transaction
    have hself : Moment.job? txn (.start txn job (courseOfDeferred store txn jobs s).2) =
        some job := if_pos rfl
    rw [Course.started_append, hstarted, Course.started, List.filterMap_cons_some hself,
      ← Course.started, hjob.started_eq_nil id htxn₁, List.reverse_cons]

end

/-! ## Transactions that have ended -/

/-- The transaction has ended, and whatever happens, the jobs that were deferred in it are not
run any more: its commit fails and changes nothing. -/
def Silenced (s : Engine α) (id : Nat) (ending : Ending) : Prop :=
  ∀ after, (s.performAll after).commit id =
    some (.error (.ended ending), s.performAll after)

theorem Sound.ended_perform (hs : s.Sound) (ht : s.txns[id]? = some t) {ending : Ending}
    (hended : t.state = .ended ending) (a : Action α) :
    ∃ t', (s.perform a).txns[id]? = some t' ∧ t'.state = .ended ending := by
  have hlt : id < s.txns.length := (List.getElem?_eq_some_iff.1 ht).1
  have ht' := List.getElem?_eq_getElem (Nat.lt_of_lt_of_le hlt (hs.extends_perform a).length)
  refine ⟨_, ht', ?_⟩
  cases hs.txnStep ht' with
  | reader _ hid _ _ => exact absurd hid (Nat.ne_of_lt hlt)
  | writer _ hid _ _ => exact absurd hid (Nat.ne_of_lt hlt)
  | snapshot _ hid _ _ _ => exact absurd hid (Nat.ne_of_lt hlt)
  | @wrote w t₁ st _ ht₁ _ heq =>
    obtain rfl : t = t₁ := Option.some.inj (ht.symm.trans ht₁)
    rcases (TxnM.keeps_write w ⟨t, st.stats⟩).frame with ⟨handles, changes, hleaves⟩
    rw [heq, hleaves]
    exact hended
  | @stays t₁ changes deferred ht₁ heq _ _ =>
    obtain rfl : t = t₁ := Option.some.inj (ht.symm.trans ht₁)
    rw [heq]
    exact hended
  | @ended t₁ _ ht₁ hw _ =>
    obtain rfl : t = t₁ := Option.some.inj (ht.symm.trans ht₁)
    simp [Txn.isWriting, hended] at hw

/-- Whoever has ended is silenced. -/
theorem Sound.silenced (hs : s.Sound) (ht : s.txns[id]? = some t) {ending : Ending}
    (hended : t.state = .ended ending) : s.Silenced id ending := by
  intro after
  induction after generalizing s t with
  | nil =>
    have hrefused : t.ensureActive = .error (.ended ending) := by rw [Txn.ensureActive, hended]
    simp only [performAll_nil, Engine.commit, ht, hrefused]
  | cons a after ih =>
    rcases hs.ended_perform ht hended a with ⟨t', ht', hended'⟩
    exact ih (hs.perform a) ht' hended'

/-- A run leads whoever is silenced nowhere else. -/
theorem Silenced.reaches {ending : Ending} (h : s.Silenced id ending) (hreach : s.Reaches s') :
    s'.Silenced id ending := by
  rcases hreach with ⟨actions, rfl⟩
  intro after
  rw [← performAll_append]
  exact h (actions ++ after)

/-- `s'` is `s` after the transaction was given up, and nothing else has happened. All channels are
as they were, and so are the other transactions, to which none has been added. No store has another
root, and its own one lets the next writer in. No job is left with the transaction. -/
structure Discards (s : Engine α) (id : Nat) (t : Txn α) (s' : Engine α) : Prop where
  board : s'.board = s.board
  stores : ∀ n, s'.stores[n]? = s.stores[n]?.map fun st =>
    if n = t.store then
      { st with writer := none, stats := { st.stats with aborts := st.stats.aborts + 1 } }
    else st
  length : s'.txns.length = s.txns.length
  others : ∀ n, n ≠ id → s'.txns[n]? = s.txns[n]?
  ended : ∃ t', s'.txns[id]? = some t' ∧ t'.state = .ended .abort ∧ t'.deferred = []

/-- A writer that is dropped is given up. -/
theorem discards_drop (ht : s.txns[id]? = some t) (hw : t.isWriting = true) :
    s.Discards id t (s.drop id) := by
  have hdrop : s.drop id = s.abortWrites id t.store := (drop_of_some ht).trans (if_pos hw)
  refine ⟨by rw [hdrop]; rfl, fun n => ?_, ?_, fun n hne => txns_drop_of_ne hne,
    ⟨_, txns_drop_self ht hw, rfl, rfl⟩⟩
  · by_cases hn : n = t.store
    · subst hn
      cases hst : s.stores[t.store]? with
      | none => simp [hdrop, Engine.abortWrites, mark, release, tally, updateStore, updateTxn, hst]
      | some st => simp [stores_drop_self ht hw hst]
    · simp [hdrop, Engine.abortWrites, mark, release, tally, updateStore, updateTxn, hn,
        Ne.symm hn]
  · simp [hdrop, Engine.abortWrites, mark, release, tally, updateStore, updateTxn]

/-- The commit of a writer takes its course. -/
theorem commit_eq_course (ht : s.txns[id]? = some t) (hw : t.isWriting = true) (work : Work α) :
    s.commit id =
      some (.ok (s.courseOfCommit id t work).1.events, (s.courseOfCommit id t work).2) := by
  have hboth := Txn.isWriting_iff.1 hw
  have hactive : t.ensureActive = .ok () := by rw [Txn.ensureActive, hboth.2]
  have hone : (s.commitWrites id t.store).updateTxn id (fun t => { t with deferred := [] }) =
      s.commitOne id := by
    simp only [Engine.commitOne, ht, hw, if_true]
  simp only [Engine.commit, ht, hactive, hboth.1, if_true, hone, runDeferred_eq t.store id]
  rfl

/-- The commit of a writer passes with all of its jobs. -/
theorem Sound.passes_commit (hs : s.Sound) (ht : s.txns[id]? = some t) (hw : t.isWriting = true)
    (hst : s.stores[t.store]? = some st) {work : Work α}
    (hwork : (st.serve work).root = t.published) :
    Passes (fun _ => False) t.store id st (s.courseOfCommit id t work).1
      (s.courseOfCommit id t work).2 := by
  have hfree : (s.commitOne id).Free t.store _ :=
    ⟨hs.commitOne id, stores_commitOne_self ht hw hst, rfl⟩
  have hid := (List.getElem?_eq_some_iff.1 (txns_commitOne_self ht hw)).1
  rcases passes_deferred t.store id t.deferred hfree hid with ⟨hjobs, hstarted⟩
  exact hjobs.commit work (Nat.le_refl id) ⟨rfl, rfl, hwork.symm⟩ hstarted

end Engine

/-! ## Deferred jobs run once, last first, on the committed state -/

/-- In the course of a commit jobs are run in order. -/
structure Course.Orderly (course : Course α) (store : Nat) (st : Store α) : Prop where
  /-- The jobs of each transaction that is committed are run once each, the last one first. -/
  lastFirst : ∀ txn work deferred, .commit txn work deferred ∈ course →
    course.started txn = deferred.reverse
  /-- They are run after its commit. -/
  after : ∀ (earlier : Course α) txn job found (later : Course α),
    course = earlier ++ .start txn job found :: later →
    ∃ work deferred, .commit txn work deferred ∈ earlier
  /-- Each job finds no writer in the store, and the root that all commits before it have made,
  one after another. -/
  finds : ∀ (earlier : Course α) txn job found (later : Course α),
    course = earlier ++ .start txn job found :: later →
    ∃ st', found.stores[store]? = some st' ∧ st'.writer = none ∧
      st'.root = (st.serveAll earlier.works).root
  /-- Nobody waits for a turn that does not come. -/
  unblocked : .event .blocked ∉ course

namespace Engine

theorem Passes.orderly {store low : Nat} {st : Store α} {course : Course α} {s' : Engine α}
    (h : Passes (fun _ => False) store low st course s') : course.Orderly store st where
  lastFirst := fun txn work deferred hc => (h.commits txn work deferred hc).2.2
  after := fun earlier txn job found later hsplit =>
    (h.starts earlier txn job found later hsplit).1.resolve_left id
  finds := by
    intro earlier txn job found later hsplit
    rcases (h.starts earlier txn job found later hsplit).2 with ⟨st', hfree, hstays⟩
    exact ⟨st', hfree.store, hfree.idle, hstays.root⟩
  unblocked := h.unblocked

/-- Deferred jobs run once, last first, on the committed state. After any actions, an active
writer can be committed. The course of its commit begins with its own work; then its deferred
jobs are run in reverse order, once each, and so are the jobs that are deferred in other write
transactions on the way, to any depth. Each of them finds no writer, and the root that the
transaction itself and all who were committed since then have made. Nobody is blocked. From then
on the jobs are not run any more. None of them is ever run if the transaction is aborted or dropped
before, which leaves everything else as it was, or has ended already so that its commit fails. -/
theorem deferred_run_last_first (before : List (Action α)) (id : Nat) :
    let a : Schedule α := Schedule.performAll {} before
    ∀ t st, a.engine.txns[id]? = some t → a.engine.stores[t.store]? = some st →
      t.write = true →
      (t.state = .active →
        (let work : Work α := ⟨t.name, a.writes id⟩
        let course := (a.engine.courseOfCommit id t work).1
        let after := (a.engine.courseOfCommit id t work).2
        a.engine.commit id = some (.ok course.events, after) ∧
          (∃ more, course = .commit id work t.deferred :: more) ∧ course.Orderly t.store st ∧
          after.Silenced id .commit) ∧
        ∀ ending ∈ [.abort id, .drop id], a.engine.Discards id t (a.engine.perform ending) ∧
          (a.engine.perform ending).Silenced id .abort) ∧
      ∀ ending, t.state = .ended ending → a.engine.Silenced id ending := by
  intro a t st ht hst hwrite
  have hs : a.engine.Sound := by
    rw [Schedule.engine_performAll]
    exact Engine.Sound.empty.performAll before
  have hrec : a.Recorded := Schedule.Recorded.empty.performAll Engine.Sound.empty before
  refine ⟨fun hactive => ?_, fun ending hended => hs.silenced ht hended⟩
  have hw : t.isWriting = true := by simp [Txn.isWriting, hwrite, hactive]
  have hdropped : a.engine.Discards id t (a.engine.drop id) ∧
      (a.engine.drop id).Silenced id .abort :=
    ⟨discards_drop ht hw, (hs.drop id).silenced (txns_drop_self ht hw) rfl⟩
  have habort : a.engine.perform (.abort id) = a.engine.drop id := next_abort a.engine id
  refine ⟨⟨commit_eq_course ht hw _, ⟨_, rfl⟩, ?_, ?_⟩,
    List.forall_mem_cons.2 ⟨habort ▸ hdropped, List.forall_mem_singleton.2 hdropped⟩⟩
  · exact (hs.passes_commit ht hw hst (hrec.serve_root ht hst hw (.refl st))).orderly
  · -- what the jobs do is a run of actions
    have hcommitted : (a.engine.perform (.commit id)).Silenced id .commit :=
      (hs.perform (.commit id)).silenced (txns_commitOne_self ht hw) rfl
    have hreach := hs.reaches_commit id
    rw [commit_eq_course ht hw ⟨t.name, a.writes id⟩] at hreach
    exact hcommitted.reaches hreach

/-- Three jobs are deferred: the first one counts the pages, the second one stores another page
and defers a note of its own, and the third one is a note, which comes first. -/
theorem deferred_run_last_first_pages :
    let store (path : String) : Write Page := .insert Page.pages { path := path }
    let before : List (Action Page) :=
      [.create Page.schema {}, .requestWrite 0, .acquireWrite 0, .write 0 (store "/a"),
        .defer 0 (.count Page.pages), .defer 0 (.write [store "/b"] [.note "inner"] .commit),
        .defer 0 (.note "last")]
    let a : Schedule Page := Schedule.performAll {} before
    let words (e : Event) : String :=
      match e with
      | .note label => label
      | .counted result => toString (result.toOption.getD 0)
      | .wrote _ => "wrote"
      | .blocked => "blocked"
    ((a.engine.commit 0).bind fun x => x.1.toOption.map (List.map words)) =
        some ["last", "inner", "wrote", "2"] ∧
      ∃ t st, a.engine.txns[0]? = some t ∧ a.engine.stores[t.store]? = some st ∧
        t.write = true ∧ t.state = .active ∧ t.deferred.length = 3 ∧
        (a.engine.courseOfCommit 0 t ⟨t.name, a.writes 0⟩).1.Orderly t.store st ∧
        a.engine.Discards 0 t (a.engine.perform (.abort 0)) ∧
        (a.engine.perform (.abort 0)).Silenced 0 .abort := by
  intro store before a words
  have hopen : (a.engine.txns[0]?.map fun t => (t.store, t.write, t.state, t.deferred.length)) =
      some (0, true, .active, 3) := by decide +kernel
  rcases Option.map_eq_some_iff.1 hopen with ⟨t, ht, hparts⟩
  simp only [Prod.mk.injEq] at hparts
  rcases hparts with ⟨hstore, hwrite, hactive, hdeferred⟩
  have hexists : (a.engine.stores[0]?).isSome = true := by decide +kernel
  rcases Option.isSome_iff_exists.1 hexists with ⟨st, hst⟩
  rw [← hstore] at hst
  have hall := (deferred_run_last_first before 0 t st ht hst hwrite).1 hactive
  exact ⟨by decide +kernel, t, st, ht, hst, hwrite, hactive, hdeferred, hall.1.2.2.1,
    hall.2 _ List.mem_cons_self⟩

end Engine

end SnapStore
