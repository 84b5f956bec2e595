import SnapStore.Proofs.Engine.Traffic
import SnapStore.Proofs.Engine.View

/-! # Whoever is woken sees the new root

Any number of commits may be under way, in the same store one after another, and others act in
between: they open transactions, write, and listen to channels. A commit puts its root in place
before it fires its first channel, and lets the next writer in after it has fired its last one.
So whoever finds a channel fired, or is woken, finds what was committed.

Main statements: `Commit.Keeps.step` and `Commit.Keeps.perform` (what a commit keeps to, in its
own steps and in those of others), `Traffic.Sound.move` and `Traffic.woken_sees_root`.
-/

namespace SnapStore

variable {α : Type}

/-! ## The record in the steps of a commit -/

namespace Schedule

variable {a : Schedule α} {id n : Nat} {t : Txn α}

theorem committed_self (ht : a.engine.txns[id]? = some t) (hw : t.isWriting = true) :
    a.committed id t.store = a.commits t.store ++ [⟨t.name, a.writes id⟩] := by
  have hc : a.engine.Commits (.commit id) id t := ⟨rfl, ht, hw⟩
  exact commits_of_commits hc

theorem committed_of_ne (ht : a.engine.txns[id]? = some t) (hne : n ≠ t.store) :
    a.committed id n = a.commits n := by
  rw [committed, ht]
  dsimp only
  split
  · exact Function.update_of_ne hne _ _
  · rfl

namespace Recorded

/-- The record stays right while the stores keep their contents and the writers what they
see. -/
theorem of_stays (h : a.Recorded) {s : Engine α}
    (hstores : ∀ (n : Nat) (st' : Store α), s.stores[n]? = some st' →
      ∃ st, a.engine.stores[n]? = some st ∧ st.Stays st')
    (htxns : ∀ (id : Nat) (t : Txn α), s.txns[id]? = some t → t.isWriting = true →
      a.engine.txns[id]? = some t) : Recorded { a with engine := s } := by
  constructor
  · intro n st' hst'
    rcases hstores n st' hst' with ⟨st, hst, hstays⟩
    rcases h.stores n st hst with ⟨st₀, horigin, hserve⟩
    exact ⟨st₀, horigin, hserve.trans hstays⟩
  · intro id t st' ht hst' hw
    rcases hstores _ st' hst' with ⟨st, hst, hstays⟩
    have hbefore := h.writers id t st (htxns id t ht hw) hst hw
    exact ((hstays.alike_newWriter 0 0 t.name).does (a.writes id)).symm.trans hbefore

theorem withBoard (h : a.Recorded) (board : Board) : (a.withBoard board).Recorded :=
  h.of_stays (fun _ st hst => ⟨st, hst, .refl st⟩) fun _ _ ht _ => ht

/-- With its root the work of a writer comes into the record. -/
theorem publish (h : a.Recorded) (hs : a.engine.Sound) (ht : a.engine.txns[id]? = some t)
    (hw : t.isWriting = true) : (a.publish id).Recorded := by
  rcases hs.txns id t ht with ⟨st, hst, hf⟩
  have hengine := congrArg Prod.snd (Engine.publish_eq ht)
  constructor
  · intro n st' hst'
    change (a.engine.publish id).2.stores[n]? = some st' at hst'
    rw [hengine] at hst'
    rcases Engine.getElem?_stores_updateStore.1 hst' with ⟨st₁, hst₁, rfl⟩
    rcases h.stores n st₁ hst₁ with ⟨st₀, horigin, hserve⟩
    refine ⟨st₀, horigin, ?_⟩
    change (st₀.serveAll (a.committed id n)).Stays _
    by_cases hn : n = t.store
    · subst hn
      rw [if_pos rfl, committed_self ht hw, Store.serveAll_concat]
      exact ⟨hserve.schema, hserve.primary, (h.serve_root ht hst₁ hw hserve).symm⟩
    · rw [if_neg hn, committed_of_ne ht hn]
      exact hserve
  · intro id' t' st' ht' hst' hw'
    change (a.engine.publish id).2.txns[id']? = some t' at ht'
    change (a.engine.publish id).2.stores[t'.store]? = some st' at hst'
    rw [hengine] at ht' hst'
    rcases Engine.getElem?_stores_updateStore.1 hst' with ⟨st₁, hst₁, rfl⟩
    rcases Engine.getElem?_txns_updateTxn.1 ht' with ⟨t₁, ht₁, rfl⟩
    by_cases hid : id' = id
    · -- the writer itself looks like a new one over the root that it has put in place
      subst hid
      obtain rfl : t = t₁ := Option.some.inj (ht.symm.trans ht₁)
      simp only [if_true] at hst₁ ⊢
      obtain rfl : st = st₁ := Option.some.inj (hst.symm.trans hst₁)
      have hnone : (a.publish id').writes id' = [] := Function.update_self _ _ _
      rw [hnone]
      have hmay := Txn.isWriting_iff.1 hw
      refine ⟨t.store, t.changes, t.deferred, ?_⟩
      simp only [Txn.does, List.foldl_nil, Store.newWriter, Store.reader, ← hmay.1, ← hmay.2,
        ← hf.schema, ← hf.primary]
    · rw [if_neg hid] at hst₁ hw' ⊢
      have hne : t₁.store ≠ t.store := fun hstore =>
        hid (hs.writer_unique ht₁ ht hstore hw' hw)
      rw [if_neg hne]
      have hsame : (a.publish id).writes id' = a.writes id' := Function.update_of_ne hid _ _
      rw [hsame]
      exact h.writers id' t₁ st₁ ht₁ hst₁ hw'

end Recorded

end Schedule

/-! ## The engine in the steps of a commit -/

namespace Engine

variable {s : Engine α} {id n : Nat} {t : Txn α} {st : Store α}

/-- A transaction may be marked as ended at any time. -/
theorem Sound.mark (hs : s.Sound) (id : Nat) (ending : Ending) : (s.mark id ending).Sound :=
  hs.updateTxn id fun t st _ _ hf => by
    have hended : Txn.isWriting { t with state := .ended ending } = false := by
      simp [Txn.isWriting]
    exact ⟨rfl, ⟨hf.sound.root, hf.sound.trees, hf.sound.ascends, hf.sound.drafts⟩, hf.schema,
      hf.primary, hf.reads, fun hw => by simp [hended] at hw⟩

/-- The turn of a transaction that is not writing may be handed on. -/
theorem Sound.release (hs : s.Sound) (ht : s.txns[id]? = some t) (hover : ¬ t.isWriting = true)
    (hst : s.stores[n]? = some st) (hturn : st.writer = some id) : (s.release n).Sound := by
  refine hs.updateStore n (fun _ => ⟨rfl, rfl, rfl⟩) fun id' t' st' ht' _ hst' hw hturn' => ?_
  -- only the one who has the turn could be writing
  obtain rfl : st = st' := Option.some.inj (hst.symm.trans hst')
  obtain rfl : id = id' := Option.some.inj (hturn.symm.trans hturn')
  obtain rfl : t = t' := Option.some.inj (ht.symm.trans ht')
  exact absurd hw hover

/-- The transaction at the position `id` has just been opened, to read or to write. -/
def Opens (s : Engine α) (store id : Nat) (s' : Engine α) : Prop :=
  s.openRead store = some (id, s') ∨ s.acquireWrite store = some (id, s')

/-- Whoever is let in, to read or to write, is answered over the current root. -/
theorem Sound.ask_opens (hs : s.Sound) (hst : s.stores[n]? = some st) {s' : Engine α}
    (hopens : s.Opens n id s') (scan : Scan) (table index : String) (args : List Arg) :
    s'.ask id scan table index args = some (scan.over st.schema st.root table index args) := by
  rcases hopens with hread | hwrite
  · rcases openRead_eq hst with ⟨hopen, ht⟩
    rcases Prod.mk.inj (Option.some.inj (hread.symm.trans hopen)) with ⟨rfl, rfl⟩
    rw [ask, (hs.perform (.openRead n)).run_scan ht rfl rfl]
    rfl
  · have hsound : s'.Sound := by
      have hnext := hs.acquireWrite n
      rw [hwrite] at hnext
      exact hnext
    simp only [Engine.acquireWrite, hst] at hwrite
    split at hwrite
    · cases hwrite
    · rcases Prod.mk.inj (Option.some.inj hwrite) with ⟨rfl, rfl⟩
      rw [ask, hsound.run_scan (getElem?_concat_iff.2 (.inr ⟨rfl, rfl⟩)) rfl rfl]
      rfl

/-- A store whose writer has published has the root of the writer. -/
theorem stores_publish_self (ht : s.txns[id]? = some t) (hst : s.stores[t.store]? = some st) :
    (s.publish id).2.stores[t.store]? = some { st with root := t.published } := by
  rw [publish_eq ht]
  exact stores_updateStore_self hst

end Engine

/-! ## What a commit keeps to -/

namespace Commit

variable {r : Commit α} {a a' : Schedule α}

/-- The commit is still to come, and nobody else acts in its transaction. -/
structure Ready (r : Commit α) (a : Schedule α) (t : Txn α) : Prop where
  txn : a.engine.txns[r.txn]? = some t
  writing : t.isWriting = true
  store : t.store = r.store
  view : t.forest = r.view
  work : r.work = ⟨t.name, a.writes r.txn⟩

/-- The transaction has not been marked as ended. -/
def Writing (r : Commit α) (a : Schedule α) : Prop :=
  ∃ t, a.engine.txns[r.txn]? = some t ∧ t.isWriting = true

/-- The transaction has ended. -/
def Over (r : Commit α) (a : Schedule α) : Prop :=
  ∃ t, a.engine.txns[r.txn]? = some t ∧ ¬ t.isWriting = true

/-- The store has what the transaction saw, and its turn to write has not been handed on. -/
def Holds (r : Commit α) (a : Schedule α) : Prop :=
  ∃ st, a.engine.stores[r.store]? = some st ∧ st.writer = some r.txn ∧ st.root.get? = r.view

/-- The store has taken the work of the transaction in. -/
def Published (r : Commit α) (a : Schedule α) : Prop :=
  r.store < a.engine.stores.length ∧ r.work ∈ a.commits r.store

/-- What a commit keeps to between its steps. -/
inductive Keeps (r : Commit α) (a : Schedule α) : Prop
  | publishing {t : Txn α} (hstage : r.stage = .publishing) (hready : r.Ready a t)
    (hfired : r.fired = []) (hwoken : r.woken = [])
  | firing {waiting : List Wakeup} {left : List Channel} (hstage : r.stage = .firing waiting left)
    (hpublished : r.Published a) (hwriting : r.Writing a) (hholds : r.Holds a)
    (hfired : r.fired ++ left = r.collected)
  | releasing (hstage : r.stage = .releasing) (hpublished : r.Published a) (hover : r.Over a)
    (hholds : r.Holds a) (hfired : r.fired = r.collected)
  | counting (hstage : r.stage = .counting) (hpublished : r.Published a) (hover : r.Over a)
    (hfired : r.fired = r.collected)
  | running {left : List (Job α)} (hstage : r.stage = .running left)
    (hpublished : r.Published a) (hover : r.Over a) (hfired : r.fired = r.collected)

/-- A step of somebody else passes a commit by. -/
structure Spares (r : Commit α) (a a' : Schedule α) : Prop where
  txn : ∀ t, a.engine.txns[r.txn]? = some t →
    a'.engine.txns[r.txn]? = some t ∧ a'.writes r.txn = a.writes r.txn
  turn : ∀ st, a.engine.stores[r.store]? = some st → st.writer = some r.txn →
    ∃ st', a'.engine.stores[r.store]? = some st' ∧ st'.writer = some r.txn ∧ st'.root = st.root
  published : r.Published a → r.Published a'

/-- A commit keeps to it while others act. -/
theorem Keeps.spares (h : r.Keeps a) (hspares : r.Spares a a') : r.Keeps a' := by
  have hwriting (hw : r.Writing a) : r.Writing a' := by
    rcases hw with ⟨t, ht, hw⟩
    exact ⟨t, (hspares.txn t ht).1, hw⟩
  have hover (ho : r.Over a) : r.Over a' := by
    rcases ho with ⟨t, ht, hw⟩
    exact ⟨t, (hspares.txn t ht).1, hw⟩
  have hholds (hh : r.Holds a) : r.Holds a' := by
    rcases hh with ⟨st, hst, hturn, hroot⟩
    rcases hspares.turn st hst hturn with ⟨st', hst', hturn', hsame⟩
    exact ⟨st', hst', hturn', hsame ▸ hroot⟩
  cases h with
  | @publishing t hstage hready hfired hwoken =>
    rcases hspares.txn t hready.txn with ⟨ht, hwrites⟩
    have hwork := hready.work
    rw [← hwrites] at hwork
    exact .publishing hstage ⟨ht, hready.writing, hready.store, hready.view, hwork⟩ hfired hwoken
  | firing hstage hp hw hh hfired =>
    exact .firing hstage (hspares.published hp) (hwriting hw) (hholds hh) hfired
  | releasing hstage hp ho hh hfired =>
    exact .releasing hstage (hspares.published hp) (hover ho) (hholds hh) hfired
  | counting hstage hp ho hfired =>
    exact .counting hstage (hspares.published hp) (hover ho) hfired
  | running hstage hp ho hfired =>
    exact .running hstage (hspares.published hp) (hover ho) hfired

/-- What has fired or been woken by a commit has fired after the root was in place. -/
theorem Keeps.published_of_fired (h : r.Keeps a) (hdone : r.fired ≠ [] ∨ r.woken ≠ []) :
    r.Published a := by
  cases h with
  | publishing _ _ hfired hwoken => simp [hfired, hwoken] at hdone
  | firing _ hp _ _ _ => exact hp
  | releasing _ hp _ _ _ => exact hp
  | counting _ hp _ _ => exact hp
  | running _ hp _ _ => exact hp

/-- Only channels that were collected fire, in their order. -/
theorem Keeps.fired_prefix (h : r.Keeps a) : r.fired <+: r.collected := by
  cases h with
  | publishing _ _ hfired _ => exact hfired ▸ List.nil_prefix
  | firing _ _ _ _ hfired => exact ⟨_, hfired⟩
  | releasing _ _ _ _ hfired => exact hfired ▸ List.prefix_rfl
  | counting _ _ _ hfired => exact hfired ▸ List.prefix_rfl
  | running _ _ _ hfired => exact hfired ▸ List.prefix_rfl

/-- The transaction of a commit that is done is over, and all that is left is what was
published. -/
theorem Keeps.over_of_done (h : r.Keeps a) (hdone : r.stage.isDone = true) :
    r.Published a ∧ r.Over a ∧ ∀ a', r.Published a' → r.Over a' → r.Keeps a' := by
  cases h with
  | publishing hstage _ _ _ => simp [hstage, Stage.isDone] at hdone
  | firing hstage _ _ _ _ => simp [hstage, Stage.isDone] at hdone
  | releasing hstage _ _ _ _ => simp [hstage, Stage.isDone] at hdone
  | counting hstage _ _ _ => simp [hstage, Stage.isDone] at hdone
  | running hstage hp ho hfired => exact ⟨hp, ho, fun a' hp' ho' => .running hstage hp' ho' hfired⟩

/-! ### Actions of others -/

theorem Published.perform (h : r.Published a) (hs : a.engine.Sound) {action : Action α}
    (hno : action.commits? = none) : r.Published (a.perform action) := by
  have hstays := Schedule.commits_of_stays h.1 fun id t hc =>
    absurd hc (Engine.not_commits hno id t)
  refine ⟨?_, hstays ▸ h.2⟩
  rw [Schedule.engine_perform]
  rcases (hs.extends_perform action).stores _ _ (List.getElem?_eq_getElem h.1) with
    ⟨st', hst', _⟩
  exact (List.getElem?_eq_some_iff.1 hst').1

/-- An action in no transaction that is being committed spares a commit. -/
theorem spares_perform (r : Commit α) (hs : a.engine.Sound) {action : Action α}
    (hno : action.commits? = none) (hother : action.actor? ≠ some r.txn) :
    r.Spares a (a.perform action) where
  txn := by
    intro t ht
    refine ⟨by rw [Schedule.engine_perform]; exact hs.txns_perform ht hother, ?_⟩
    refine Schedule.writes_of_stays (List.getElem?_eq_some_iff.1 ht).1 fun w hw => hother ?_
    rw [hw, Action.actor?]
  turn := by
    intro st hst hturn
    rw [Schedule.engine_perform]
    exact hs.turn_perform hst hturn hother hno
  published := fun h => h.perform hs hno

/-- A commit keeps to it while others act, and later while anybody does. -/
theorem Keeps.perform (h : r.Keeps a) (hs : a.engine.Sound) {action : Action α}
    (hno : action.commits? = none)
    (hother : r.stage.isDone = false → action.actor? ≠ some r.txn) :
    r.Keeps (a.perform action) := by
  cases hdone : r.stage.isDone with
  | false => exact h.spares (r.spares_perform hs hno (hother hdone))
  | true =>
    rcases h.over_of_done hdone with ⟨hp, ⟨t, ht, hw⟩, hkeeps⟩
    refine hkeeps _ (hp.perform hs hno) ?_
    rcases hs.writing_perform ht action with ⟨t', ht', hsame⟩
    refine ⟨t', ?_, fun hw' => hw (hsame hw').1⟩
    rw [Schedule.engine_perform]
    exact ht'

/-! ### Steps of a commit -/

/-- A step of a commit keeps what the engine, the record and the commit keep to, and passes all
other commits by. -/
structure Advances (r : Commit α) (a : Schedule α) (r' : Commit α) (a' : Schedule α) : Prop where
  sound : a'.engine.Sound
  recorded : a'.Recorded
  keeps : r'.Keeps a'
  spares : ∀ other : Commit α, other.txn ≠ r.txn → other.Spares a a'

/-- Of two commits only one has the turn at a store. -/
theorem Holds.store_ne (h : r.Holds a) {other : Commit α} (hother : other.txn ≠ r.txn)
    {st : Store α} (hst : a.engine.stores[other.store]? = some st)
    (hturn : st.writer = some other.txn) : other.store ≠ r.store := by
  intro hstore
  rcases h with ⟨st', hst', hturn', _⟩
  obtain rfl : st = st' := Option.some.inj (hst.symm.trans (hstore ▸ hst'))
  exact hother (Option.some.inj (hturn.symm.trans hturn'))

theorem spares_withBoard (r : Commit α) (a : Schedule α) (board : Board) :
    r.Spares a (a.withBoard board) where
  txn := fun _ ht => ⟨ht, rfl⟩
  turn := fun st hst hturn => ⟨st, hst, hturn, rfl⟩
  published := fun h => h

/-- A step that fires or notifies does nothing else. -/
theorem advances_withBoard (hs : a.engine.Sound) (hrec : a.Recorded) (board : Board)
    {r' : Commit α} (hkeeps : r'.Keeps (a.withBoard board)) :
    r.Advances a r' (a.withBoard board) where
  sound := hs.withBoard board
  recorded := hrec.withBoard board
  keeps := hkeeps
  spares := fun other _ => other.spares_withBoard a board

/-- The root comes into place with all that the transaction saw, while it has the turn. -/
theorem advances_publish (hs : a.engine.Sound) (hrec : a.Recorded) {t : Txn α}
    (hready : r.Ready a t) (hfired : r.fired = []) (channels : List Channel) :
    r.Advances a { r with collected := channels, stage := .firing [] channels }
      (a.publish r.txn) := by
  rcases hready with ⟨ht, hw, hstore, hview, hwork⟩
  rcases hs.txns r.txn t ht with ⟨st, hst, hf⟩
  have hturn : st.writer = some r.txn := (hf.writes hw).1
  have hst' : (a.publish r.txn).engine.stores[t.store]? = some { st with root := t.published } :=
    Engine.stores_publish_self ht hst
  have hengine : (a.publish r.txn).engine = _ := congrArg Prod.snd (Engine.publish_eq ht)
  have hlength : (a.publish r.txn).engine.stores.length = a.engine.stores.length := by
    rw [hengine]
    exact List.length_modify _ _ _
  refine ⟨hs.publish ht hw, hrec.publish hs ht hw, .firing rfl ⟨?_, ?_⟩ ?_ ?_ ?_, ?_⟩
  · rw [hlength, ← hstore]
    exact (List.getElem?_eq_some_iff.1 hst).1
  · change r.work ∈ a.committed r.txn r.store
    rw [← hstore, Schedule.committed_self ht hw, hwork]
    exact List.mem_append_right _ (List.mem_singleton_self _)
  · exact ⟨_, Engine.txns_publish_self ht, hw⟩
  · exact ⟨{ st with root := t.published }, hstore ▸ hst', hturn,
      hf.sound.get?_published.trans hview⟩
  · exact congrArg (· ++ channels) hfired
  · intro other hother
    constructor
    · intro t' ht'
      refine ⟨?_, Function.update_of_ne hother _ _⟩
      rw [hengine]
      exact (Engine.txns_updateTxn_of_ne hother).trans ht'
    · intro st₁ hst₁ hturn₁
      -- whoever has the turn has it at another store
      have hne : other.store ≠ t.store := by
        intro heq
        obtain rfl : st = st₁ := Option.some.inj (hst.symm.trans (heq ▸ hst₁))
        exact hother (Option.some.inj (hturn₁.symm.trans hturn))
      refine ⟨st₁, ?_, hturn₁, rfl⟩
      rw [hengine]
      exact (Engine.stores_updateStore_of_ne hne).trans hst₁
    · intro hp
      refine ⟨hlength ▸ hp.1, ?_⟩
      change other.work ∈ a.committed r.txn other.store
      by_cases heq : other.store = t.store
      · rw [heq, Schedule.committed_self ht hw]
        exact List.mem_append_left _ (heq ▸ hp.2)
      · rw [Schedule.committed_of_ne ht heq]
        exact hp.2

theorem advances_mark (hs : a.engine.Sound) (hrec : a.Recorded) (hp : r.Published a)
    (hw : r.Writing a) (hh : r.Holds a) (hfired : r.fired = r.collected) :
    r.Advances a { r with stage := .releasing }
      { a with engine := a.engine.mark r.txn .commit } := by
  rcases hw with ⟨t, ht, _⟩
  refine ⟨hs.mark r.txn .commit, ?_, .releasing rfl hp ?_ hh hfired, ?_⟩
  · refine hrec.of_stays (fun _ st hst => ⟨st, hst, .refl st⟩) fun id t' ht' hw' => ?_
    rcases Engine.getElem?_txns_updateTxn.1 ht' with ⟨t₁, ht₁, rfl⟩
    split at hw'
    · simp [Txn.isWriting] at hw'
    · rename_i hne
      rw [if_neg hne]
      exact ht₁
  · exact ⟨_, Engine.txns_updateTxn_self ht, by simp [Txn.isWriting]⟩
  · intro other hother
    exact ⟨fun t' ht' => ⟨(Engine.txns_updateTxn_of_ne hother).trans ht', rfl⟩,
      fun st hst hturn => ⟨st, hst, hturn, rfl⟩, fun h => h⟩

theorem advances_release (hs : a.engine.Sound) (hrec : a.Recorded) (hp : r.Published a)
    (ho : r.Over a) (hh : r.Holds a) (hfired : r.fired = r.collected) :
    r.Advances a { r with stage := .counting }
      { a with engine := a.engine.release r.store } := by
  have hlength : (a.engine.release r.store).stores.length = a.engine.stores.length :=
    List.length_modify _ _ _
  refine ⟨?_, ?_, .counting rfl ⟨hlength ▸ hp.1, hp.2⟩ ho hfired, ?_⟩
  · rcases ho with ⟨t, ht, hover⟩
    rcases hh with ⟨st, hst, hturn, _⟩
    exact hs.release ht hover hst hturn
  · exact hrec.of_stays (fun _ _ hst' => Engine.exists_stays hst' fun _ => ⟨rfl, rfl, rfl⟩)
      fun _ _ ht _ => ht
  · intro other hother
    refine ⟨fun t ht => ⟨ht, rfl⟩, fun st hst hturn => ?_, fun h => ⟨hlength ▸ h.1, h.2⟩⟩
    have hne := hh.store_ne hother hst hturn
    exact ⟨st, (Engine.stores_updateStore_of_ne hne).trans hst, hturn, rfl⟩

theorem advances_count (hs : a.engine.Sound) (hrec : a.Recorded) (hp : r.Published a)
    (ho : r.Over a) (hfired : r.fired = r.collected) (left : List (Job α)) :
    r.Advances a { r with stage := .running left }
      { a with engine := (a.engine.tally r.store .commit).updateTxn r.txn fun t =>
        { t with deferred := [] } } := by
  have hlength : (a.engine.tally r.store .commit).stores.length = a.engine.stores.length :=
    List.length_modify _ _ _
  rcases ho with ⟨t, ht, hover⟩
  refine ⟨?_, ?_, .running rfl ⟨hlength ▸ hp.1, hp.2⟩ ?_ hfired, ?_⟩
  · exact (hs.tally r.store .commit).updateTxn r.txn fun t' st' _ _ hf =>
      ⟨rfl, hf.aside t'.changes []⟩
  · refine hrec.of_stays (fun _ _ hst' => Engine.exists_stays hst' fun _ => ⟨rfl, rfl, rfl⟩)
      fun id t' ht' hw' => ?_
    rcases Engine.getElem?_txns_updateTxn.1 ht' with ⟨t₁, ht₁, rfl⟩
    split at hw'
    · rename_i heq
      subst heq
      obtain rfl : t = t₁ := Option.some.inj (ht.symm.trans ht₁)
      exact absurd hw' hover
    · rename_i hne
      rw [if_neg hne]
      exact ht₁
  · exact ⟨_, Engine.txns_updateTxn_self (s := a.engine.tally r.store .commit) ht, hover⟩
  · intro other hother
    refine ⟨fun t' ht' => ⟨(Engine.txns_updateTxn_of_ne hother).trans ht', rfl⟩,
      fun st hst hturn => ?_, fun h => ⟨hlength ▸ h.1, h.2⟩⟩
    refine ⟨_, Engine.getElem?_stores_updateStore.2 ⟨st, hst, rfl⟩, ?_⟩
    split
    · exact ⟨hturn, rfl⟩
    · exact ⟨hturn, rfl⟩

/-- Each step of a commit keeps what it has to keep. -/
theorem Keeps.step (h : r.Keeps a) (hs : a.engine.Sound) (hrec : a.Recorded) :
    r.Advances a (r.step a).1 (r.step a).2 := by
  cases h with
  | publishing hstage hready hfired hwoken =>
    simp only [Commit.step, hstage]
    exact advances_publish hs hrec hready hfired _
  | @firing waiting left hstage hp hw hh hfired =>
    cases waiting with
    | cons w waiting =>
      simp only [Commit.step, hstage]
      exact advances_withBoard hs hrec _ (.firing rfl hp hw hh hfired)
    | nil =>
      cases left with
      | cons c left =>
        simp only [Commit.step, hstage]
        have hnext : r.fired ++ [c] ++ left = r.collected := by
          rw [List.append_assoc]
          exact hfired
        exact advances_withBoard hs hrec _ (.firing rfl hp hw hh hnext)
      | nil =>
        simp only [Commit.step, hstage]
        exact advances_mark hs hrec hp hw hh ((List.append_nil _).symm.trans hfired)
  | releasing hstage hp ho hh hfired =>
    simp only [Commit.step, hstage]
    exact advances_release hs hrec hp ho hh hfired
  | counting hstage hp ho hfired =>
    simp only [Commit.step, hstage]
    exact advances_count hs hrec hp ho hfired _
  | running hstage hp ho hfired =>
    simp only [Commit.step, hstage]
    exact ⟨hs, hrec, .running rfl hp ho hfired, fun other _ => other.spares_withBoard a _⟩

end Commit

/-! ## Traffic -/

/-- A schedule with the commits that have begun, each under its transaction. -/
structure Traffic (α : Type) where
  schedule : Schedule α := {}
  commits : Nat → Option (Commit α) := fun _ => none

/-- What may come next: an action, where a commit only begins; a step of the commit of a
transaction; or somebody who starts or stops to listen to a channel. Whoever tests a channel
changes nothing, and may do so after any moves. -/
inductive Move (α : Type) where
  | act (action : Action α)
  | advance (id : Nat)
  | subscribe (c : Channel) (w : Wakeup)
  | unsubscribe (c : Channel) (w : Wakeup)

namespace Traffic

/-- The board of channels. -/
def board (a : Traffic α) : Board :=
  a.schedule.engine.board

def withBoard (a : Traffic α) (board : Board) : Traffic α :=
  { a with schedule := a.schedule.withBoard board }

/-- Whether a transaction is being committed. Until that is done, nobody else can use it. -/
def isBusy (a : Traffic α) (id : Nat) : Bool :=
  (a.commits id).any fun r => !r.stage.isDone

/-- Begins the commit of a write transaction that has not ended. -/
def enter (a : Traffic α) (id : Nat) : Traffic α :=
  match a.schedule.engine.txns[id]? with
  | some t =>
    if t.isWriting then
      { a with commits := Function.update a.commits id (some (.start a.schedule id t)) }
    else a
  | none => a

/-- The traffic after an action. -/
def act (a : Traffic α) (action : Action α) : Traffic α :=
  if action.on?.any a.isBusy then a
  else
    match action.commits? with
    | some id => a.enter id
    | none => { a with schedule := a.schedule.perform action }

/-- The traffic after a move. -/
def move (a : Traffic α) : Move α → Traffic α
  | .act action => a.act action
  | .advance id =>
    match a.commits id with
    | some r =>
      let (r, schedule) := r.step a.schedule
      ⟨schedule, Function.update a.commits id (some r)⟩
    | none => a
  | .subscribe c w => a.withBoard (a.board.subscribe c w).1
  | .unsubscribe c w => a.withBoard (a.board.unsubscribe c w)

/-- The traffic after moves. -/
def moveAll (a : Traffic α) (moves : List (Move α)) : Traffic α :=
  moves.foldl move a

end Traffic

/-! ## Who fires what -/

namespace Commit

variable {r r' r'' : Commit α}

/-- The same commit later on. -/
structure Grows (r r' : Commit α) : Prop where
  txn : r'.txn = r.txn
  store : r'.store = r.store
  work : r'.work = r.work
  fired : r.fired <+: r'.fired
  woken : r.woken <+: r'.woken

namespace Grows

theorem refl (r : Commit α) : r.Grows r :=
  ⟨rfl, rfl, rfl, List.prefix_rfl, List.prefix_rfl⟩

theorem trans (h : r.Grows r') (h' : r'.Grows r'') : r.Grows r'' :=
  ⟨h'.txn.trans h.txn, h'.store.trans h.store, h'.work.trans h.work, h.fired.trans h'.fired,
    h.woken.trans h'.woken⟩

end Grows

theorem board_publish (s : Engine α) (id : Nat) : (s.publish id).2.board = s.board := by
  cases ht : s.txns[id]? with
  | none => simp only [Engine.publish, ht]
  | some t =>
    rw [Engine.publish_eq ht]
    rfl

/-- A commit takes note of all that it fires and notifies. -/
structure Notes (r : Commit α) (board : Board) (r' : Commit α) (board' : Board) : Prop where
  grows : r.Grows r'
  fired : ∀ c ∈ board'.fired, c ∈ board.fired ∨ c ∈ r'.fired
  notified : ∀ w ∈ board'.notified, w ∈ board.notified ∨ w ∈ r'.woken

theorem notes_step (r : Commit α) (a : Schedule α) :
    r.Notes a.engine.board (r.step a).1 (r.step a).2.engine.board := by
  have hsame (stage : Stage α) (collected : List Channel) :
      r.Notes a.engine.board { r with stage := stage, collected := collected } a.engine.board :=
    ⟨⟨rfl, rfl, rfl, List.prefix_rfl, List.prefix_rfl⟩, fun _ => .inl, fun _ => .inl⟩
  cases hstage : r.stage with
  | publishing =>
    simp only [Commit.step, hstage]
    change r.Notes _ _ (a.engine.publish r.txn).2.board
    rw [board_publish]
    exact hsame _ _
  | firing waiting left =>
    cases waiting with
    | cons w waiting =>
      simp only [Commit.step, hstage]
      refine ⟨⟨rfl, rfl, rfl, List.prefix_rfl, List.prefix_append _ _⟩, fun c hc => ?_,
        fun v hv => ?_⟩
      · exact .inl ((Board.fired_notify a.engine.board w) ▸ hc)
      · have hv' : (a.engine.board.notify w).isNotified v = true := List.contains_iff_mem.2 hv
        rw [Board.isNotified_notify] at hv'
        rcases Bool.or_eq_true_iff.1 hv' with heq | hold
        · exact .inr (List.mem_append_right _ (List.mem_singleton.2 (beq_iff_eq.1 heq)))
        · exact .inl (List.contains_iff_mem.1 hold)
    | nil =>
      cases left with
      | cons c left =>
        simp only [Commit.step, hstage]
        refine ⟨⟨rfl, rfl, rfl, List.prefix_append _ _, List.prefix_rfl⟩, fun d hd => ?_,
          fun _ => .inl⟩
        rcases List.mem_cons.1 hd with rfl | hold
        · exact .inr (List.mem_append_right _ (List.mem_singleton_self _))
        · exact .inl hold
      | nil =>
        simp only [Commit.step, hstage]
        exact hsame _ _
  | releasing =>
    simp only [Commit.step, hstage]
    exact hsame _ _
  | counting =>
    simp only [Commit.step, hstage]
    exact hsame _ _
  | running left =>
    simp only [Commit.step, hstage]
    exact hsame _ _

end Commit

/-! ## What all traffic keeps to -/

theorem Action.on?_of_actor? {action : Action α} {id : Nat} (h : action.actor? = some id) :
    action.on? = some id := by
  cases action with
  | snapshotTxn n => cases h
  | _ => exact h

theorem Action.on?_of_commits? {action : Action α} {id : Nat} (h : action.commits? = some id) :
    action.on? = some id := by
  cases action with
  | commit n => exact h
  | _ => cases h

namespace Traffic

/-- What traffic keeps to. -/
structure Sound (a : Traffic α) : Prop where
  engine : a.schedule.engine.Sound
  recorded : a.schedule.Recorded
  keeps : ∀ (id : Nat) (r : Commit α), a.commits id = some r → r.txn = id ∧ r.Keeps a.schedule
  /-- Nothing fires but by a commit. -/
  fired : ∀ c ∈ a.board.fired, ∃ id r, a.commits id = some r ∧ c ∈ r.fired
  /-- Nobody is woken but by a commit. -/
  notified : ∀ w ∈ a.board.notified, ∃ id r, a.commits id = some r ∧ w ∈ r.woken

variable {a : Traffic α} {id : Nat} {r : Commit α} {t : Txn α}

theorem Sound.empty : ({} : Traffic α).Sound :=
  ⟨.empty, .empty, nofun, nofun, nofun⟩

/-- A writer that is not being committed has not been committed before. -/
theorem Sound.commits_eq_none (h : a.Sound) (hfree : a.isBusy id = false)
    (ht : a.schedule.engine.txns[id]? = some t) (hw : t.isWriting = true) :
    a.commits id = none := by
  cases hr : a.commits id with
  | none => rfl
  | some r =>
    have hdone : r.stage.isDone = true := by simpa [isBusy, hr] using hfree
    rcases h.keeps id r hr with ⟨rfl, hkeeps⟩
    rcases (hkeeps.over_of_done hdone).2.1 with ⟨t', ht', hover⟩
    obtain rfl : t = t' := Option.some.inj (ht.symm.trans ht')
    exact absurd hw hover

/-- The board may change as long as nothing fires. -/
theorem Sound.withBoard (h : a.Sound) {board : Board} (hfired : board.fired = a.board.fired)
    (hnotified : board.notified = a.board.notified) : (a.withBoard board).Sound where
  engine := h.engine.withBoard board
  recorded := h.recorded.withBoard board
  keeps := by
    intro id r hr
    rcases h.keeps id r hr with ⟨hid, hkeeps⟩
    exact ⟨hid, hkeeps.spares (r.spares_withBoard a.schedule board)⟩
  fired := fun c hc => h.fired c (hfired ▸ hc)
  notified := fun w hw => h.notified w (hnotified ▸ hw)

/-- No commit is lost when another one begins. -/
theorem Sound.commits_enter (h : a.Sound) (hfree : a.isBusy id = false) {id' : Nat}
    (hr : a.commits id' = some r) : (a.enter id).commits id' = some r := by
  unfold Traffic.enter
  cases ht : a.schedule.engine.txns[id]? with
  | none => exact hr
  | some t =>
    dsimp only
    split
    · rename_i hw
      have hne : id' ≠ id := by
        rintro rfl
        rw [h.commits_eq_none hfree ht hw] at hr
        cases hr
      exact (Function.update_of_ne hne _ _).trans hr
    · exact hr

theorem schedule_enter (a : Traffic α) (id : Nat) : (a.enter id).schedule = a.schedule := by
  unfold Traffic.enter
  cases a.schedule.engine.txns[id]? with
  | none => rfl
  | some t =>
    dsimp only
    split <;> rfl

/-- A commit that begins is ready. -/
theorem Sound.keeps_enter (h : a.Sound) {id' : Nat} (hr : (a.enter id).commits id' = some r) :
    r.txn = id' ∧ r.Keeps a.schedule := by
  unfold Traffic.enter at hr
  cases ht : a.schedule.engine.txns[id]? with
  | none =>
    rw [ht] at hr
    exact h.keeps id' r hr
  | some t =>
    rw [ht] at hr
    dsimp only at hr
    split at hr
    · rename_i hw
      change Function.update _ _ _ _ = _ at hr
      by_cases hid : id' = id
      · subst hid
        rw [Function.update_self] at hr
        obtain rfl := Option.some.inj hr
        exact ⟨rfl, .publishing rfl ⟨ht, hw, rfl, rfl, rfl⟩ rfl rfl⟩
      · rw [Function.update_of_ne hid] at hr
        exact h.keeps id' r hr
    · exact h.keeps id' r hr

theorem Sound.enter (h : a.Sound) (hfree : a.isBusy id = false) : (a.enter id).Sound := by
  have hsame := a.schedule_enter id
  refine ⟨hsame ▸ h.engine, hsame ▸ h.recorded, fun id' r hr => ?_, fun c hc => ?_,
    fun w hw => ?_⟩
  · rw [hsame]
    exact h.keeps_enter hr
  · rw [board, hsame] at hc
    rcases h.fired c hc with ⟨id', r, hr, hc'⟩
    exact ⟨id', r, h.commits_enter hfree hr, hc'⟩
  · rw [board, hsame] at hw
    rcases h.notified w hw with ⟨id', r, hr, hw'⟩
    exact ⟨id', r, h.commits_enter hfree hr, hw'⟩

/-- Others may act as long as they leave the transactions alone that are being committed. -/
theorem Sound.perform (h : a.Sound) {action : Action α} (hno : action.commits? = none)
    (hfree : action.on?.any a.isBusy = false) :
    Traffic.Sound { a with schedule := a.schedule.perform action } := by
  have hboard : ∃ named, (a.schedule.perform action).engine.board =
      { a.schedule.engine.board with named := named } := by
    rw [Schedule.engine_perform]
    exact h.engine.board_perform hno
  rcases hboard with ⟨named, hboard⟩
  refine ⟨?_, h.recorded.perform h.engine action, fun id r hr => ?_, fun c hc => ?_,
    fun w hw => ?_⟩
  · change (a.schedule.perform action).engine.Sound
    rw [Schedule.engine_perform]
    exact h.engine.perform action
  · rcases h.keeps id r hr with ⟨rfl, hkeeps⟩
    refine ⟨rfl, hkeeps.perform h.engine hno fun hdone hactor => ?_⟩
    have hbusy : a.isBusy r.txn = true := by
      rw [isBusy, show a.commits r.txn = some r from hr, Option.any_some, hdone]
      rfl
    rw [Action.on?_of_actor? hactor, Option.any_some, hbusy] at hfree
    cases hfree
  · change c ∈ (a.schedule.perform action).engine.board.fired at hc
    rw [hboard] at hc
    exact h.fired c hc
  · change w ∈ (a.schedule.perform action).engine.board.notified at hw
    rw [hboard] at hw
    exact h.notified w hw

/-- An action in a transaction that is being committed does not come about; a commit begins; and
all other actions are as before. -/
theorem act_cases (a : Traffic α) (action : Action α) :
    a.act action = a ∨ (∃ id, a.isBusy id = false ∧ a.act action = a.enter id) ∨
      (action.commits? = none ∧ action.on?.any a.isBusy = false ∧
        a.act action = { a with schedule := a.schedule.perform action }) := by
  unfold Traffic.act
  split
  · exact .inl rfl
  · rename_i hfree
    rw [Bool.not_eq_true] at hfree
    split
    · rename_i id hcommits
      rw [Action.on?_of_commits? hcommits] at hfree
      exact .inr (.inl ⟨id, hfree, rfl⟩)
    · rename_i hno
      exact .inr (.inr ⟨hno, hfree, rfl⟩)

/-- What some commit has noted is still noted when one of them goes on. -/
theorem exists_update {commits : Nat → Option (Commit α)} (hr : commits id = some r)
    {r' : Commit α} {P : Commit α → Prop} (hP : P r → P r')
    (h : ∃ id r, commits id = some r ∧ P r) :
    ∃ id' r₁, Function.update commits id (some r') id' = some r₁ ∧ P r₁ := by
  rcases h with ⟨id', r₁, hr₁, hP₁⟩
  by_cases hid : id' = id
  · subst hid
    obtain rfl : r = r₁ := Option.some.inj (hr.symm.trans hr₁)
    exact ⟨id', r', Function.update_self _ _ _, hP hP₁⟩
  · exact ⟨id', r₁, (Function.update_of_ne hid _ _).trans hr₁, hP₁⟩

/-- A commit that has begun goes on. -/
theorem Sound.advance (h : a.Sound) (hr : a.commits id = some r) :
    Traffic.Sound ⟨(r.step a.schedule).2,
      Function.update a.commits id (some (r.step a.schedule).1)⟩ := by
  rcases h.keeps id r hr with ⟨rfl, hkeeps⟩
  rcases hkeeps.step h.engine h.recorded with ⟨hs, hrec, hkeeps', hspares⟩
  have hnotes := r.notes_step a.schedule
  have hself : Function.update a.commits r.txn (some (r.step a.schedule).1) r.txn =
      some (r.step a.schedule).1 := Function.update_self _ _ _
  refine ⟨hs, hrec, fun id r' hr' => ?_, fun c hc => ?_, fun w hw => ?_⟩
  · change Function.update _ _ _ _ = _ at hr'
    by_cases hid : id = r.txn
    · rw [hid, hself] at hr'
      obtain rfl := Option.some.inj hr'
      exact ⟨hnotes.grows.txn.trans hid.symm, hkeeps'⟩
    · rw [Function.update_of_ne hid] at hr'
      rcases h.keeps id r' hr' with ⟨rfl, hold⟩
      exact ⟨rfl, hold.spares (hspares r' hid)⟩
  · rcases hnotes.fired c hc with hold | hnew
    · exact exists_update hr (fun hmem => hnotes.grows.fired.subset hmem) (h.fired c hold)
    · exact ⟨r.txn, _, hself, hnew⟩
  · rcases hnotes.notified w hw with hold | hnew
    · exact exists_update hr (fun hmem => hnotes.grows.woken.subset hmem) (h.notified w hold)
    · exact ⟨r.txn, _, hself, hnew⟩

/-- Every move keeps what traffic keeps to. -/
theorem Sound.move (h : a.Sound) (m : Move α) : (a.move m).Sound := by
  cases m with
  | act action =>
    change (a.act action).Sound
    rcases a.act_cases action with heq | ⟨id, hfree, heq⟩ | ⟨hno, hfree, heq⟩
    · rw [heq]
      exact h
    · rw [heq]
      exact h.enter hfree
    · rw [heq]
      exact h.perform hno hfree
  | advance id =>
    simp only [Traffic.move]
    cases hr : a.commits id with
    | none => exact h
    | some r => exact h.advance hr
  | subscribe c w =>
    refine h.withBoard ?_ ?_
    · unfold Board.subscribe
      split <;> rfl
    · unfold Board.subscribe
      split <;> rfl
  | unsubscribe c w => exact h.withBoard rfl rfl

theorem Sound.moveAll (h : a.Sound) (moves : List (Move α)) : (a.moveAll moves).Sound := by
  induction moves generalizing a with
  | nil => exact h
  | cons m moves ih => exact ih (h.move m)

/-- A commit that has begun is not lost, and what it has fired stays so. -/
theorem Sound.grows_move (h : a.Sound) (hr : a.commits id = some r) (m : Move α) :
    ∃ r', (a.move m).commits id = some r' ∧ r.Grows r' := by
  cases m with
  | act action =>
    refine ⟨r, ?_, .refl r⟩
    change (a.act action).commits id = some r
    rcases a.act_cases action with heq | ⟨n, hfree, heq⟩ | ⟨_, _, heq⟩
    · rw [heq]
      exact hr
    · rw [heq]
      exact h.commits_enter hfree hr
    · rw [heq]
      exact hr
  | advance n =>
    simp only [Traffic.move]
    cases hn : a.commits n with
    | none => exact ⟨r, hr, .refl r⟩
    | some r₁ =>
      by_cases hid : id = n
      · subst hid
        obtain rfl : r = r₁ := Option.some.inj (hr.symm.trans hn)
        exact ⟨_, Function.update_self _ _ _, (r.notes_step a.schedule).grows⟩
      · exact ⟨r, (Function.update_of_ne hid _ _).trans hr, .refl r⟩
  | subscribe c w => exact ⟨r, hr, .refl r⟩
  | unsubscribe c w => exact ⟨r, hr, .refl r⟩

theorem Sound.grows_moveAll (h : a.Sound) (hr : a.commits id = some r) (moves : List (Move α)) :
    ∃ r', (a.moveAll moves).commits id = some r' ∧ r.Grows r' := by
  induction moves generalizing a r with
  | nil => exact ⟨r, hr, .refl r⟩
  | cons m moves ih =>
    rcases h.grows_move hr m with ⟨r₁, hr₁, hgrows₁⟩
    rcases ih (h.move m) hr₁ with ⟨r', hr', hgrows⟩
    exact ⟨r', hr', hgrows₁.trans hgrows⟩

/-! ## What is there to be seen -/

/-- The root of a store is what the committed writers make of its first one, and this work is
among theirs. Whatever transaction is opened now, each query in it is answered over this root. -/
def Shows (a : Traffic α) (store : Nat) (work : Work α) : Prop :=
  ∃ st st₀ earlier later, a.schedule.engine.stores[store]? = some st ∧
    a.schedule.origin store = some st₀ ∧
    a.schedule.commits store = earlier ++ work :: later ∧
    st.root = (st₀.serveAll (earlier ++ work :: later)).root ∧
    ∀ id s, a.schedule.engine.Opens store id s → ∀ scan table index args,
      s.ask id scan table index args = some (scan.over st₀.schema st.root table index args)

/-- The transaction has the turn at its store, which has what it saw, and no other writer gets
in. -/
def Guards (a : Traffic α) (r : Commit α) : Prop :=
  ∃ st, a.schedule.engine.stores[r.store]? = some st ∧ st.writer = some r.txn ∧
    st.root.get? = r.view ∧ a.schedule.engine.acquireWrite r.store = none

theorem Sound.shows (h : a.Sound) (hp : r.Published a.schedule) : a.Shows r.store r.work := by
  have hexists : ∃ st, a.schedule.engine.stores[r.store]? = some st :=
    ⟨_, List.getElem?_eq_getElem hp.1⟩
  rcases hexists with ⟨st, hst⟩
  rcases h.recorded.stores r.store st hst with ⟨st₀, horigin, hserve⟩
  rcases List.append_of_mem hp.2 with ⟨earlier, later, hcommits⟩
  have hschema := hserve.schema.trans (st₀.serveAll_schema _)
  have hroot := hserve.root
  rw [hcommits] at hroot
  refine ⟨st, st₀, earlier, later, hst, horigin, hcommits, hroot, ?_⟩
  intro id s hopens scan table index args
  rw [← hschema]
  exact h.engine.ask_opens hst hopens scan table index args

theorem Sound.guards (h : a.Sound) (hr : a.commits id = some r) {waiting : List Wakeup}
    {left : List Channel} (hstage : r.stage = .firing waiting left) : a.Guards r := by
  have hholds : r.Holds a.schedule := by
    cases (h.keeps id r hr).2 with
    | firing _ _ _ hholds _ => exact hholds
    | publishing hother _ _ _ => simp [hstage] at hother
    | releasing hother _ _ _ _ => simp [hstage] at hother
    | counting hother _ _ _ => simp [hstage] at hother
    | running hother _ _ _ => simp [hstage] at hother
  rcases hholds with ⟨st, hst, hturn, hview⟩
  refine ⟨st, hst, hturn, hview, ?_⟩
  simp [Engine.acquireWrite, hst, hturn]

/-- Whoever is woken sees the new root. Commits are under way and others act in between, in any
order. Channels fire and wakeups are notified by commits only, and only channels that a commit
has collected. Once a commit has fired a channel, or has notified anybody, the current root has
the work of its transaction, then and ever after, so each transaction that is opened reads from
a root with this work. While a commit fires, its transaction has the turn to write still. -/
theorem woken_sees_root (moves more : List (Move α)) :
    let a : Traffic α := moveAll {} moves
    (∀ c, a.board.isFired c = true → ∃ id r, a.commits id = some r ∧ c ∈ r.fired) ∧
    (∀ w, a.board.isNotified w = true → ∃ id r, a.commits id = some r ∧ w ∈ r.woken) ∧
    ∀ id r, a.commits id = some r →
      r.txn = id ∧ r.fired <+: r.collected ∧
      (r.fired ≠ [] ∨ r.woken ≠ [] → (a.moveAll more).Shows r.store r.work) ∧
      ∀ waiting left, r.stage = .firing waiting left → a.Guards r := by
  intro a
  have h : a.Sound := Sound.empty.moveAll moves
  refine ⟨fun c hc => h.fired c (List.contains_iff_mem.1 hc),
    fun w hw => h.notified w (List.contains_iff_mem.1 hw), fun id r hr => ?_⟩
  rcases h.keeps id r hr with ⟨hid, hkeeps⟩
  refine ⟨hid, hkeeps.fired_prefix, fun hdone => ?_, fun waiting left hstage => h.guards hr hstage⟩
  rcases h.grows_moveAll hr more with ⟨r', hr', hgrows⟩
  have hlater : (a.moveAll more).Sound := h.moveAll more
  have hdone' : r'.fired ≠ [] ∨ r'.woken ≠ [] := by
    rcases hdone with hfired | hwoken
    · exact .inl fun hnil => hfired (List.prefix_nil.1 (hnil ▸ hgrows.fired))
    · exact .inr fun hnil => hwoken (List.prefix_nil.1 (hnil ▸ hgrows.woken))
  have hpublished := (hlater.keeps id r' hr').2.published_of_fired hdone'
  rw [← hgrows.store, ← hgrows.work]
  exact hlater.shows hpublished

/-- After the first channel has fired, the page is there for readers, while the next writer still
waits. -/
example :
    let moves : List (Move Page) :=
      [.act (.create Page.schema {}), .act (.requestWrite 0), .act (.acquireWrite 0),
        .act (.write 0 (.insert Page.pages { path := "/a" })), .act (.requestWrite 0),
        .act (.commit 0), .advance 0, .advance 0]
    let a : Traffic Page := moveAll {} moves
    let s : Engine Page := a.schedule.engine
    a.board.fired.length = 1 ∧
      (s.askNow 0 .all Page.pages primaryName []).map (Except.map Prod.snd) =
        some (.ok [{ path := "/a" }]) ∧
      (s.acquireWrite 0).isNone = true := by
  decide +kernel

end Traffic

end SnapStore
