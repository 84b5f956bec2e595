import Mathlib.Logic.Relation
import SnapStore.Proofs.Engine.Serial

/-! # Commits under way

A commit takes several steps. It puts the new root in place, and then fires the channels that it
has collected: it marks one, notifies its listeners one by one, and goes on to the next. Then it
marks the transaction as committed, lets the next writer in, counts, and runs the deferred jobs,
the last one first. Traffic is any interleaving of the steps of commits with the actions of
everybody else.

Main statements: `Commit.leads_commitOne` (without anybody in between, the steps of a commit
come to the commit as one action) and `Engine.board_perform` (no other action fires a channel).
-/

namespace SnapStore

variable {α : Type}

/-! ## Steps of a commit -/

/-- How far a commit has come. -/
inductive Stage (α : Type) where
  | publishing
  /-- The wakeups in `waiting` are to be notified, and then the channels in `left` to be
  fired. -/
  | firing (waiting : List Wakeup) (left : List Channel)
  | releasing
  | counting
  /-- The jobs in `left` have not been started, and the last of them is the next. What they do
  are actions of their own. -/
  | running (left : List (Job α))

/-- Whether nothing is left to do. -/
def Stage.isDone : Stage α → Bool
  | .running [] => true
  | _ => false

/-- A commit: its transaction with the store that it belongs to, what it has done and what it
saw, the channels that were collected, and among them those that the commit has fired so far,
with the wakeups that it has notified. -/
structure Commit (α : Type) where
  txn : Nat
  store : Nat
  work : Work α
  view : Forest α
  collected : List Channel := []
  fired : List Channel := []
  woken : List Wakeup := []
  stage : Stage α := .publishing

/-- The deferred jobs of a transaction, in the order of registration. -/
def Engine.jobs (s : Engine α) (id : Nat) : List (Job α) :=
  (s.txns[id]?.map Txn.deferred).getD []

namespace Schedule

/-- The schedule with another board. -/
def withBoard (a : Schedule α) (board : Board) : Schedule α :=
  { a with engine := { a.engine with board := board } }

/-- The schedule after the new root of a writer is in place. With the root the store takes the
work of the writer into its record; what the writer writes from then on would be new. -/
def publish (a : Schedule α) (id : Nat) : Schedule α :=
  { a with
    engine := (a.engine.publish id).2
    commits := a.committed id
    writes := Function.update a.writes id [] }

end Schedule

/-- The next step of a commit. -/
def Commit.step (r : Commit α) (a : Schedule α) : Commit α × Schedule α :=
  match r.stage with
  | .publishing =>
    let (channels, _) := a.engine.publish r.txn
    ({ r with collected := channels, stage := .firing [] channels }, a.publish r.txn)
  | .firing (w :: waiting) left =>
    ({ r with woken := r.woken ++ [w], stage := .firing waiting left },
      a.withBoard (a.engine.board.notify w))
  | .firing [] (c :: left) =>
    let (board, waiting) := a.engine.board.mark c
    ({ r with fired := r.fired ++ [c], stage := .firing waiting left }, a.withBoard board)
  | .firing [] [] =>
    ({ r with stage := .releasing }, { a with engine := a.engine.mark r.txn .commit })
  | .releasing => ({ r with stage := .counting }, { a with engine := a.engine.release r.store })
  | .counting =>
    let s := (a.engine.tally r.store .commit).updateTxn r.txn fun t => { t with deferred := [] }
    ({ r with stage := .running (a.engine.jobs r.txn) }, { a with engine := s })
  | .running jobs => ({ r with stage := .running jobs.dropLast }, a)

namespace Commit

/-- Some steps of a commit, with nobody else in between, lead from one state to another. -/
def Leads : Commit α × Schedule α → Commit α × Schedule α → Prop :=
  Relation.ReflTransGen fun x y => y = x.1.step x.2

/-- The commit of a transaction before its first step. -/
def start (a : Schedule α) (id : Nat) (t : Txn α) : Commit α :=
  { txn := id, store := t.store, work := ⟨t.name, a.writes id⟩, view := t.forest }

/-- Whoever listens to a channel is notified. -/
theorem leads_notify (waiting : List Wakeup) (left : List Channel) (r : Commit α)
    (a : Schedule α) : Leads ({ r with stage := .firing waiting left }, a)
      ({ r with woken := r.woken ++ waiting, stage := .firing [] left },
        a.withBoard (waiting.foldl Board.notify a.engine.board)) := by
  induction waiting generalizing r a with
  | nil =>
    rw [List.append_nil]
    exact .refl
  | cons w waiting ih =>
    have hrest := ih { r with woken := r.woken ++ [w] } (a.withBoard (a.engine.board.notify w))
    rw [List.append_assoc] at hrest
    exact .head rfl hrest

/-- All channels are fired, one after another. -/
theorem leads_fire (left : List Channel) (r : Commit α) (a : Schedule α) :
    ∃ woken, Leads ({ r with stage := .firing [] left }, a)
      ({ r with fired := r.fired ++ left, woken := woken, stage := .firing [] [] },
        a.withBoard (a.engine.board.fireAll left)) := by
  induction left generalizing r a with
  | nil => exact ⟨r.woken, by rw [List.append_nil]; exact .refl⟩
  | cons c left ih =>
    have hnotify := leads_notify (a.engine.board.mark c).2 left
      { r with fired := r.fired ++ [c] } (a.withBoard (a.engine.board.mark c).1)
    rcases ih { r with fired := r.fired ++ [c], woken := r.woken ++ (a.engine.board.mark c).2 }
      (a.withBoard (a.engine.board.fire c)) with ⟨woken, hrest⟩
    rw [List.append_assoc] at hrest
    exact ⟨woken, .head rfl (hnotify.trans hrest)⟩

/-- When all channels have fired, three steps lead to the deferred jobs. -/
theorem leads_finish (r : Commit α) (a : Schedule α) :
    Leads ({ r with stage := .firing [] [] }, a)
      ({ r with stage := .running ((a.engine.mark r.txn .commit).jobs r.txn) },
        { a with engine := (((a.engine.mark r.txn .commit).release r.store).tally r.store
          .commit).updateTxn r.txn fun t => { t with deferred := [] } }) :=
  .head rfl (.head rfl (.single rfl))

/-- With nobody in between, the steps of a commit come to the commit as one action: all channels
that were collected have fired, and the deferred jobs are still to come. -/
theorem leads_commitOne {a : Schedule α} {id : Nat} {t : Txn α}
    (ht : a.engine.txns[id]? = some t) (hw : t.isWriting = true) :
    ∃ r a', Leads (start a id t, a) (r, a') ∧ a'.engine = a.engine.commitOne id ∧
      a'.commits = a.committed id ∧ r.fired = (a.engine.publish id).1 ∧
      r.stage = .running t.deferred := by
  let channels := (a.engine.publish id).1
  let published := a.publish id
  have hboard : published.engine.board = a.engine.board := by
    change (a.engine.publish id).2.board = _
    rw [Engine.publish_eq ht]
    rfl
  have htxn := Engine.txns_publish_self ht
  let fired := published.withBoard (published.engine.board.fireAll channels)
  have hpublish : Leads (start a id t, a)
      ({ start a id t with collected := channels, stage := .firing [] channels }, published) :=
    .single rfl
  rcases leads_fire channels { start a id t with collected := channels } published
    with ⟨woken, hfire⟩
  have hfinish := leads_finish
    { start a id t with collected := channels, fired := channels, woken := woken } fired
  refine ⟨_, _, (hpublish.trans hfire).trans hfinish, ?_, rfl, rfl, ?_⟩
  · simp only [Engine.commitOne, ht, hw, if_true]
    rw [Engine.commitWrites_eq ht, ← hboard]
    rfl
  · have hmarked : (fired.engine.mark id .commit).txns[id]? = some { t with
        root := t.published, handles := [], state := .ended .commit } :=
      Engine.txns_updateTxn_self htxn
    change Stage.running ((fired.engine.mark id .commit).jobs id) = _
    rw [Engine.jobs, hmarked]
    rfl

end Commit

/-! ## What other actions leave alone -/

/-- The transaction that an action commits. -/
def Action.commits? : Action α → Option Nat
  | .commit id => some id
  | _ => none

/-- The transaction that an action is made in, or takes a snapshot of. -/
def Action.on? : Action α → Option Nat
  | .snapshotTxn id => some id
  | a => a.actor?

namespace Engine

variable {s : Engine α} {a : Action α}

theorem not_commits (ha : a.commits? = none) (id : Nat) (t : Txn α) : ¬ s.Commits a id t := by
  intro hc
  rw [hc.action] at ha
  cases ha

theorem board_drop (s : Engine α) (id : Nat) : (s.drop id).board = s.board := by
  cases ht : s.txns[id]? with
  | none => rw [drop_of_none ht]
  | some t =>
    rw [drop_of_some ht]
    split <;> rfl

namespace Sound

/-- No action but a commit fires a channel, notifies a wakeup or touches a registration. All it
does to the board is to give out a name. -/
theorem board_perform (hs : s.Sound) (ha : a.commits? = none) :
    ∃ named, (s.perform a).board = { s.board with named := named } := by
  have hsame {s' : Engine α} (h : s'.board = s.board) :
      ∃ named, s'.board = { s.board with named := named } := ⟨s.board.named, h⟩
  cases hs.performs a with
  | nothing _ _ heq | copy _ _ heq | request _ heq | write _ _ _ heq | count _ _ _ heq
  | aside _ _ _ _ heq =>
    rw [heq]
    exact hsame rfl
  | create _ _ heq | read _ _ heq | turn _ _ _ heq | view _ _ _ _ heq =>
    -- the new store or transaction gets a name
    rw [heq]
    exact ⟨_, rfl⟩
  | commit hc _ => exact absurd hc (not_commits ha _ _)
  | drop _ _ _ _ _ heq =>
    rw [heq]
    exact hsame (board_drop s _)

/-- Whoever has the turn to write keeps it, and the root, as long as only others act and none
of them commits. -/
theorem turn_perform (hs : s.Sound) {n id : Nat} {st : Store α}
    (hst : s.stores[n]? = some st) (hturn : st.writer = some id) (ha : a.actor? ≠ some id)
    (hno : a.commits? = none) :
    ∃ st', (s.perform a).stores[n]? = some st' ∧ st'.writer = some id ∧ st'.root = st.root := by
  have hsame {s' : Engine α} (h : s'.stores[n]? = s.stores[n]?) :
      ∃ st', s'.stores[n]? = some st' ∧ st'.writer = some id ∧ st'.root = st.root :=
    ⟨st, h.trans hst, hturn, rfl⟩
  have hcount {g : Store α → Store α} {m : Nat} (hg : (g st).writer = st.writer)
      (hroot : (g st).root = st.root) : ∃ st', (s.updateStore m g).stores[n]? = some st' ∧
        st'.writer = some id ∧ st'.root = st.root := by
    refine ⟨_, getElem?_stores_updateStore.2 ⟨st, hst, rfl⟩, ?_⟩
    split
    · exact ⟨hg.trans hturn, hroot⟩
    · exact ⟨hturn, rfl⟩
  have hnew (st' : Store α) : (s.stores ++ [st'])[n]? = s.stores[n]? := by
    rw [hst]
    exact getElem?_concat_iff.2 (.inl hst)
  cases hs.performs a with
  | nothing _ _ heq | view _ _ _ _ heq | aside _ _ _ _ heq =>
    rw [heq]
    exact hsame rfl
  | create _ _ heq | copy _ _ heq =>
    rw [heq]
    exact hsame (hnew _)
  | read _ _ heq | request _ heq | write _ _ _ heq | count _ _ _ heq =>
    rw [heq]
    exact hcount rfl rfl
  | @turn m st' _ hst' hfree heq =>
    -- the turn is taken at another store
    have hstore : n ≠ m := by
      rintro rfl
      obtain rfl : st = st' := Option.some.inj (hst.symm.trans hst')
      rw [hfree] at hturn
      cases hturn
    rw [heq]
    exact hsame (stores_updateStore_of_ne hstore)
  | commit hc _ => exact absurd hc (not_commits hno _ _)
  | @drop m t hactor _ _ ht hw heq =>
    -- whoever is dropped has the turn at another store
    have hstore : n ≠ t.store := by
      rintro rfl
      rcases hs.txns m t ht with ⟨st', hst', hf⟩
      obtain rfl : st = st' := Option.some.inj (hst.symm.trans hst')
      have hid : m = id := Option.some.inj ((hf.writes hw).1.symm.trans hturn)
      exact ha (hid ▸ hactor)
    rw [heq, drop_of_some ht, if_pos hw]
    exact hsame ((stores_updateStore_of_ne hstore).trans (stores_updateStore_of_ne hstore))

end Sound

end Engine

end SnapStore
