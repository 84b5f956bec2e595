import SnapStore.Proofs.Engine.Jobs
import SnapStore.Proofs.Engine.Traffic
import SnapStore.Proofs.Engine.Wakeup
import SnapStore.Sample.Page

/-! # What is not published wakes nobody

Working copies, snapshots of transactions and copies of stores share their nodes with a primary
store, and so they share its channels. Still none of these channels fires before a writer of the
primary store commits: the drafts of other stores do not track, and no other step fires at all.

Main statements: `Sound.silent_perform` (one action), `Sound.silent_performAll` (a run),
`Sound.silent_commit` (a commit at a copy with all of its deferred jobs) and
`silent_unless_published` (what follows any run).
-/

namespace SnapStore

universe u

variable {α : Type} {V : Type u}

/-! ## Boards on which nothing happens -/

/-- From one board to the other no channel has fired, nobody was notified and no registration
came or went. -/
structure Board.Silent (b b' : Board) : Prop where
  fired : b'.fired = b.fired
  notified : b'.notified = b.notified
  listening : b'.listening = b.listening

namespace Board.Silent

variable {b b' b'' : Board}

theorem refl (b : Board) : b.Silent b := ⟨rfl, rfl, rfl⟩

theorem trans (h : b.Silent b') (h' : b'.Silent b'') : b.Silent b'' :=
  ⟨h'.fired.trans h.fired, h'.notified.trans h.notified, h'.listening.trans h.listening⟩

theorem of_eq (h : b' = b) : b.Silent b' := h ▸ refl b

theorem of_named (h : ∃ named, b' = { b with named := named }) : b.Silent b' := by
  rcases h with ⟨named, rfl⟩
  exact ⟨rfl, rfl, rfl⟩

end Board.Silent

/-! ## Drafts that do not track -/

namespace Draft

/-- A draft that does not track displaces nothing. -/
theorem displaced_apply_untracked {d : Draft V} (h : d.tracking = false) (e : Edit V) :
    (d.apply e).displaced = d.displaced := by
  have hafter (t : Tree V) (cs : List Channel) : (d.after t cs).displaced = d.displaced := by
    rw [displaced_after, h]
    rfl
  cases e with
  | insert key value => exact hafter _ _
  | erase key =>
    simp only [apply, erase]
    split
    · rfl
    · exact hafter _ _
  | eraseStem stem =>
    simp only [apply, eraseStem]
    split
    · rfl
    · exact hafter _ _

theorem displaced_applyAll_untracked {d : Draft V} (h : d.tracking = false)
    (edits : List (Edit V)) : (d.applyAll edits).displaced = d.displaced := by
  induction edits generalizing d with
  | nil => rfl
  | cons e edits ih =>
    have hrest := ih ((tracking_apply d e).trans h)
    exact hrest.trans (displaced_apply_untracked h e)

end Draft

namespace Txn

variable {t : Txn α}

/-- Away from a primary store there is nothing to fire. -/
theorem Sound.displaced_of_copy (h : t.Sound) (hp : t.primary = false) (stamp : Stamp) :
    t.handles.flatMap (fun x => x.2.displaced) ++ (t.rootDraft stamp t.primary).displaced = [] := by
  rw [List.append_eq_nil_iff, List.flatMap_eq_nil_iff]
  constructor
  · rintro ⟨path, draft⟩ hmem
    have hfind := (Catalog.find?_eq_some_iff h.ascends.nodup).2 hmem
    rcases h.drafts path draft hfind with ⟨tree, stamp, edits, _, rfl⟩
    rw [hp]
    exact Draft.displaced_applyAll_untracked rfl edits
  · rw [rootDraft_eq, hp]
    exact Draft.displaced_applyAll_untracked rfl _

end Txn

namespace Engine

variable {s : Engine α} {id store : Nat} {t : Txn α}

/-! ## Stores away from the primary one -/

/-- The store at the position `n` is a snapshot of another one, and not a primary store. -/
def Copied (s : Engine α) (n : Nat) : Prop :=
  ∃ st, s.stores[n]? = some st ∧ st.primary = false

/-- Stores that are snapshots of others stay what they are. -/
theorem Copied.performAll (h : s.Copied store) (hs : s.Sound) (actions : List (Action α)) :
    (s.performAll actions).Copied store := by
  rcases h with ⟨st, hst, hp⟩
  rcases (hs.extends_performAll actions).stores store st hst with ⟨st', hst', hleads⟩
  exact ⟨st', hst', hleads.primary.trans hp⟩

theorem Copied.reaches {s' : Engine α} (h : s.Copied store) (hs : s.Sound) (hreach : s.Reaches s') :
    s'.Copied store := by
  rcases hreach with ⟨actions, rfl⟩
  exact h.performAll hs actions

/-- A snapshot of a store is a copy, whatever store it was taken from. -/
theorem copied_snapshotStore {m : Nat} {st : Store α} (hst : s.stores[m]? = some st) :
    (s.perform (.snapshotStore m)).Copied s.stores.length := by
  rw [Engine.perform, snapshotStore, hst]
  exact ⟨st.snapshot, getElem?_concat_iff.2 (.inr ⟨rfl, rfl⟩), rfl⟩

/-- The board after an operation is the board before. -/
theorem board_next_run {β : Type} (s : Engine α) (id : Nat) (op : TxnM α β) :
    (s.next (s.run id op)).board = s.board := by
  unfold run
  cases s.txns[id]? with
  | none => rfl
  | some t =>
    dsimp only
    cases s.stores[t.store]? with
    | none => rfl
    | some st =>
      dsimp only
      cases op.run ⟨t, st.stats⟩ <;> rfl

theorem board_of_run {β : Type} {op : TxnM α β} {x : Except Error β} {s' : Engine α}
    (h : s.run id op = some (x, s')) : s'.board = s.board := by
  have hboard := board_next_run s id op
  rwa [h] at hboard

namespace Sound

/-- A writer of a copy fires nothing when it commits. -/
theorem silent_commitWrites (hs : s.Sound) (ht : s.txns[id]? = some t) (hcopy : s.Copied t.store) :
    s.board.Silent (s.commitWrites id t.store).board := by
  rcases hcopy with ⟨st, hst, hp⟩
  rcases hs.txns id t ht with ⟨st', hst', hf⟩
  obtain rfl : st = st' := Option.some.inj (hst.symm.trans hst')
  have hnone : (s.publish id).1 = [] := by
    rw [publish_eq ht]
    exact hf.sound.displaced_of_copy (hf.primary.trans hp) _
  rw [commitWrites_eq ht, hnone]
  exact .refl s.board

/-- No action is heard but the commit of a writer of a primary store. -/
theorem silent_perform (hs : s.Sound) {a : Action α}
    (ha : ∀ id t, s.Commits a id t → s.Copied t.store) :
    s.board.Silent (s.perform a).board := by
  cases hcommits : a.commits? with
  | none => exact .of_named (hs.board_perform hcommits)
  | some id =>
    obtain rfl : a = .commit id := by
      cases a with
      | commit n => exact congrArg Action.commit (Option.some.inj hcommits)
      | _ => cases hcommits
    rw [Engine.perform]
    cases ht : s.txns[id]? with
    | none => exact .of_eq (congrArg Engine.board (commitOne_of_none ht))
    | some t =>
      by_cases hw : t.isWriting = true
      · have hcopy := ha id t ⟨rfl, ht, hw⟩
        simp only [Engine.commitOne, ht, hw, if_true]
        exact hs.silent_commitWrites ht hcopy
      · exact .of_eq (congrArg Engine.board (commitOne_of_idle ht hw))

/-! ## Jobs at a copy -/

theorem silent_countTable (hs : s.Sound) (store : Nat) (table : String) :
    s.board.Silent (s.countTable store table).2.board := by
  have hread : s.board.Silent (s.next (s.openRead store)).board :=
    .of_named (hs.board_perform (a := .openRead store) rfl)
  rw [countTable]
  cases hopen : s.openRead store with
  | none => exact .refl s.board
  | some x =>
    rcases x with ⟨id, s'⟩
    rw [hopen] at hread
    dsimp only
    cases hrun : s'.run id (TxnM.all table primaryName []) with
    | none => exact hread
    | some y => exact hread.trans (.of_eq (board_of_run hrun))

/-- A writer that gets its turn is not heard before it commits, also if it fails. -/
theorem silent_takeTurn (hs : s.Sound) {β : Type} {op : TxnM α β} {x : Except Error (Nat × β)}
    {s' : Engine α} (h : s.takeTurn store op = some (x, s')) : s.board.Silent s'.board := by
  have hturn : s.board.Silent (s.next (s.acquireWrite store)).board :=
    .of_named (hs.board_perform (a := .acquireWrite store) rfl)
  unfold takeTurn at h
  cases hacquire : s.acquireWrite store with
  | none => simp [hacquire] at h
  | some y =>
    rcases y with ⟨id, s₁⟩
    rw [hacquire] at hturn
    simp only [hacquire] at h
    cases hrun : s₁.run id op with
    | none => simp [hrun] at h
    | some z =>
      rcases z with ⟨result, s₂⟩
      have hops : s.board.Silent s₂.board := hturn.trans (.of_eq (board_of_run hrun))
      simp only [hrun] at h
      cases result with
      | error e =>
        rcases Prod.mk.inj (Option.some.inj h) with ⟨_, rfl⟩
        exact hops.trans (.of_eq (board_drop s₂ id))
      | ok b =>
        rcases Prod.mk.inj (Option.some.inj h) with ⟨_, rfl⟩
        exact hops

mutual

/-- A job at a copy is not heard. -/
theorem silent_runJob :
    ∀ (job : Job α) {s : Engine α}, s.Sound → s.Copied store →
      s.board.Silent (runJob store job s).2.board
  | .note label, s, _, _ => by
    rw [runJob]
    exact .refl s.board
  | .count table, s, hs, _ => by
    rw [runJob]
    exact hs.silent_countTable store table
  | .all jobs, s, hs, hcopy => by
    rw [runJob]
    exact silent_runJobs jobs hs hcopy
  | .write writes deferred ending, s, hs, hcopy => by
    rw [runJob]
    have hrequest : s.Reaches (s.requestWrite store) := .perform s (.requestWrite store)
    cases hturn : (s.requestWrite store).takeTurn store (TxnM.writeAll writes) with
    | none => exact .refl s.board
    | some x =>
      rcases x with ⟨result, s'⟩
      have hsilent : s.board.Silent s'.board := (hrequest.sound hs).silent_takeTurn hturn
      rcases (hrequest.sound hs).reaches_takeTurn hturn with ⟨hreach, hwrites⟩
      have hreach' : s.Reaches s' := hrequest.trans hreach
      have hs' : s'.Sound := hreach'.sound hs
      have hcopy' : s'.Copied store := hcopy.reaches hs hreach'
      cases result with
      | error e => exact hsilent
      | ok y =>
        rcases y with ⟨id, _⟩
        rcases hwrites id rfl with ⟨t, ht⟩
        cases ending with
        | abort => exact hsilent
        | commit =>
          -- the commit and the jobs of the job are at the copy too
          have hcommit : s'.Reaches (s'.commitWrites id store) := by
            rw [ht.commitWrites_eq]
            exact .perform s' _
          have hown : s'.board.Silent (s'.commitWrites id store).board := by
            have hstore : s'.Copied t.store := ht.store ▸ hcopy'
            have hquiet := hs'.silent_commitWrites ht.txn hstore
            rwa [ht.store] at hquiet
          have hrest := silent_runDeferred deferred (hcommit.sound hs')
            (hcopy'.reaches hs' hcommit)
          exact (hsilent.trans hown).trans hrest

theorem silent_runJobs :
    ∀ (jobs : List (Job α)) {s : Engine α}, s.Sound → s.Copied store →
      s.board.Silent (runJobs store jobs s).2.board
  | [], s, _, _ => by
    rw [runJobs]
    exact .refl s.board
  | job :: jobs, s, hs, hcopy => by
    rw [runJobs]
    have hreach := Sound.reaches_runJob store job hs
    have hrest := silent_runJobs jobs (hreach.sound hs) (hcopy.reaches hs hreach)
    exact (silent_runJob job hs hcopy).trans hrest

theorem silent_runDeferred :
    ∀ (jobs : List (Job α)) {s : Engine α}, s.Sound → s.Copied store →
      s.board.Silent (runDeferred store jobs s).2.board
  | [], s, _, _ => by
    rw [runDeferred]
    exact .refl s.board
  | job :: jobs, s, hs, hcopy => by
    rw [runDeferred]
    have hreach := Sound.reaches_runDeferred store jobs hs
    have hlast := silent_runJob job (hreach.sound hs) (hcopy.reaches hs hreach)
    exact (silent_runDeferred jobs hs hcopy).trans hlast

end

/-- A commit at a copy is not heard, and neither is anything that it sets off. -/
theorem silent_commit (hs : s.Sound) (ht : s.txns[id]? = some t) (hcopy : s.Copied t.store) :
    s.board.Silent (s.next (s.commit id)).board := by
  by_cases hw : t.isWriting = true
  · have hreach : s.Reaches (s.perform (.commit id)) := .perform s _
    have hown : s.board.Silent (s.perform (.commit id)).board := by
      refine hs.silent_perform fun n t' hc => ?_
      cases hc.action
      obtain rfl := Option.some.inj (ht.symm.trans hc.txn)
      exact hcopy
    rw [next_commit_of_writing ht hw]
    exact hown.trans (silent_runDeferred t.deferred (hreach.sound hs) (hcopy.reaches hs hreach))
  · exact .of_eq (congrArg Engine.board (next_commit_of_idle ht hw))

end Sound

/-! ## Runs -/

/-- If something is heard during a run, a writer of a primary store has committed. -/
theorem Sound.silent_performAll (hs : s.Sound) (actions : List (Action α)) :
    s.board.Silent (s.performAll actions).board ∨
      ∃ before a after, actions = before ++ a :: after ∧
        ∃ id t, (s.performAll before).Commits a id t ∧ ¬ (s.performAll before).Copied t.store := by
  induction actions generalizing s with
  | nil => exact .inl (.refl s.board)
  | cons a actions ih =>
    by_cases ha : ∀ id t, s.Commits a id t → s.Copied t.store
    · rcases ih (hs.perform a) with hsilent | ⟨before, a', after, rfl, hcommit⟩
      · exact .inl ((hs.silent_perform ha).trans hsilent)
      · exact .inr ⟨a :: before, a', after, rfl, hcommit⟩
    · simp only [not_forall] at ha
      rcases ha with ⟨id, t, hc, hprimary⟩
      exact .inr ⟨[], a, actions, rfl, id, t, hc, hprimary⟩

/-- What is not published wakes nobody. Whatever action comes after a run, a write that succeeds
or fails, a query, a snapshot of a store or of a transaction, an abort, a drop or a commit: no
channel fires and nobody is notified, unless the action commits a writer of a primary store. A
snapshot of a store, be it primary or a snapshot itself, is never primary, and a commit there is
not heard even with all jobs that were deferred to it. -/
theorem silent_unless_published (before : List (Action α)) :
    let s := ({} : Engine α).performAll before
    (∀ a, s.board.Silent (s.perform a).board ∨
      ∃ id t st, s.Commits a id t ∧ s.stores[t.store]? = some st ∧ st.primary = true) ∧
    ∀ m st after id t, s.stores[m]? = some st →
      let later := (s.perform (.snapshotStore m)).performAll after
      later.txns[id]? = some t → t.store = s.stores.length →
        later.board.Silent (later.next (later.commit id)).board := by
  intro s
  have hs : s.Sound := Sound.empty.performAll before
  constructor
  · intro a
    by_cases ha : ∀ id t, s.Commits a id t → s.Copied t.store
    · exact .inl (hs.silent_perform ha)
    · simp only [not_forall] at ha
      rcases ha with ⟨id, t, hc, hnot⟩
      rcases hs.txns id t hc.txn with ⟨st, hst, _⟩
      have hprimary : st.primary = true := by
        rw [← Bool.not_eq_false]
        exact fun hp => hnot ⟨st, hst, hp⟩
      exact .inr ⟨id, t, st, hc, hst, hprimary⟩
  · intro m st after id t hst later ht hstore
    have hsound := hs.perform (.snapshotStore m)
    have hcopied : later.Copied s.stores.length :=
      (copied_snapshotStore hst).performAll hsound after
    exact (hsound.performAll after).silent_commit ht (hstore ▸ hcopied)

/-- A page of a primary store is replaced at a snapshot of a snapshot of the store. The commit
there puts the new page in place, and so does its deferred job with another one. -/
theorem silent_unless_published_pages :
    let put (slug : String) : Write Page := .insert Page.pages { path := "/a", slug := slug }
    let before := [.create Page.schema {}, .requestWrite 0, .acquireWrite 0,
      .write 0 (put "spring"), .commit 0, .snapshotStore 0]
    let after := [.requestWrite 2, .acquireWrite 2, .write 1 (put "sprint"),
      .defer 1 (.write [put "sprite"] [] .commit)]
    let later := ((performAll {} before).perform (.snapshotStore 1)).performAll after
    let committed := later.next (later.commit 1)
    later.board.Silent committed.board ∧
      (committed.askNow 2 .all Page.pages "slug_prefix" [.text "spr"]).map
        (fun x => x.toOption.map Prod.snd) = some (some [{ path := "/a", slug := "sprite" }]) := by
  intro put before after later committed
  have hstore : ((performAll {} before).stores[1]?).isSome = true := by decide +kernel
  have htxn : later.txns[1]?.map Txn.store = some 2 := by decide +kernel
  rcases Option.isSome_iff_exists.1 hstore with ⟨st, hst⟩
  rcases Option.map_eq_some_iff.1 htxn with ⟨t, ht, hcopy⟩
  have hlength : (performAll {} before : Engine Page).stores.length = 2 := by decide +kernel
  refine ⟨(silent_unless_published before).2 1 st after 1 t hst ht (hcopy.trans hlength.symm), ?_⟩
  decide +kernel

end Engine

end SnapStore
