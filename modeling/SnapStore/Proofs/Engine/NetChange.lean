import SnapStore.Proofs.Engine.Atomic
import SnapStore.Proofs.Engine.Step
import SnapStore.Proofs.Transaction.Notes

/-! # Change logs along a run

A write transaction keeps a change log from its start, if the settings say so, or from the
moment it is asked to. From then on the log is the difference between what was stored then and
what is stored now, for the primary keys that successful writes of the transaction touched.
Failed writes leave no trace in it, nor does the commit.

Main statement: `changes_eq_net`.
-/

namespace SnapStore

variable {α : Type}

namespace Engine

/-! ## Steps of a transaction with a change log -/

/-- What an action does to what a transaction logs: the transaction writes, is aborted, or keeps
its log and what it sees. -/
inductive LogStep (s : Engine α) (a : Action α) (id : Nat) (t t' : Txn α) : Prop
  | wrote {w : Write α} {st : Store α} (ha : a = .write id w)
    (hst : s.stores[t.store]? = some st) (ht' : t' = ((TxnM.write w).leaves ⟨t, st.stats⟩).txn)
  | aborted (hw : t.isWriting = true) (hended : t'.state = .ended .abort)
  | kept (hwrite : ∀ w, a ≠ .write id w) (hchanges : t.changes.isSome → t'.changes = t.changes)
    (hforest : t'.forest = t.forest) (hschema : t'.schema = t.schema) (hmode : t'.write = t.write)
    (hstate : t'.state = t.state ∨ t.isWriting = true)

variable {s : Engine α} {a : Action α} {id : Nat} {t t' : Txn α}

theorem LogStep.refl (hwrite : ∀ w, a ≠ .write id w) : s.LogStep a id t t :=
  .kept hwrite (fun _ => rfl) rfl rfl rfl (.inl rfl)

theorem logStep_drop (hwrite : ∀ w, a ≠ .write id w) (ht : s.txns[id]? = some t) :
    ∃ t', (s.drop id).txns[id]? = some t' ∧ s.LogStep a id t t' := by
  by_cases hw : t.isWriting = true
  · exact ⟨_, txns_drop_self ht hw, .aborted hw rfl⟩
  · rw [drop_of_some ht, if_neg hw]
    exact ⟨t, ht, .refl hwrite⟩

/-- A transaction goes through each action in one of these ways. -/
theorem Sound.logStep (hs : s.Sound) (ht : s.txns[id]? = some t) (a : Action α) :
    ∃ t', (s.perform a).txns[id]? = some t' ∧ s.LogStep a id t t' := by
  by_cases ha : a.actor? = some id
  · rcases hs.txns id t ht with ⟨st, hst, hf⟩
    cases a with
    | write n w =>
      obtain rfl : n = id := Option.some.inj ha
      refine ⟨_, ?_, .wrote rfl hst rfl⟩
      rw [Engine.perform, next_run ht hst]
      exact txns_updateTxn_self ht
    | query n scan table index args =>
      obtain rfl : n = id := Option.some.inj ha
      refine ⟨t, ?_, .refl (by simp)⟩
      rw [Engine.perform, next_run ht hst, scan.leaves_txn]
      exact txns_updateTxn_self ht
    | trackChanges n =>
      obtain rfl : n = id := Option.some.inj ha
      refine ⟨_, txns_updateTxn_self ht, .kept (by simp) (fun hsome => ?_) rfl rfl rfl (.inl rfl)⟩
      -- the log that is there goes on
      rcases Option.isSome_iff_exists.1 hsome with ⟨log, hlog⟩
      rw [Txn.trackChanges, hlog]
      rfl
    | defer n job =>
      obtain rfl : n = id := Option.some.inj ha
      exact ⟨_, txns_updateTxn_self ht, .kept (by simp) (fun _ => rfl) rfl rfl rfl (.inl rfl)⟩
    | commit n =>
      obtain rfl : n = id := Option.some.inj ha
      by_cases hw : t.isWriting = true
      · refine ⟨_, txns_commitOne_self ht hw, .kept (by simp) (fun _ => rfl) ?_ rfl rfl (.inr hw)⟩
        -- what was published is what the transaction saw
        rw [Txn.forest_of_handles rfl]
        exact hf.sound.get?_published
      · refine ⟨t, ?_, .refl (by simp)⟩
        rw [Engine.perform, commitOne_of_idle ht hw, ht]
    | abort n =>
      obtain rfl : n = id := Option.some.inj ha
      rw [Engine.perform, next_abort]
      exact logStep_drop (by simp) ht
    | drop n =>
      obtain rfl : n = id := Option.some.inj ha
      exact logStep_drop (by simp) ht
    | create _ _ | snapshotStore _ | openRead _ | requestWrite _ | acquireWrite _
    | snapshotTxn _ => cases ha
  · -- the action is made in another transaction, or in none
    refine ⟨t, hs.txns_perform ht ha, .refl fun w hw => ha ?_⟩
    rw [hw]
    rfl

/-! ## What a run touches -/

/-- The primary keys, with their tables, that an action touches if it is a write of the
transaction at the position `id` that succeeds. -/
def touches (s : Engine α) (id : Nat) : Action α → List (String × Key)
  | .write n w =>
    match s.txns[n]?, s.run n (TxnM.write w) with
    | some t, some (.ok (), _) => if n = id then (t.touches w).map (w.table, ·) else []
    | _, _ => []
  | _ => []

/-- What the actions of a run touch, one after another. -/
def touchedIn (id : Nat) (s : Engine α) : List (Action α) → List (String × Key)
  | [] => []
  | a :: actions => s.touches id a ++ (s.perform a).touchedIn id actions

theorem touches_eq_nil (h : ∀ w, a ≠ .write id w) : s.touches id a = [] := by
  cases a with
  | write n w =>
    have hne : n ≠ id := by
      rintro rfl
      exact h w rfl
    simp only [touches, if_neg hne]
    split <;> rfl
  | _ => rfl

/-- The transaction at the position `id` was aborted, or its log holds the difference between
the ledger and what is stored now, under the given primary keys. -/
def Tracks (s : Engine α) (id : Nat) (L : Ledger α) (places : List (String × Key)) : Prop :=
  ∃ t, s.txns[id]? = some t ∧ (t.state = .ended .abort ∨ t.Logs L places)

/-- A write that succeeds carries the difference on, and a write that fails leaves it. -/
theorem tracks_write (ht : s.txns[id]? = some t) (ho : t.Orderly)
    {L : Ledger α} {places : List (String × Key)} (hlogs : t.Logs L places) {w : Write α}
    {st : Store α} (hst : s.stores[t.store]? = some st) :
    ((TxnM.write w).leaves ⟨t, st.stats⟩).txn.Logs L (places ++ s.touches id (.write id w)) := by
  rcases TxnM.notes_write ho w st.stats with ⟨e, hrun⟩ | ⟨t', stats', hnotes, hrun⟩
  · have htouches : s.touches id (.write id w) = [] := by
      simp only [touches, ht, run_eq_put ht hst, hrun]
    rw [htouches, List.append_nil, TxnM.leaves, hrun]
    exact hlogs
  · have htouches : s.touches id (.write id w) = (t.touches w).map (w.table, ·) := by
      simp only [touches, ht, run_eq_put ht hst, hrun, if_true]
    rw [htouches, TxnM.leaves, hrun]
    exact hlogs.write hnotes

/-- Every action carries the difference on. -/
theorem Sound.tracks_perform (hs : s.Sound) (ho : ∀ t, s.txns[id]? = some t → t.Orderly)
    {L : Ledger α} {places : List (String × Key)} (h : s.Tracks id L places) (a : Action α) :
    (s.perform a).Tracks id L (places ++ s.touches id a) := by
  rcases h with ⟨t, ht, hlogs⟩
  rcases hs.logStep ht a with ⟨t', ht', hstep⟩
  refine ⟨t', ht', ?_⟩
  cases hstep with
  | wrote ha hst heq =>
    rename_i w st
    subst ha heq
    rcases hlogs with hended | hlogs
    · have hkeeps := TxnM.keeps_write w ⟨t, st.stats⟩
      rcases hkeeps.frame with ⟨handles, changes, hframe⟩
      rw [hframe]
      exact .inl hended
    · exact .inr (tracks_write ht (ho t ht) hlogs hst)
  | aborted _ hended => exact .inl hended
  | kept hwrite hchanges hforest hschema _ hstate =>
    rw [touches_eq_nil hwrite, List.append_nil]
    rcases hlogs with hended | hlogs
    · rcases hstate with hstate | hw
      · exact .inl (hstate.trans hended)
      · simp [Txn.isWriting, hended] at hw
    · have hsome : t.changes.isSome := by simp [hlogs.changes]
      exact .inr (hlogs.congr (hchanges hsome) hforest hschema)

/-- A run carries the difference on. -/
theorem tracks_performAll {before after : List (Action α)}
    (hnd : ∀ schema settings, .create schema settings ∈ before ++ after → schema.paths.Nodup)
    {L : Ledger α} {places : List (String × Key)}
    (h : (performAll {} before).Tracks id L places) :
    (performAll {} (before ++ after)).Tracks id L
      (places ++ (performAll {} before).touchedIn id after) := by
  induction after generalizing before places with
  | nil => simpa [touchedIn] using h
  | cons a after ih =>
    have hs : (performAll {} before : Engine α).Sound := Sound.empty.performAll before
    have horderly (t : Txn α) (ht : (performAll {} before).txns[id]? = some t) : t.Orderly := by
      refine orderly_performAll (fun schema settings hmem => ?_) ht
      exact hnd schema settings (List.mem_append_left _ hmem)
    have hstep := hs.tracks_perform horderly h a
    have hsplit : before ++ a :: after = before ++ [a] ++ after := by simp
    have hlast : (performAll {} (before ++ [a]) : Engine α) =
        (performAll {} before).perform a := by simp
    rw [hsplit] at hnd ⊢
    rw [← hlast] at hstep
    have hrest := ih hnd hstep
    rw [touchedIn, ← List.append_assoc, ← hlast]
    exact hrest

/-! ## From the first note to the last -/

/-- With this action the transaction at the position `id` starts its change log: it is opened to
write in a store that tracks changes, or it is writing and has kept no log so far. -/
inductive StartsLog (s : Engine α) (id : Nat) : Action α → Prop
  | opened {store : Nat} {st : Store α} {s' : Engine α} (hst : s.stores[store]? = some st)
    (htrack : st.settings.trackChanges = true)
    (hopen : s.acquireWrite store = some (id, s')) : StartsLog s id (.acquireWrite store)
  | asked {t : Txn α} (ht : s.txns[id]? = some t) (hw : t.isWriting = true)
    (hnone : t.changes = none) : StartsLog s id (.trackChanges id)

/-- A log starts without entries. -/
theorem StartsLog.exists_txn (h : s.StartsLog id a) :
    ∃ t, (s.perform a).txns[id]? = some t ∧ t.changes = some {} := by
  cases h with
  | opened hst htrack hopen =>
    rw [Engine.perform, hopen]
    rw [acquireWrite, hst] at hopen
    dsimp only at hopen
    split at hopen
    · cases hopen
    · rcases Prod.mk.inj (Option.some.inj hopen) with ⟨rfl, rfl⟩
      refine ⟨_, getElem?_concat_iff.2 (.inr ⟨rfl, rfl⟩), ?_⟩
      simp [Store.newWriter, htrack]
  | asked ht _ hnone =>
    refine ⟨_, txns_updateTxn_self ht, ?_⟩
    rw [Txn.trackChanges, hnone]
    rfl

/-- A transaction that does not write any more keeps its log, whatever happens. -/
theorem Sound.changes_of_idle (hs : s.Sound) (ht : s.txns[id]? = some t)
    (hidle : ¬ t.isWriting = true) (hsome : t.changes.isSome) (actions : List (Action α)) :
    ∃ t', (s.performAll actions).txns[id]? = some t' ∧ t'.changes = t.changes := by
  induction actions generalizing s t with
  | nil => exact ⟨t, ht, rfl⟩
  | cons a actions ih =>
    rcases hs.logStep ht a with ⟨t', ht', hstep⟩
    cases hstep with
    | wrote ha hst heq =>
      rcases Txn.ensureWrite_of_idle hidle with ⟨e, he⟩
      rw [TxnM.leaves, TxnM.run_write_refused he] at heq
      subst heq
      exact ih (hs.perform a) ht' hidle hsome
    | aborted hw _ => exact absurd hw hidle
    | kept _ hchanges _ _ hmode hstate =>
      have hsame : t'.changes = t.changes := hchanges hsome
      have hidle' : ¬ t'.isWriting = true := by
        rw [Txn.isWriting, hmode, hstate.resolve_right hidle]
        exact hidle
      rcases ih (hs.perform a) ht' hidle' (hsame ▸ hsome) with ⟨t'', ht'', hlater⟩
      exact ⟨t'', ht'', hlater.trans hsame⟩

/-- A commit leaves the log as it is, for good. -/
theorem Sound.changes_commit (hs : s.Sound) (ht : s.txns[id]? = some t)
    (hsome : t.changes.isSome) (more : List (Action α)) :
    ∃ t', (s.performAll (.commit id :: more)).txns[id]? = some t' ∧ t'.changes = t.changes := by
  rw [performAll_cons]
  have hafter := hs.perform (.commit id)
  by_cases hw : t.isWriting = true
  · have hcommitted := txns_commitOne_self ht hw
    exact hafter.changes_of_idle hcommitted (by simp [Txn.isWriting]) hsome more
  · have hsame : s.perform (.commit id) = s := commitOne_of_idle ht hw
    rw [hsame]
    exact hs.changes_of_idle ht hw hsome more

/-- The change log is the net difference. Take any run over stores whose index paths differ, in
which a write transaction starts its change log with the action `start`, and does not abort
later. Then its changes are, for the primary keys that its successful writes touched since, in
the order of the first touch, those from what was stored at the start to what is stored now;
there is one for each key with an object at the start or now, it is exactly one of created,
updated and deleted, and a commit leaves them as they are. -/
theorem changes_eq_net {before after : List (Action α)} {start : Action α} {id : Nat} {t : Txn α}
    (hnd : ∀ schema settings, .create schema settings ∈ before ++ start :: after →
      schema.paths.Nodup)
    (hstart : (performAll {} before).StartsLog id start)
    (ht : (performAll {} (before ++ start :: after)).txns[id]? = some t)
    (hlive : t.state ≠ .ended .abort) :
    let started : Engine α := performAll {} (before ++ [start])
    ∃ t₀ log, started.txns[id]? = some t₀ ∧ t.changes = some log ∧
      log.changes = t₀.forest.stock.net t.forest.stock (started.touchedIn id after) ∧
      (log.changes.map fun c => (c.table, c.key)).Nodup ∧
      (∀ c ∈ log.changes, [c.isCreated, c.isUpdated, c.isDeleted].count true = 1) ∧
      ∀ more, ∃ t', (performAll {} (before ++ start :: after ++ .commit id :: more)).txns[id]? =
        some t' ∧ t'.changes = some log := by
  intro started
  have hsplit : before ++ start :: after = before ++ [start] ++ after := by simp
  rcases hstart.exists_txn with ⟨t₀, ht₀, hempty⟩
  have hbegin : started.txns[id]? = some t₀ := by simpa [started] using ht₀
  -- the log starts without entries, and leads from what is stored at the start
  have htracks : started.Tracks id t₀.forest.stock [] := ⟨t₀, hbegin, .inr (.start hempty)⟩
  have hrun := tracks_performAll (hsplit ▸ hnd) htracks
  rw [← hsplit] at hrun
  rcases hrun with ⟨t', ht', hended | hlogs⟩
  · obtain rfl : t = t' := Option.some.inj (ht.symm.trans ht')
    exact absurd hended hlive
  · obtain rfl : t = t' := Option.some.inj (ht.symm.trans ht')
    have hsound : (performAll {} (before ++ start :: after) : Engine α).Sound :=
      Sound.empty.performAll _
    refine ⟨t₀, _, hbegin, hlogs.changes, ChangeLog.changes_between, ?_, ?_, fun more => ?_⟩
    · rw [ChangeLog.changes_between]
      exact Ledger.nodup_net _ _ _
    · intro c hc
      exact Change.count_eq_one (List.mem_filter.1 hc).2
    · have hsome : t.changes.isSome := by simp [hlogs.changes]
      rcases hsound.changes_commit ht hsome more with ⟨t', ht', hsame⟩
      rw [← performAll_append] at ht'
      exact ⟨t', ht', hsame.trans hlogs.changes⟩

/-- A writer asks for its log between writes to two tables. Afterwards a page goes and comes
back, a draft comes and goes, one deletion fails, and another one takes pages by their tag. -/
theorem changes_eq_net_pages :
    let put (table path : String) (tags : List String) : Action Page :=
      .write 0 (.insert table { path := path, tags := tags })
    let cut (table path : String) : Action Page := .write 0 (.delete table { path := path })
    let before := [.create Page.desk { trackChanges := false }, .requestWrite 0, .acquireWrite 0,
      put Page.pages "/a" [], put Page.pages "/b" ["old"], put Page.drafts "/a" []]
    let start : Action Page := .trackChanges 0
    let after := [put Page.drafts "/c" [], cut Page.pages "/a", put Page.pages "/a" ["new"],
      cut Page.pages "/d", cut Page.drafts "/c", put Page.pages "/e" ["old", "new"],
      .write 0 (.deleteAll Page.pages "tags" [.text "old"]), .commit 0]
    let started : Engine Page := performAll {} (before ++ [start])
    (∀ schema settings, .create schema settings ∈ before ++ start :: after →
        schema.paths.Nodup) ∧
      (performAll {} before).StartsLog 0 start ∧
      ∃ t, (performAll {} (before ++ start :: after)).txns[0]? = some t ∧
        t.state ≠ .ended .abort ∧
        ∃ t₀ log, started.txns[0]? = some t₀ ∧ t.changes = some log ∧
          log.changes = t₀.forest.stock.net t.forest.stock (started.touchedIn 0 after) ∧
          (log.changes.map fun c => (c.table, c.key)).Nodup ∧
          (∀ c ∈ log.changes, [c.isCreated, c.isUpdated, c.isDeleted].count true = 1) ∧
          ∀ more, ∃ t', (performAll {} (before ++ start :: after ++ .commit 0 :: more)).txns[0]? =
            some t' ∧ t'.changes = some log := by
  intro put cut before start after started
  have hnd (schema : Schema Page) (settings : Settings)
      (h : .create schema settings ∈ before ++ start :: after) : schema.paths.Nodup := by
    simp only [before, start, after, put, cut, List.cons_append, List.nil_append, List.mem_cons,
      List.not_mem_nil, reduceCtorEq, or_false, Action.create.injEq] at h
    rw [h.1]
    decide +kernel
  have hwriter : (performAll {} before).txns[0]?.map (fun t => (t.isWriting, t.changes.isNone)) =
      some (true, true) := by decide +kernel
  have hstart : (performAll {} before).StartsLog 0 start := by
    rcases Option.map_eq_some_iff.1 hwriter with ⟨t, ht, hpair⟩
    rcases Prod.mk.inj hpair with ⟨hw, hnone⟩
    exact .asked ht hw (Option.isNone_iff_eq_none.1 hnone)
  have hstate : (performAll {} (before ++ start :: after)).txns[0]?.map Txn.state =
      some (.ended .commit) := by decide +kernel
  rcases Option.map_eq_some_iff.1 hstate with ⟨t, ht, hcommitted⟩
  have hlive : t.state ≠ .ended .abort := by simp [hcommitted]
  exact ⟨hnd, hstart, t, ht, hlive, changes_eq_net hnd hstart ht hlive⟩

/-- A page that goes and comes back is updated, and a draft that comes and goes is no change. -/
example :
    let put (id : Nat) (table path title : String) : Action Page :=
      .write id (.insert table { path := path, title := title })
    let cut (table path : String) : Action Page := .write 1 (.delete table { path := path })
    let actions := [.create Page.desk {}, .requestWrite 0, .acquireWrite 0,
      put 0 Page.pages "/a" "one", put 0 Page.pages "/b" "two", .commit 0,
      .requestWrite 0, .acquireWrite 0, put 1 Page.drafts "/c" "three", cut Page.pages "/a",
      cut Page.drafts "/c", cut Page.pages "/b", put 1 Page.pages "/a" "four", .commit 1]
    let change (c : Change Page) := (c.table, c.before.map Page.title, c.after.map Page.title)
    ((performAll {} actions).txns[1]?.bind Txn.changes).map (·.changes.map change) =
      some [(Page.pages, some "one", some "four"), (Page.pages, some "two", none)] := by
  decide +kernel

end Engine

end SnapStore
