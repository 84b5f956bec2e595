import SnapStore.Proofs.Engine.Serial

/-! # One view, three routes

What a write transaction sees is kept in three ways: as drafts over the root it captured, in
the root of a snapshot of the transaction, and in the root that its commit puts in place. Every
query is answered alike by all three. An abort puts nothing in place.

Main statement: `one_view`.
-/

namespace SnapStore

variable {α : Type}

namespace Engine

variable {s : Engine α} {a : Action α} {id store : Nat}

/-! ## Stores that nobody writes to -/

/-- No transaction of the store is writing. -/
def Idle (s : Engine α) (store : Nat) : Prop :=
  ∀ (id : Nat) (t : Txn α), s.txns[id]? = some t → t.store = store → ¬ t.isWriting = true

/-- Where no turn to write is taken, nobody is writing. -/
theorem Sound.idle_of_writer_none (hs : s.Sound) {st : Store α}
    (hst : s.stores[store]? = some st) (hnone : st.writer = none) : s.Idle store := by
  intro id t ht hstore hw
  rcases hs.txns id t ht with ⟨st', hst', hf⟩
  obtain rfl : st = st' := Option.some.inj (hst.symm.trans (hstore ▸ hst'))
  have hturn := (hf.writes hw).1
  rw [hnone] at hturn
  cases hturn

/-- Nobody writes to an idle store as long as nobody opens a write transaction. -/
theorem Sound.idle_perform (hs : s.Sound) (h : s.Idle store) (ha : a ≠ .acquireWrite store) :
    (s.perform a).Idle store := by
  intro id t' ht' hstore hw
  cases hs.txnStep ht' with
  | reader _ _ _ heq =>
    subst heq
    cases hw
  | writer haction _ _ heq =>
    subst heq
    exact ha (haction.trans (congrArg Action.acquireWrite hstore))
  | snapshot _ _ _ _ hviews =>
    rw [Txn.isWriting, hviews.write] at hw
    cases hw
  | @wrote w t st ha' ht hst heq =>
    rcases (TxnM.keeps_write w ⟨t, st.stats⟩).frame with ⟨handles, changes, hframe⟩
    rw [heq, hframe] at hstore hw
    exact h id t ht hstore hw
  | stays ht heq _ _ =>
    subst heq
    exact h id _ ht hstore hw
  | ended _ _ hended =>
    rw [Txn.isWriting, hended] at hw
    simp at hw

/-- An idle store goes on with its contents. -/
theorem Sound.stays_of_idle (hs : s.Sound) (h : s.Idle store) {st : Store α}
    (hst : s.stores[store]? = some st) {later : List (Action α)}
    (hlater : .acquireWrite store ∉ later) :
    ∃ st', (s.performAll later).stores[store]? = some st' ∧ st.Stays st' := by
  induction later generalizing s st with
  | nil => exact ⟨st, hst, .refl st⟩
  | cons a later ih =>
    rw [List.mem_cons, not_or] at hlater
    have hafter := hs.perform a
    have hidle := hs.idle_perform h (Ne.symm hlater.1)
    rcases (hs.extends_perform a).stores store st hst with ⟨st₁, hst₁, _⟩
    have hlt : store < s.stores.length := (List.getElem?_eq_some_iff.1 hst).1
    have hstays : st.Stays st₁ := by
      cases hs.storeStep hst₁ with
      | created _ hn _ => exact absurd hn (Nat.ne_of_lt hlt)
      | copied _ hn _ _ => exact absurd hn (Nat.ne_of_lt hlt)
      | stays hst₂ hstays _ =>
        obtain rfl := Option.some.inj (hst.symm.trans hst₂)
        exact hstays
      | published _ hc hstore _ _ _ =>
        -- whoever publishes is writing
        exact absurd hc.writing (h _ _ hc.txn hstore)
    rcases ih hafter hidle hst₁ hlater.2 with ⟨st₂, hst₂, hstays₂⟩
    exact ⟨st₂, hst₂, hstays.trans hstays₂⟩

/-- As long as nobody writes to a store, new readers are answered over the root that it has. -/
theorem Sound.askNow_of_writer_none (hs : s.Sound) {st : Store α}
    (hst : s.stores[store]? = some st) (hnone : st.writer = none) {later : List (Action α)}
    (hlater : .acquireWrite store ∉ later) (scan : Scan) (table index : String)
    (args : List Arg) :
    (s.performAll later).askNow store scan table index args =
      some (scan.over st.schema st.root table index args) := by
  have hidle := hs.idle_of_writer_none hst hnone
  rcases hs.stays_of_idle hidle hst hlater with ⟨st', hst', hstays⟩
  rw [(hs.performAll later).askNow_eq hst', hstays.schema, hstays.root]

/-! ## A writer and its root -/

/-- The transaction at the position `id`, as long as it is writing, works for this store on this
root. -/
def WritesOn (s : Engine α) (id store : Nat) (root : Root α) : Prop :=
  ∃ t, s.txns[id]? = some t ∧ (t.isWriting = true → t.store = store ∧ t.root = root)

/-- A new writer works on the root that is current when it gets its turn. -/
theorem writesOn_acquireWrite {s' : Engine α} (hopen : s.acquireWrite store = some (id, s')) :
    ∃ st, s.stores[store]? = some st ∧ (s.perform (.acquireWrite store)).WritesOn id store
      st.root := by
  rw [Engine.perform, hopen]
  rw [acquireWrite] at hopen
  cases hst : s.stores[store]? with
  | none =>
    rw [hst] at hopen
    cases hopen
  | some st =>
    rw [hst] at hopen
    dsimp only at hopen
    split at hopen
    · cases hopen
    · rcases Prod.mk.inj (Option.some.inj hopen) with ⟨rfl, rfl⟩
      refine ⟨st, rfl, _, getElem?_concat_iff.2 (.inr ⟨rfl, rfl⟩), fun _ => ⟨rfl, rfl⟩⟩

/-- Who is writing after an action was writing before, for the same store and on the same
root. -/
theorem Sound.writing_perform (hs : s.Sound) {t : Txn α} (ht : s.txns[id]? = some t)
    (a : Action α) : ∃ t', (s.perform a).txns[id]? = some t' ∧
      (t'.isWriting = true → t.isWriting = true ∧ t'.store = t.store ∧ t'.root = t.root) := by
  have hlt : id < s.txns.length := (List.getElem?_eq_some_iff.1 ht).1
  have hlt' := Nat.lt_of_lt_of_le hlt (hs.extends_perform a).length
  have ht' := List.getElem?_eq_getElem hlt'
  refine ⟨_, ht', fun hw => ?_⟩
  cases hs.txnStep ht' with
  | reader _ hid _ _ => exact absurd hid (Nat.ne_of_lt hlt)
  | writer _ hid _ _ => exact absurd hid (Nat.ne_of_lt hlt)
  | snapshot _ hid _ _ _ => exact absurd hid (Nat.ne_of_lt hlt)
  | @wrote w t₁ st _ ht₁ _ heq =>
    obtain rfl : t = t₁ := Option.some.inj (ht.symm.trans ht₁)
    rcases (TxnM.keeps_write w ⟨t, st.stats⟩).frame with ⟨handles, changes, hframe⟩
    rw [heq, hframe] at hw ⊢
    exact ⟨hw, rfl, rfl⟩
  | stays ht₁ heq _ _ =>
    obtain rfl := Option.some.inj (ht.symm.trans ht₁)
    rw [heq] at hw ⊢
    exact ⟨hw, rfl, rfl⟩
  | ended _ _ hended =>
    rw [Txn.isWriting, hended] at hw
    simp at hw

/-- A writer goes on working on its root. -/
theorem Sound.writesOn_performAll (hs : s.Sound) {root : Root α} (h : s.WritesOn id store root)
    (actions : List (Action α)) : (s.performAll actions).WritesOn id store root := by
  induction actions generalizing s with
  | nil => exact h
  | cons a actions ih =>
    rcases h with ⟨t, ht, hon⟩
    rcases hs.writing_perform ht a with ⟨t', ht', hsame⟩
    refine ih (hs.perform a) ⟨t', ht', fun hw' => ?_⟩
    rcases hsame hw' with ⟨hw, hstore, hroot⟩
    exact ⟨hstore.trans (hon hw).1, hroot.trans (hon hw).2⟩

/-! ## Three routes -/

section routes

variable {t : Txn α}

theorem snapshotTxn_eq (ht : s.txns[id]? = some t) (hactive : t.ensureActive = .ok ()) :
    s.snapshotTxn id = some (.ok s.txns.length, s.perform (.snapshotTxn id)) := by
  simp only [perform, snapshotTxn, ht, hactive]
  rfl

theorem commit_eq (ht : s.txns[id]? = some t) (hactive : t.ensureActive = .ok ())
    (hw : t.isWriting = true) (hjobs : t.deferred = []) :
    s.commit id = some (.ok [], s.perform (.commit id)) := by
  have hwrite : t.write = true := (Txn.isWriting_iff.1 hw).1
  simp only [commit, perform, commitOne, ht, hactive, hwrite, hw, hjobs, if_true, runDeferred]

theorem abort_eq (ht : s.txns[id]? = some t) (hactive : t.ensureActive = .ok ()) :
    s.abort id = some (.ok (), s.perform (.abort id)) := by
  have habort : s.abort id = some (.ok (), s.next (s.abort id)) := by
    simp only [abort, ht, hactive, next]
  exact habort

end routes

/-- One view, three routes. Take a write transaction that was opened after the actions `before`
and is writing after `middle`. Every query in it is answered as in its snapshot, whatever happens
afterwards, and as in any read transaction opened after its commit, as long as it has no deferred
jobs and no other writer is let in. After an abort, a read transaction answers as one before the
write transaction was opened. -/
theorem one_view {before middle : List (Action α)} {store id : Nat} {s₁ : Engine α} {t : Txn α}
    (hopen : (performAll {} before).acquireWrite store = some (id, s₁))
    (ht : (performAll {} (before ++ .acquireWrite store :: middle)).txns[id]? = some t)
    (hw : t.isWriting = true) (scan : Scan) (table index : String) (args : List Arg) :
    let s : Engine α := performAll {} (before ++ .acquireWrite store :: middle)
    ∃ answer, s.ask id scan table index args = some answer ∧
      (∃ n s₂, s.snapshotTxn id = some (.ok n, s₂) ∧
        ∀ after, (s₂.performAll after).ask n scan table index args = some answer) ∧
      (t.deferred = [] → ∃ s₂, s.commit id = some (.ok [], s₂) ∧
        ∀ later, .acquireWrite store ∉ later →
          (s₂.performAll later).askNow store scan table index args = some answer) ∧
      ∃ s₂, s.abort id = some (.ok (), s₂) ∧
        ∀ later, .acquireWrite store ∉ later →
          (s₂.performAll later).askNow store scan table index args =
            (performAll {} before).askNow store scan table index args := by
  intro s
  have hbefore : (performAll {} before : Engine α).Sound := Sound.empty.performAll before
  have hs : s.Sound := Sound.empty.performAll _
  have hmiddle : s = (performAll {} before).performAll (.acquireWrite store :: middle) :=
    performAll_append _ _ _
  have hactive : t.state = .active := (Txn.isWriting_iff.1 hw).2
  have hensure : t.ensureActive = .ok () := Txn.ensureActive_eq_ok_iff.2 hactive
  -- the writer works on the root that was current when it was opened
  rcases writesOn_acquireWrite hopen with ⟨st₀, hst₀, hopened⟩
  have hworks : s.WritesOn id store st₀.root := by
    rw [hmiddle, performAll_cons]
    exact (hbefore.perform _).writesOn_performAll hopened middle
  obtain ⟨rfl, hroot⟩ : t.store = store ∧ t.root = st₀.root := by
    rcases hworks with ⟨t', ht', hroot⟩
    obtain rfl : t = t' := Option.some.inj (ht.symm.trans ht')
    exact hroot hw
  rcases hs.txns id t ht with ⟨st, hst, hf⟩
  refine ⟨scan.within t.schema t.forest table index args, hs.ask_eq ht hactive _ _ _ _, ?_, ?_, ?_⟩
  · refine ⟨_, _, snapshotTxn_eq ht hensure, fun after => ?_⟩
    rw [← performAll_cons, hs.ask_snapshotTxn ht hactive, hs.ask_eq ht hactive]
  · intro hjobs
    refine ⟨_, commit_eq ht hensure hw hjobs, fun later hlater => ?_⟩
    have hpublished := stores_commitOne_self ht hw hst
    have hcommitted := hs.perform (.commit id)
    rw [hcommitted.askNow_of_writer_none hpublished rfl hlater, Scan.over_eq,
      hf.sound.get?_published, hf.schema]
  · refine ⟨_, abort_eq ht hensure, fun later hlater => ?_⟩
    have hdropped := stores_drop_self ht hw hst
    rw [← next_abort] at hdropped
    have haborted := hs.perform (.abort id)
    -- the store has the schema and the root that it had before
    have hschema : st.schema = st₀.schema := by
      rcases (hbefore.extends_performAll (.acquireWrite t.store :: middle)).stores t.store st₀ hst₀
        with ⟨st', hst', hlead⟩
      rw [← hmiddle] at hst'
      obtain rfl : st = st' := Option.some.inj (hst.symm.trans hst')
      exact hlead.schema
    have hsame : st.root = st₀.root := (hf.writes hw).2.symm.trans hroot
    rw [haborted.askNow_of_writer_none hdropped rfl hlater, hbefore.askNow_eq hst₀]
    rw [hschema, hsame]

/-- A writer replaces one of two pages and deletes by tag, so that some of its indexes are drafts
and the others are those of the root. -/
theorem one_view_pages :
    let put (id : Nat) (table path : String) (tags : List String) : Action Page :=
      .write id (.insert table { path := path, tags := tags })
    let before := [.create Page.desk {}, .requestWrite 0, .acquireWrite 0,
      put 0 Page.pages "/a" ["old"], put 0 Page.pages "/b" ["old"], put 0 Page.drafts "/c" [],
      .commit 0, .requestWrite 0]
    let middle := [put 1 Page.pages "/a" ["new"],
      .write 1 (.deleteAll Page.pages "tags" [.text "old"])]
    let s : Engine Page := performAll {} (before ++ .acquireWrite 0 :: middle)
    ∃ s₁ t, (performAll {} before).acquireWrite 0 = some (1, s₁) ∧ s.txns[1]? = some t ∧
      t.isWriting = true ∧ t.deferred.isEmpty = true ∧
      ∀ scan table index args, ∃ answer, s.ask 1 scan table index args = some answer ∧
        (∃ n s₂, s.snapshotTxn 1 = some (.ok n, s₂) ∧
          ∀ after, (s₂.performAll after).ask n scan table index args = some answer) ∧
        (t.deferred = [] → ∃ s₂, s.commit 1 = some (.ok [], s₂) ∧
          ∀ later, .acquireWrite 0 ∉ later →
            (s₂.performAll later).askNow 0 scan table index args = some answer) ∧
        ∃ s₂, s.abort 1 = some (.ok (), s₂) ∧
          ∀ later, .acquireWrite 0 ∉ later →
            (s₂.performAll later).askNow 0 scan table index args =
              (performAll {} before).askNow 0 scan table index args := by
  intro put before middle s
  have hopens : ((performAll {} before).acquireWrite 0).map Prod.fst = some 1 := by
    decide +kernel
  rcases Option.map_eq_some_iff.1 hopens with ⟨⟨_, s₁⟩, hopen, rfl⟩
  have hwriter : s.txns[1]?.map (fun t => (t.isWriting, t.deferred.isEmpty)) =
      some (true, true) := by decide +kernel
  rcases Option.map_eq_some_iff.1 hwriter with ⟨t, ht, hpair⟩
  rcases Prod.mk.inj hpair with ⟨hw, hjobs⟩
  refine ⟨s₁, t, hopen, ht, hw, hjobs, fun scan table index args => ?_⟩
  exact @one_view Page before middle 0 1 s₁ t hopen ht hw scan table index args

/-- The writer alone sees what it makes of the pages, until it commits. -/
example :
    let put (id : Nat) (path : String) : Action Page :=
      .write id (.insert Page.pages { path := path })
    let s : Engine Page := performAll {} [.create Page.schema {}, .requestWrite 0,
      .acquireWrite 0, put 0 "/a", .commit 0, .requestWrite 0, .acquireWrite 0, put 1 "/b",
      .write 1 (.delete Page.pages { path := "/a" })]
    let now (s : Engine Page) : Option (Except Error (List String)) :=
      (s.askNow 0 .all Page.pages primaryName []).map (·.map fun x => x.2.map Page.path)
    (s.ask 1 .all Page.pages primaryName []).map (·.map fun x => x.2.map Page.path) =
        some (.ok ["/b"]) ∧
      now s = some (.ok ["/a"]) ∧ now (s.perform (.commit 1)) = some (.ok ["/b"]) ∧
      now (s.perform (.abort 1)) = some (.ok ["/a"]) := by
  decide +kernel

end Engine

end SnapStore
