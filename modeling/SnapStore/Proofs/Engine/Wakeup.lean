import SnapStore.Proofs.Engine.Step

/-! # Answers over later roots

Whoever queries a root of a primary store gets a channel with the answer. As long as the channel
has not fired, the same query over any later root gives the same answer with the same channel,
whatever was committed, aborted or dropped in between.

Main statements: `Sound.extends_performAll` (what a whole run keeps) and `Forest.Kept.within` (what
a query answers later on).
-/

namespace SnapStore

variable {α : Type}

/-! ## Roots, one after another -/

/-- From one root to a later one: whoever read a tree and got a channel finds the channel
fired, or would read the same again. -/
def Forest.Kept (board : Board) (F F' : Forest α) : Prop :=
  ∀ path tree, F path = some tree → ∃ tree', F' path = some tree' ∧
    ∀ f : Tree α → Channel × List α, Guarded f →
      board.isFired (f tree).1 = true ∨ f tree' = f tree

/-- `st'` is the store `st` later on. -/
structure Store.Leads (board : Board) (st st' : Store α) : Prop where
  schema : st'.schema = st.schema
  primary : st'.primary = st.primary
  kept : st.primary = true → Forest.Kept board st.root.get? st'.root.get?

/-- `s'` is the engine `s` later on: what has fired stays so, no store and no transaction is
lost, and a read transaction goes on reading what it has read. -/
structure Engine.Extends (s s' : Engine α) : Prop where
  fired : ∀ c, s.board.isFired c = true → s'.board.isFired c = true
  stores : ∀ (n : Nat) (st : Store α), s.stores[n]? = some st →
    ∃ st', s'.stores[n]? = some st' ∧ st.Leads s'.board st'
  length : s.txns.length ≤ s'.txns.length
  reads : ∀ (id : Nat) (t : Txn α), s.txns[id]? = some t → t.write = false →
    ∃ changes deferred,
      s'.txns[id]? = some { t with changes := changes, deferred := deferred }

namespace Forest.Kept

variable {F F' F'' : Forest α} {board board' : Board}

theorem refl (board : Board) (F : Forest α) : Kept board F F :=
  fun _ tree ht => ⟨tree, ht, fun _ _ => .inr rfl⟩

theorem trans (h : Kept board F F') (h' : Kept board' F' F'')
    (hfired : ∀ c, board.isFired c = true → board'.isFired c = true) : Kept board' F F'' := by
  intro path tree ht
  rcases h path tree ht with ⟨tree', ht', hf⟩
  rcases h' path tree' ht' with ⟨tree'', ht'', hf'⟩
  refine ⟨tree'', ht'', fun f hguard => ?_⟩
  rcases hf f hguard with hc | hsame
  · exact .inl (hfired _ hc)
  · -- the same channel came with the second answer
    have hlater := hf' f hguard
    rwa [hsame] at hlater

end Forest.Kept

theorem Store.Stays.leads {st st' : Store α} (h : st.Stays st') (board : Board) :
    st.Leads board st' := by
  refine ⟨h.schema, h.primary, fun _ => ?_⟩
  rw [h.root]
  exact .refl board _

theorem Store.Leads.refl (board : Board) (st : Store α) : st.Leads board st :=
  (Store.Stays.refl st).leads board

namespace Engine.Extends

variable {s s' s'' : Engine α}

theorem refl (s : Engine α) : s.Extends s where
  fired := fun _ hc => hc
  stores := fun _ st hst => ⟨st, hst, .refl s.board st⟩
  length := Nat.le_refl _
  reads := fun _ t ht _ => ⟨t.changes, t.deferred, ht⟩

theorem trans (h : s.Extends s') (h' : s'.Extends s'') : s.Extends s'' where
  fired := fun c hc => h'.fired c (h.fired c hc)
  stores := by
    intro n st hst
    rcases h.stores n st hst with ⟨st', hst', hlead⟩
    rcases h'.stores n st' hst' with ⟨st'', hst'', hlead'⟩
    have hkept (hp : st.primary = true) : Forest.Kept s''.board st.root.get? st''.root.get? :=
      (hlead.kept hp).trans (hlead'.kept (hlead.primary.trans hp)) h'.fired
    exact ⟨st'', hst'', hlead'.schema.trans hlead.schema, hlead'.primary.trans hlead.primary, hkept⟩
  length := Nat.le_trans h.length h'.length
  reads := by
    intro id t ht hr
    rcases h.reads id t ht hr with ⟨changes, deferred, ht'⟩
    exact h'.reads id { t with changes := changes, deferred := deferred } ht' hr

/-! ## Steps that change no root -/

theorem withBoard (s : Engine α) {board : Board}
    (h : ∀ c, s.board.isFired c = true → board.isFired c = true) :
    s.Extends { s with board := board } where
  fired := h
  stores := fun _ st hst => ⟨st, hst, .refl board st⟩
  length := Nat.le_refl _
  reads := fun _ t ht _ => ⟨t.changes, t.deferred, ht⟩

theorem addStore (s : Engine α) (st : Store α) : s.Extends (s.addStore st).2 where
  fired := fun _ hc => hc
  stores := fun _ st' hst =>
    ⟨st', getElem?_concat_iff.2 (.inl hst), .refl s.board st'⟩
  length := Nat.le_refl _
  reads := fun _ t ht _ => ⟨t.changes, t.deferred, ht⟩

theorem addTxn (s : Engine α) (make : Nat → Txn α) : s.Extends (s.addTxn make).2 where
  fired := fun _ hc => hc
  stores := fun _ st hst => ⟨st, hst, .refl _ st⟩
  length := by simp [Engine.addTxn]
  reads := fun _ t ht _ => ⟨t.changes, t.deferred, getElem?_concat_iff.2 (.inl ht)⟩

theorem updateStore (s : Engine α) {store : Nat} {g : Store α → Store α}
    (hg : ∀ st : Store α, st.Stays (g st)) :
    s.Extends (s.updateStore store g) where
  fired := fun _ hc => hc
  stores := by
    intro n st hst
    refine ⟨_, getElem?_stores_updateStore.2 ⟨st, hst, rfl⟩, ?_⟩
    split
    · exact (hg st).leads s.board
    · exact .refl s.board st
  length := Nat.le_refl _
  reads := fun _ t ht _ => ⟨t.changes, t.deferred, ht⟩

theorem updateTxn (s : Engine α) {id : Nat} {f : Txn α → Txn α}
    (hf : ∀ t, s.txns[id]? = some t → t.write = false →
      ∃ changes deferred, f t = { t with changes := changes, deferred := deferred }) :
    s.Extends (s.updateTxn id f) where
  fired := fun _ hc => hc
  stores := fun _ st hst => ⟨st, hst, .refl s.board st⟩
  length := Nat.le_of_eq (List.length_modify _ _ _).symm
  reads := by
    intro n t ht hr
    by_cases hn : n = id
    · subst hn
      rcases hf t ht hr with ⟨changes, deferred, heq⟩
      exact ⟨changes, deferred, heq ▸ txns_updateTxn_self ht⟩
    · refine ⟨t.changes, t.deferred, getElem?_txns_updateTxn.2 ⟨t, ht, ?_⟩⟩
      rw [if_neg hn]

/-- A transaction that may write is no read transaction, whatever happens to it. -/
theorem updateWriter (s : Engine α) {id : Nat} {t : Txn α} (ht : s.txns[id]? = some t)
    (hw : t.isWriting = true) (f : Txn α → Txn α) : s.Extends (s.updateTxn id f) := by
  refine updateTxn s fun t' ht' hr => ?_
  obtain rfl : t = t' := Option.some.inj (ht.symm.trans ht')
  simp [Txn.isWriting, hr] at hw

end Engine.Extends

/-! ## Commits -/

namespace Engine.Sound

variable {s : Engine α}

/-- A commit fires the channel of each answer it changes. -/
theorem kept_publish (h : s.Sound) {id : Nat} {t : Txn α} (st : Store α) (ht : s.txns[id]? = some t)
    (hw : t.isWriting = true) (hst : s.stores[t.store]? = some st) (hp : st.primary = true) :
    Forest.Kept (s.board.fireAll (s.publish id).1) st.root.get?
      (t.rootDraft ⟨t.name, 0, 0⟩ t.primary).tree.get? := by
  rcases h.txns id t ht with ⟨st', hst', hf⟩
  obtain rfl : st = st' := Option.some.inj (hst.symm.trans hst')
  rcases hf.writes hw with ⟨_, hroot⟩
  have hget := (Txn.get?_rootDraft hf.sound ⟨t.name, 0, 0⟩ t.primary).2
  intro path tree htree
  rw [← hroot] at htree
  rw [hget path, Txn.forest]
  cases hd : t.handles.find? path with
  | none => exact ⟨tree, htree, fun _ _ => .inr rfl⟩
  | some draft =>
    refine ⟨draft.tree, rfl, fun f hguard => ?_⟩
    -- the draft comes by edits from the tree that was read
    rcases hf.sound.drafts path draft hd with ⟨tree', stamp, edits, htree', hdraft⟩
    obtain rfl : tree = tree' := Option.some.inj (htree.symm.trans htree')
    have hwf : tree.Wf := hf.sound.trees.tree path tree htree
    have hedits := hguard.applyAll (d := (tree.edit stamp).track t.primary) hwf
      (hf.primary.trans hp) edits
    rw [← hdraft] at hedits
    rcases hedits with hmem | hsame
    · left
      have hfires : (f tree).1 ∈ (s.publish id).1 := by
        rw [publish_eq ht]
        refine List.mem_append_left _ (List.mem_flatMap.2 ?_)
        exact ⟨(path, draft), Catalog.mem_of_find? hd, hmem⟩
      rw [Board.isFired_fireAll]
      simp [hfires]
    · exact .inr hsame

theorem extends_publish (h : s.Sound) {id : Nat} {t : Txn α} (ht : s.txns[id]? = some t)
    (hw : t.isWriting = true) :
    s.Extends { (s.publish id).2 with board := s.board.fireAll (s.publish id).1 } := by
  have hfired (c : Channel) (hc : s.board.isFired c = true) :
      (s.board.fireAll (s.publish id).1).isFired c = true := by
    simp [Board.isFired_fireAll, hc]
  have hkept (st : Store α) := h.kept_publish st ht hw
  rw [publish_eq ht] at hfired hkept ⊢
  refine ⟨hfired, ?_, (Extends.updateWriter s ht hw _).length,
    (Extends.updateWriter s ht hw _).reads⟩
  intro n st hst
  refine ⟨_, getElem?_stores_updateStore.2 ⟨st, hst, rfl⟩, ?_⟩
  split
  · rename_i hn
    subst hn
    exact ⟨rfl, rfl, hkept st hst⟩
  · exact .refl _ st

/-- Marking a writer as ended and letting the next one in concern no reader. -/
theorem extends_finish {id : Nat} {t : Txn α} (ht : s.txns[id]? = some t)
    (hw : t.isWriting = true) (ending : Ending) :
    s.Extends (((s.mark id ending).release t.store).tally t.store ending) := by
  have hmark : s.Extends (s.mark id ending) := Extends.updateWriter s ht hw _
  have hrelease : (s.mark id ending).Extends ((s.mark id ending).release t.store) :=
    Extends.updateStore _ fun _ => ⟨rfl, rfl, rfl⟩
  refine (hmark.trans hrelease).trans ?_
  cases ending with
  | commit => exact Extends.updateStore _ fun _ => ⟨rfl, rfl, rfl⟩
  | abort => exact Extends.updateStore _ fun _ => ⟨rfl, rfl, rfl⟩

theorem extends_commitOne (h : s.Sound) (id : Nat) : s.Extends (s.commitOne id) := by
  unfold Engine.commitOne
  cases ht : s.txns[id]? with
  | none => exact .refl s
  | some t =>
    dsimp only
    split
    · rename_i hw
      rw [commitWrites_eq ht]
      have hpublish := h.extends_publish ht hw
      have hfinish := extends_finish
        (s := { (s.publish id).2 with board := s.board.fireAll (s.publish id).1 })
        (txns_publish_self ht) hw .commit
      refine (hpublish.trans hfinish).trans (Extends.updateTxn _ fun t' _ _ => ?_)
      exact ⟨t'.changes, [], rfl⟩
    · exact .refl s

theorem extends_abortWrites {id : Nat} {t : Txn α} (ht : s.txns[id]? = some t)
    (hw : t.isWriting = true) : s.Extends (s.abortWrites id t.store) := by
  have hforget := Extends.updateWriter s ht hw
    fun t => { t with handles := [], changes := none, deferred := [] }
  exact hforget.trans (extends_finish (txns_updateTxn_self ht) hw .abort)

theorem extends_drop (s : Engine α) (id : Nat) : s.Extends (s.drop id) := by
  cases ht : s.txns[id]? with
  | none =>
    rw [drop_of_none ht]
    exact .refl s
  | some t =>
    rw [drop_of_some ht]
    split
    · exact extends_abortWrites ht ‹_›
    · exact .refl s

/-! ## All actions -/

/-- Every action leads on to a later engine. -/
theorem extends_perform (h : s.Sound) (a : Action α) : s.Extends (s.perform a) := by
  have hcount (n : Nat) {g : Store α → Store α} (hg : ∀ st : Store α, st.Stays (g st)) :
      s.Extends (s.updateStore n g) := Extends.updateStore s hg
  cases h.performs a with
  | nothing _ _ heq =>
    rw [heq]
    exact .refl s
  | @create _ _ st _ _ heq =>
    have hname : s.Extends { s with board := s.board.newName.2 } :=
      Extends.withBoard s fun _ hc => hc
    rw [heq]
    exact hname.trans (Extends.addStore _ st)
  | copy _ _ heq =>
    rw [heq]
    exact Extends.addStore s _
  | read _ _ heq | turn _ _ _ heq =>
    rw [heq]
    refine Extends.trans ?_ (Extends.addTxn _ _)
    exact hcount _ fun _ => ⟨rfl, rfl, rfl⟩
  | request _ heq | count _ _ _ heq =>
    rw [heq]
    exact hcount _ fun _ => ⟨rfl, rfl, rfl⟩
  | view _ _ _ _ heq =>
    rw [heq]
    exact Extends.addTxn s _
  | @write id w t st _ _ ht _ heq =>
    rw [heq]
    refine (Extends.updateTxn s fun t' ht' hr => ?_).trans
      (Extends.updateStore _ fun _ => ⟨rfl, rfl, rfl⟩)
    -- a read transaction refuses to write
    obtain rfl : t = t' := Option.some.inj (ht.symm.trans ht')
    rcases TxnM.writes_readOnly hr w st.stats with ⟨e, he⟩
    exact ⟨t.changes, t.deferred, by rw [TxnM.leaves, he]⟩
  | aside _ _ _ hf heq =>
    rw [heq]
    exact Extends.updateTxn s fun t _ _ => hf t
  | commit _ heq =>
    rw [heq]
    exact h.extends_commitOne _
  | drop _ _ _ _ _ heq =>
    rw [heq]
    exact extends_drop s _

/-- A run leads on to a later engine. -/
theorem extends_performAll (h : s.Sound) (actions : List (Action α)) :
    s.Extends (s.performAll actions) := by
  induction actions generalizing s with
  | nil => exact .refl s
  | cons a actions ih => exact (h.extends_perform a).trans (ih (h.perform a))

end Engine.Sound

/-! ## Queries and their channels -/

/-- Every query is guarded by the channel it answers with. -/
theorem Scan.guarded_answer (scan : Scan) (q : Query α) :
    Guarded fun tree : Tree α => scan.answer q tree := by
  cases scan with
  | first =>
    simp only [answer, Query.first]
    by_cases hexact : q.isExact = true
    · simpa only [hexact, if_true] using (guarded_watch q.key).map Option.toList
    · simp only [hexact]
      exact (guarded_seek q.key).map fun leaves => (leaves.head?.map Leaf.value).toList
  | last =>
    simp only [answer, Query.last]
    by_cases hexact : q.isExact = true
    · simpa only [hexact, if_true] using (guarded_watch q.key).map Option.toList
    · simp only [hexact]
      exact (guarded_seekDown q.key).map fun leaves => (leaves.head?.map Leaf.value).toList
  | all => exact (guarded_seek q.key).map (List.map Leaf.value)
  | allDown => exact (guarded_seekDown q.key).map (List.map Leaf.value)
  | atLeast => exact guarded_channel _
  | atMost => exact guarded_channel _

/-- What a query answers over a root. -/
def Scan.over (scan : Scan) (schema : Schema α) (root : Root α) (table index : String)
    (args : List Arg) : Except Error (Channel × List α) :=
  match schema.resolve table index args with
  | .error e => .error e
  | .ok q =>
    match root.get? (indexPath table q.name) with
    | some tree => .ok (scan.answer q tree)
    | none => .error (.indexNotFound table q.name)

/-- What a query answers over the trees at all paths. -/
def Scan.within (scan : Scan) (schema : Schema α) (F : Forest α) (table index : String)
    (args : List Arg) : Except Error (Channel × List α) :=
  match schema.resolve table index args with
  | .error e => .error e
  | .ok q =>
    match F (indexPath table q.name) with
    | some tree => .ok (scan.answer q tree)
    | none => .error (.indexNotFound table q.name)

theorem Scan.over_eq (scan : Scan) (schema : Schema α) (root : Root α) (table index : String)
    (args : List Arg) :
    scan.over schema root table index args = scan.within schema root.get? table index args := rfl

/-- Over later trees, a query answers the same if the channel of its answer has not fired. -/
theorem Forest.Kept.within {board : Board} {F F' : Forest α} (h : Forest.Kept board F F')
    {scan : Scan} {schema : Schema α} {table index : String} {args : List Arg} {c : Channel}
    {objects : List α} (hwithin : scan.within schema F table index args = .ok (c, objects)) :
    ∃ c' objects', scan.within schema F' table index args = .ok (c', objects') ∧
      (board.isFired c = true ∨ c' = c ∧ objects' = objects) := by
  unfold Scan.within at hwithin ⊢
  cases hq : schema.resolve table index args with
  | error e => simp [hq] at hwithin
  | ok q =>
    simp only [hq] at hwithin ⊢
    cases htree : F (indexPath table q.name) with
    | none => simp [htree] at hwithin
    | some tree =>
      have hanswer : scan.answer q tree = (c, objects) := by simpa [htree] using hwithin
      rcases h _ tree htree with ⟨tree', htree', hf⟩
      refine ⟨(scan.answer q tree').1, (scan.answer q tree').2, by simp [htree'], ?_⟩
      have hguarded := hf _ (scan.guarded_answer q)
      rw [hanswer] at hguarded
      rcases hguarded with hfired | hsame
      · exact .inl hfired
      · exact .inr ⟨congrArg Prod.fst hsame, congrArg Prod.snd hsame⟩

namespace Engine

variable {s : Engine α} {store : Nat} {st : Store α}

/-- A new read transaction reads from the current root. -/
theorem openRead_eq (hst : s.stores[store]? = some st) :
    s.openRead store = some (s.txns.length, s.perform (.openRead store)) ∧
      (s.perform (.openRead store)).txns[s.txns.length]? =
        some (st.reader store s.board.newName.1) := by
  have hopen : s.openRead store = some (s.txns.length, s.perform (.openRead store)) := by
    simp only [perform, openRead, hst]
    rfl
  refine ⟨hopen, ?_⟩
  simp only [perform, openRead, hst]
  exact getElem?_concat_iff.2 (.inr ⟨rfl, rfl⟩)

/-! ## Readers -/

/-- A transaction that has not ended is answered over the trees it sees. -/
theorem Sound.run_within (h : s.Sound) {id : Nat} {t : Txn α} (ht : s.txns[id]? = some t)
    (hactive : t.state = .active) (scan : Scan) (table index : String) (args : List Arg) :
    s.run id (scan.run table index args) =
      some (scan.within t.schema t.forest table index args,
        s.perform (.query id scan table index args)) := by
  rcases h.txns id t ht with ⟨st, hst, _⟩
  rcases scan.run_eq table index args t st.stats with ⟨stats, hrun⟩
  have hensure : t.ensureActive = .ok () := by rw [Txn.ensureActive, hactive]
  have hlookup : (t.lookup table index args).map (fun x => scan.answer x.1 x.2) =
      scan.within t.schema t.forest table index args := by
    simp only [Txn.lookup, hensure, Scan.within, Txn.readable_eq]
    cases t.schema.resolve table index args with
    | error e => rfl
    | ok q =>
      simp only [bind, Except.bind]
      cases t.forest (indexPath table q.name) <;> rfl
  rw [← hlookup]
  simp only [Engine.perform, Engine.run, ht, hst, hrun]
  cases t.lookup table index args <;> rfl

/-- What is made of the answer of an operation. -/
theorem run_map {β γ : Type} (id : Nat) (op : TxnM α β) (f : β → γ) :
    s.run id (op >>= fun b => pure (f b)) = (s.run id op).map fun x => (x.1.map f, x.2) := by
  simp only [Engine.run, TxnM.run_bind]
  cases s.txns[id]? with
  | none => rfl
  | some t =>
    simp only
    cases s.stores[t.store]? with
    | none => rfl
    | some st =>
      simp only
      cases op.run ⟨t, st.stats⟩ <;> rfl

/-- A query for one object in a transaction that has not ended. -/
theorem Sound.run_first (h : s.Sound) {id : Nat} {t : Txn α} (ht : s.txns[id]? = some t)
    (hactive : t.state = .active) {table index : String} {args : List Arg}
    {answer : Channel × List α}
    (hwithin : Scan.first.within t.schema t.forest table index args = .ok answer) :
    ∃ found, s.run id (TxnM.first table index args) =
      some (.ok found, s.perform (.query id .first table index args)) := by
  have hscan := h.run_within ht hactive .first table index args
  rw [hwithin, Scan.run, run_map] at hscan
  rcases Option.map_eq_some_iff.1 hscan with ⟨⟨result, s'⟩, hrun, heq⟩
  obtain ⟨hresult, rfl⟩ := Prod.mk.inj heq
  cases result with
  | error e => cases hresult
  | ok found => exact ⟨found, hrun⟩

/-- A query for objects in a transaction that has not ended. -/
theorem Sound.run_all (h : s.Sound) {id : Nat} {t : Txn α} (ht : s.txns[id]? = some t)
    (hactive : t.state = .active) {table index : String} {args : List Arg} {c : Channel}
    {objects : List α}
    (hwithin : Scan.all.within t.schema t.forest table index args = .ok (c, objects)) :
    ∃ found, found.objects = objects ∧ s.run id (TxnM.all table index args) =
      some (.ok found, s.perform (.query id .all table index args)) := by
  have hscan := h.run_within ht hactive .all table index args
  rw [hwithin, Scan.run, run_map] at hscan
  rcases Option.map_eq_some_iff.1 hscan with ⟨⟨result, s'⟩, hrun, heq⟩
  obtain ⟨hresult, rfl⟩ := Prod.mk.inj heq
  cases result with
  | error e => cases hresult
  | ok found => exact ⟨found, (Prod.mk.inj (Except.ok.inj hresult)).2, hrun⟩

/-- A transaction without drafts is answered over its root. -/
theorem Sound.run_scan (h : s.Sound) {id : Nat} {t : Txn α} (ht : s.txns[id]? = some t)
    (hactive : t.state = .active) (hdrafts : t.handles = []) (scan : Scan) (table index : String)
    (args : List Arg) :
    s.run id (scan.run table index args) =
      some (scan.over t.schema t.root table index args,
        s.perform (.query id scan table index args)) := by
  rw [h.run_within ht hactive, Txn.forest_of_handles hdrafts, Scan.over_eq]

/-- What a query in a transaction answers. -/
def ask (s : Engine α) (id : Nat) (scan : Scan) (table index : String) (args : List Arg) :
    Option (Except Error (Channel × List α)) :=
  (s.run id (scan.run table index args)).map Prod.fst

theorem Sound.ask_eq (h : s.Sound) {id : Nat} {t : Txn α} (ht : s.txns[id]? = some t)
    (hactive : t.state = .active) (scan : Scan) (table index : String) (args : List Arg) :
    s.ask id scan table index args = some (scan.within t.schema t.forest table index args) := by
  rw [ask, h.run_within ht hactive]
  rfl

/-- A transaction that has ended answers nothing. -/
theorem active_of_ask {id : Nat} {t : Txn α} (ht : s.txns[id]? = some t) {scan : Scan}
    {table index : String} {args : List Arg} {answer : Channel × List α}
    (hask : s.ask id scan table index args = some (.ok answer)) : t.state = .active := by
  rw [ask, Engine.run, ht] at hask
  cases hst : s.stores[t.store]? with
  | none => simp [hst] at hask
  | some st =>
    rcases scan.run_eq table index args t st.stats with ⟨stats, hrun⟩
    rcases hstate : t.state with _ | ending
    · rfl
    · have hended : t.lookup table index args = .error (.ended ending) := by
        rw [Txn.lookup, Txn.ensureActive, hstate]
        rfl
      simp [hst, hrun, hended] at hask

/-- What a query in a new read transaction answers. -/
def askNow (s : Engine α) (store : Nat) (scan : Scan) (table index : String) (args : List Arg) :
    Option (Except Error (Channel × List α)) :=
  match s.openRead store with
  | none => none
  | some (id, s) => s.ask id scan table index args

/-- A query in a new read transaction is answered over the current root. -/
theorem Sound.askNow_eq (h : s.Sound) (hst : s.stores[store]? = some st) (scan : Scan)
    (table index : String) (args : List Arg) :
    s.askNow store scan table index args =
      some (scan.over st.schema st.root table index args) := by
  rcases openRead_eq hst with ⟨hopen, ht⟩
  have hrun := (h.perform (.openRead store)).run_scan ht rfl rfl scan table index args
  simp only [askNow, hopen, ask, hrun]
  rfl

end Engine

end SnapStore
