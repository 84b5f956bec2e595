import SnapStore.Proofs.Engine.Actions

/-! # What every run keeps to

Each store has an accepted schema and a root with a tree for each index. Each transaction
belongs to a store and shares its schema; a write transaction that has not ended is the one
active writer of its store and works on the current root.

Main statements: `Sound.perform` and `Sound.performAll`.
-/

namespace SnapStore

variable {α : Type}

/-- What every store keeps to. -/
structure Store.Sound (st : Store α) : Prop where
  valid : st.schema.validate = .ok ()
  root : st.root.Wf
  trees : Forest.Wf st.root.get? st.schema

/-- The store goes on with its contents. -/
structure Store.Stays (st st' : Store α) : Prop where
  schema : st'.schema = st.schema
  primary : st'.primary = st.primary
  root : st'.root = st.root

theorem Store.Stays.refl (st : Store α) : st.Stays st :=
  ⟨rfl, rfl, rfl⟩

theorem Store.Stays.trans {st st' st'' : Store α} (h : st.Stays st') (h' : st'.Stays st'') :
    st.Stays st'' :=
  ⟨h'.schema.trans h.schema, h'.primary.trans h.primary, h'.root.trans h.root⟩

theorem Txn.isWriting_iff {t : Txn α} :
    t.isWriting = true ↔ t.write = true ∧ t.state = .active := by
  simp [isWriting]

/-- What the transaction at the position `id` keeps to towards its store. -/
structure Txn.Follows (t : Txn α) (id : Nat) (st : Store α) : Prop where
  sound : t.Sound
  schema : t.schema = st.schema
  primary : t.primary = st.primary
  reads : t.write = false → t.handles = []
  writes : t.isWriting = true → st.writer = some id ∧ t.root = st.root

/-- The change log and the deferred jobs of a transaction do not matter. -/
theorem Txn.Follows.aside {t : Txn α} {id : Nat} {st : Store α} (h : t.Follows id st)
    (changes : Option (ChangeLog α)) (deferred : List (Job α)) :
    Txn.Follows { t with changes := changes, deferred := deferred } id st :=
  ⟨⟨h.sound.root, h.sound.trees, h.sound.ascends, h.sound.drafts⟩, h.schema, h.primary, h.reads,
    h.writes⟩

/-- What every engine keeps to. -/
structure Engine.Sound (s : Engine α) : Prop where
  stores : ∀ (n : Nat) (st : Store α), s.stores[n]? = some st → st.Sound
  txns : ∀ (id : Nat) (t : Txn α), s.txns[id]? = some t →
    ∃ st, s.stores[t.store]? = some st ∧ t.Follows id st

/-! ## New stores -/

namespace Store

/-- The root has an empty tree at each of the paths, and nothing elsewhere. -/
structure Vacant (root : Root α) (paths : List Key) : Prop where
  wf : root.Wf
  isSome_iff : ∀ path, (root.get? path).isSome = true ↔ path ∈ paths
  empty : ∀ path tree, root.get? path = some tree → ∃ channel, tree = .empty channel

theorem vacant_empty (channel : Channel) : Vacant (.empty channel : Root α) [] := by
  exact ⟨Tree.wf_empty channel, by simp, by simp⟩

theorem Vacant.insert {d : Draft (Tree α)} {paths : List Key} (h : Vacant d.tree paths) (path : Key)
    (channel : Channel) : Vacant (d.insert path (.empty channel)).1.tree (path :: paths) := by
  refine ⟨Draft.wf_insert h.wf path _, fun path' => ?_, fun path' tree ht => ?_⟩
  · rw [Draft.get?_insert h.wf]
    by_cases heq : path' = path
    · simp [heq]
    · simp [heq, h.isSome_iff]
  · rw [Draft.get?_insert h.wf] at ht
    split at ht
    · exact ⟨channel, (Option.some.inj ht).symm⟩
    · exact h.empty path' tree ht

/-- Empty trees put in place one after another. -/
theorem Vacant.foldl_insert (channel : Nat → Channel) (xs : List (Key × Nat)) :
    ∀ {d : Draft (Tree α)} {paths : List Key}, Vacant d.tree paths →
      Vacant (xs.foldl (fun d (path, i) => (d.insert path (.empty (channel i))).1) d).tree
        ((xs.map Prod.fst).reverse ++ paths) := by
  induction xs with
  | nil => exact fun h => h
  | cons x xs ih =>
    intro d paths h
    have hx := ih (h.insert x.1 (channel x.2))
    rwa [List.map_cons, List.reverse_cons, List.append_assoc]

/-- A new root has an empty tree at each declared path. -/
theorem vacant_emptyRoot (name : Nat) (paths : List Key) :
    Vacant (emptyRoot name paths : Root α) paths := by
  have h := Vacant.foldl_insert (fun i => ⟨⟨name, i + 2, 0⟩, 0, .node⟩) paths.zipIdx
    (d := (Tree.empty ⟨⟨name, 0, 0⟩, 0, .node⟩ : Root α).edit ⟨name, 1, 0⟩) (vacant_empty _)
  exact ⟨h.wf, fun path => (h.isSome_iff path).trans (by simp), h.empty⟩

/-- A new store is sound. -/
theorem sound_create {schema : Schema α} {settings : Settings} {name : Nat} {st : Store α}
    (h : Store.create schema settings name = .ok st) : st.Sound := by
  unfold create at h
  split at h
  · simp at h
  · rename_i hvalid
    obtain rfl := Except.ok.inj h
    have hv : Vacant (emptyRoot name schema.paths : Root α) schema.paths :=
      vacant_emptyRoot name schema.paths
    refine ⟨hvalid, hv.wf, ⟨hv.isSome_iff, fun path tree ht => ?_⟩⟩
    rcases hv.empty path tree ht with ⟨channel, rfl⟩
    exact Tree.wf_empty channel

theorem Sound.snapshot {st : Store α} (h : st.Sound) : st.snapshot.Sound :=
  ⟨h.valid, h.root, h.trees⟩

/-- A transaction over the current contents of a sound store, without drafts, is sound. -/
theorem Sound.sound_reader {st : Store α} (h : st.Sound) (id name : Nat) :
    (st.reader id name).Sound :=
  ⟨h.root, h.trees, List.Pairwise.nil, fun _ _ hf => nomatch hf⟩

theorem Sound.sound_newWriter {st : Store α} (h : st.Sound) (id name : Nat) :
    (st.newWriter id name).Sound :=
  ⟨h.root, h.trees, List.Pairwise.nil, fun _ _ hf => nomatch hf⟩

end Store

namespace Engine.Sound

variable {s : Engine α}

/-! ## Additions -/

theorem addStore (h : s.Sound) {st : Store α} (hst : st.Sound) : (s.addStore st).2.Sound := by
  constructor
  · intro n st' hn
    rcases getElem?_concat_iff.1 hn with hn | ⟨_, rfl⟩
    · exact h.stores n st' hn
    · exact hst
  · intro id t ht
    rcases h.txns id t ht with ⟨st', hn, hf⟩
    exact ⟨st', getElem?_concat_iff.2 (.inl hn), hf⟩

theorem addTxn (h : s.Sound) {make : Nat → Txn α}
    (hmake : ∀ name, ∃ st, s.stores[(make name).store]? = some st ∧
      (make name).Follows s.txns.length st) : (s.addTxn make).2.Sound := by
  refine ⟨h.stores, fun id t ht => ?_⟩
  rcases getElem?_concat_iff.1 ht with ht | ⟨rfl, rfl⟩
  · exact h.txns id t ht
  · exact hmake _

/-! ## Changes of one transaction and one store -/

/-- What is sound stays sound if each transaction follows its store after the changes. -/
theorem update (h : s.Sound) {id store : Nat} {f : Txn α → Txn α} {g : Store α → Store α}
    (hstore : ∀ st, s.stores[store]? = some st → st.Sound → (g st).Sound)
    (htxn : ∀ n t st, s.txns[n]? = some t → s.stores[t.store]? = some st → t.Follows n st →
      (if n = id then f t else t).store = t.store ∧
        (if n = id then f t else t).Follows n (if t.store = store then g st else st)) :
    ((s.updateTxn id f).updateStore store g).Sound := by
  constructor
  · intro n st' hn'
    rcases getElem?_stores_updateStore.1 hn' with ⟨st, hn, rfl⟩
    split
    · rename_i heq
      exact hstore st (heq ▸ hn) (h.stores n st hn)
    · exact h.stores n st hn
  · intro n t' ht'
    rcases getElem?_txns_updateTxn.1 ht' with ⟨t, ht, rfl⟩
    rcases h.txns n t ht with ⟨st, hst, hfollows⟩
    rcases htxn n t st ht hst hfollows with ⟨hsame, hfollows'⟩
    exact ⟨_, getElem?_stores_updateStore.2 ⟨st, hsame ▸ hst, rfl⟩, hsame ▸ hfollows'⟩

/-- Changes of a store other than of its contents. -/
theorem updateStore (h : s.Sound) (store : Nat) {g : Store α → Store α}
    (hg : ∀ st : Store α, st.Stays (g st))
    (hwriter : ∀ n t st, s.txns[n]? = some t → t.store = store → s.stores[store]? = some st →
      t.isWriting = true → st.writer = some n → (g st).writer = some n) :
    (s.updateStore store g).Sound := by
  constructor
  · intro n st' hn'
    rcases getElem?_stores_updateStore.1 hn' with ⟨st, hn, rfl⟩
    have hst := h.stores n st hn
    rcases hg st with ⟨hschema, _, hroot⟩
    split
    · exact ⟨hschema ▸ hst.valid, hroot ▸ hst.root, by rw [hroot, hschema]; exact hst.trees⟩
    · exact hst
  · intro n t ht
    rcases h.txns n t ht with ⟨st, hst, hf⟩
    rcases hg st with ⟨hschema, hprimary, hroot⟩
    refine ⟨_, getElem?_stores_updateStore.2 ⟨st, hst, rfl⟩, ?_⟩
    split
    · rename_i heq
      refine ⟨hf.sound, hschema ▸ hf.schema, hprimary ▸ hf.primary, hf.reads, fun hw => ?_⟩
      exact ⟨hwriter n t st ht heq (heq ▸ hst) hw (hf.writes hw).1, hroot ▸ (hf.writes hw).2⟩
    · exact hf

/-- Changes of a transaction that keep it at its store. -/
theorem updateTxn (h : s.Sound) (id : Nat) {f : Txn α → Txn α}
    (hf : ∀ t st, s.txns[id]? = some t → s.stores[t.store]? = some st → t.Follows id st →
      (f t).store = t.store ∧ (f t).Follows id st) : (s.updateTxn id f).Sound := by
  refine ⟨h.stores, fun n t' ht' => ?_⟩
  rcases getElem?_txns_updateTxn.1 ht' with ⟨t, ht, rfl⟩
  rcases h.txns n t ht with ⟨st, hst, hfollows⟩
  split
  · rename_i heq
    subst heq
    rcases hf t st ht hst hfollows with ⟨hsame, hfollows'⟩
    exact ⟨st, hsame ▸ hst, hfollows'⟩
  · exact ⟨st, hst, hfollows⟩

/-- Only stores and transactions matter. -/
theorem withBoard (h : s.Sound) (board : Board) : Engine.Sound { s with board := board } :=
  ⟨h.stores, h.txns⟩

/-! ## Opening stores and transactions -/

theorem create (h : s.Sound) (schema : Schema α) (settings : Settings) :
    (s.next (s.create schema settings).toOption).Sound := by
  unfold Engine.create
  dsimp only
  cases hst : Store.create schema settings s.board.newName.1 with
  | error e => exact h
  | ok st => exact (h.withBoard s.board.newName.2).addStore (Store.sound_create hst)

theorem snapshotStore (h : s.Sound) (store : Nat) : (s.next (s.snapshotStore store)).Sound := by
  unfold Engine.snapshotStore
  cases hst : s.stores[store]? with
  | none => exact h
  | some st => exact h.addStore (h.stores store st hst).snapshot

theorem openRead (h : s.Sound) (store : Nat) : (s.next (s.openRead store)).Sound := by
  unfold Engine.openRead
  cases hst : s.stores[store]? with
  | none => exact h
  | some st =>
    have hcount := h.updateStore store
      (g := fun st => { st with stats := { st.stats with readTxns := st.stats.readTxns + 1 } })
      (fun _ => ⟨rfl, rfl, rfl⟩) fun _ _ _ _ _ _ _ hw => hw
    refine hcount.addTxn fun name => ?_
    refine ⟨_, stores_updateStore_self hst, ?_⟩
    exact ⟨(h.stores store st hst).sound_reader store name, rfl, rfl, fun _ => rfl, nofun⟩

theorem requestWrite (h : s.Sound) (store : Nat) : (s.requestWrite store).Sound :=
  h.updateStore store (fun _ => ⟨rfl, rfl, rfl⟩) fun _ _ _ _ _ _ _ hw => hw

theorem acquireWrite (h : s.Sound) (store : Nat) : (s.next (s.acquireWrite store)).Sound := by
  unfold Engine.acquireWrite
  cases hst : s.stores[store]? with
  | none => exact h
  | some st =>
    dsimp only
    split
    · exact h
    · rename_i hfree
      have hturn := h.updateStore store
        (g := fun st => { st with writer := some s.txns.length, waiting := st.waiting - 1 })
        (fun _ => ⟨rfl, rfl, rfl⟩) fun n t st' _ _ hst' _ hw => by
          -- nobody was writing
          obtain rfl : st = st' := Option.some.inj (hst.symm.trans hst')
          simp [hw] at hfree
      refine hturn.addTxn fun name => ?_
      refine ⟨_, stores_updateStore_self hst, ?_⟩
      exact ⟨(h.stores store st hst).sound_newWriter store name, rfl, rfl, fun _ => rfl,
        fun _ => ⟨rfl, rfl⟩⟩

theorem snapshotTxn (h : s.Sound) (id : Nat) : (s.next (s.snapshotTxn id)).Sound := by
  unfold Engine.snapshotTxn
  cases ht : s.txns[id]? with
  | none => exact h
  | some t =>
    dsimp only
    cases t.ensureActive with
    | error e => exact h
    | ok _ =>
      rcases h.txns id t ht with ⟨st, hst, hf⟩
      refine h.addTxn fun name => ⟨st, hst, ⟨?_, hf.schema, hf.primary, fun _ => rfl, nofun⟩⟩
      split
      -- the root is the captured one, or one made of it and the drafts
      · exact ⟨hf.sound.root, hf.sound.trees, List.Pairwise.nil, fun _ _ hf => nomatch hf⟩
      · rcases Txn.get?_rootDraft hf.sound ⟨name, 0, 0⟩ false with ⟨hw, hget⟩
        refine ⟨hw, ?_, List.Pairwise.nil, fun _ _ hf => nomatch hf⟩
        rw [funext hget]
        exact hf.sound.wf_forest

/-! ## Operations -/

/-- Operations that let a transaction evolve, and leave a read transaction as it is. -/
theorem run {β : Type} (h : s.Sound) (id : Nat) {op : TxnM α β} (hop : op.Keeps)
    (hread : ∀ (t : Txn α) stats, t.write = false → (op.leaves ⟨t, stats⟩).txn = t) :
    (s.next (s.run id op)).Sound := by
  cases ht : s.txns[id]? with
  | none =>
    rw [next_run_none ht]
    exact h
  | some t =>
    rcases h.txns id t ht with ⟨st, hst, _⟩
    rw [next_run ht hst]
    have hafter := h.updateTxn id (f := fun _ => (op.leaves ⟨t, st.stats⟩).txn)
      fun t' st' ht' hst' hf => by
        obtain rfl : t = t' := Option.some.inj (ht.symm.trans ht')
        have hev := hop ⟨t, st.stats⟩
        have hsame := hread t st.stats
        rcases hev with ⟨⟨handles, changes, heq⟩, hsound⟩
        rw [heq] at hsame hsound ⊢
        refine ⟨rfl, ⟨hsound hf.sound, hf.schema, hf.primary, fun hr => ?_, hf.writes⟩⟩
        have hhandles := congrArg Txn.handles (hsame hr)
        exact hhandles.trans (hf.reads hr)
    exact hafter.updateStore t.store (fun _ => ⟨rfl, rfl, rfl⟩) fun _ _ _ _ _ _ _ hw => hw

theorem write (h : s.Sound) (id : Nat) (w : Write α) :
    (s.next (s.run id (TxnM.write w))).Sound := by
  refine h.run id (TxnM.keeps_write w) fun t stats hr => ?_
  rcases TxnM.writes_readOnly hr w stats with ⟨e, he⟩
  rw [TxnM.leaves, he]

theorem query (h : s.Sound) (id : Nat) (scan : Scan) (table index : String) (args : List Arg) :
    (s.next (s.run id (scan.run table index args))).Sound :=
  h.run id (fun session => scan.leaves_txn table index args session.txn session.stats ▸ .refl _)
    fun t stats _ => scan.leaves_txn table index args t stats

/-! ## Endings -/

/-- A store has one active writer. -/
theorem writer_unique (h : s.Sound) {id id' : Nat} {t t' : Txn α} (ht : s.txns[id]? = some t)
    (ht' : s.txns[id']? = some t') (hstore : t.store = t'.store) (hw : t.isWriting = true)
    (hw' : t'.isWriting = true) : id = id' := by
  rcases h.txns id t ht with ⟨st, hst, hf⟩
  rcases h.txns id' t' ht' with ⟨st', hst', hf'⟩
  obtain rfl : st = st' := Option.some.inj (hst.symm.trans (hstore ▸ hst'))
  exact Option.some.inj ((hf.writes hw).1.symm.trans (hf'.writes hw').1)

/-- Putting the root of the active writer in place. -/
theorem publish (h : s.Sound) {id : Nat} {t : Txn α} (ht : s.txns[id]? = some t)
    (hw : t.isWriting = true) : (s.publish id).2.Sound := by
  rcases h.txns id t ht with ⟨st, hst, hf⟩
  rcases Txn.get?_rootDraft hf.sound ⟨t.name, 0, 0⟩ t.primary with ⟨hroot, hget⟩
  have htrees : Forest.Wf (t.rootDraft ⟨t.name, 0, 0⟩ t.primary).tree.get? t.schema := by
    rw [funext hget]
    exact hf.sound.wf_forest
  simp only [Engine.publish, ht]
  refine h.update (fun st' hst' hold => ?_) fun n t' st' ht' hst' hf' => ?_
  · obtain rfl : st = st' := Option.some.inj (hst.symm.trans hst')
    exact ⟨hold.valid, hroot, by rw [← hf.schema]; exact htrees⟩
  · -- the writer itself reads from the new root, and there is no other one
    by_cases hn : n = id
    · subst hn
      obtain rfl : t = t' := Option.some.inj (ht.symm.trans ht')
      simp only [if_true]
      have hnone (path : Key) (d : Draft α) : ¬ Catalog.find? [] path = some d := by
        simp [Catalog.find?]
      exact ⟨trivial, ⟨hroot, htrees, List.Pairwise.nil, fun path d hm => absurd hm (hnone path d)⟩,
        hf'.schema, hf'.primary, fun _ => rfl, fun hw' => ⟨(hf'.writes hw').1, rfl⟩⟩
    · rw [if_neg hn]
      refine ⟨rfl, ?_⟩
      split
      · rename_i hstore
        refine ⟨hf'.sound, hf'.schema, hf'.primary, hf'.reads, fun hw' => ?_⟩
        exact absurd (h.writer_unique ht' ht hstore hw' hw) hn
      · exact hf'

/-- Marking the active writer as ended and letting the next one in. -/
theorem finish (h : s.Sound) {id : Nat} {t : Txn α} (ht : s.txns[id]? = some t)
    (hw : t.isWriting = true) (ending : Ending) :
    ((s.mark id ending).release t.store).Sound := by
  refine h.update (fun st' _ hold => ⟨hold.valid, hold.root, hold.trees⟩)
    fun n t' st' ht' hst' hf' => ?_
  by_cases hn : n = id
  · rw [if_pos hn]
    refine ⟨rfl, ?_⟩
    have hended : Txn.isWriting { t' with state := .ended ending } = false := by
      simp [Txn.isWriting]
    split
    · exact ⟨⟨hf'.sound.root, hf'.sound.trees, hf'.sound.ascends, hf'.sound.drafts⟩, hf'.schema,
        hf'.primary, hf'.reads, fun hw' => by simp [hended] at hw'⟩
    · exact ⟨⟨hf'.sound.root, hf'.sound.trees, hf'.sound.ascends, hf'.sound.drafts⟩, hf'.schema,
        hf'.primary, hf'.reads, fun hw' => by simp [hended] at hw'⟩
  · rw [if_neg hn]
    refine ⟨rfl, ?_⟩
    split
    · rename_i hstore
      refine ⟨hf'.sound, hf'.schema, hf'.primary, hf'.reads, fun hw' => ?_⟩
      exact absurd (h.writer_unique ht' ht hstore hw' hw) hn
    · exact hf'

theorem tally (h : s.Sound) (store : Nat) (ending : Ending) : (s.tally store ending).Sound := by
  cases ending with
  | commit => exact h.updateStore store (fun _ => ⟨rfl, rfl, rfl⟩) fun _ _ _ _ _ _ _ hw => hw
  | abort => exact h.updateStore store (fun _ => ⟨rfl, rfl, rfl⟩) fun _ _ _ _ _ _ _ hw => hw

theorem commitOne (h : s.Sound) (id : Nat) : (s.commitOne id).Sound := by
  unfold Engine.commitOne
  cases ht : s.txns[id]? with
  | none => exact h
  | some t =>
    dsimp only
    split
    · rename_i hw
      rw [commitWrites_eq ht]
      have hpublished := (h.publish ht hw).withBoard (s.board.fireAll (s.publish id).1)
      have hended := (hpublished.finish (txns_publish_self ht) hw .commit).tally t.store .commit
      exact hended.updateTxn id fun t' st' _ _ hf => ⟨rfl, hf.aside t'.changes []⟩
    · exact h

theorem abortWrites (h : s.Sound) {id : Nat} {t : Txn α} (ht : s.txns[id]? = some t)
    (hw : t.isWriting = true) : (s.abortWrites id t.store).Sound := by
  have hforgot := h.updateTxn id
    (f := fun t => { t with handles := [], changes := none, deferred := [] })
    fun t' st' _ _ hf => ⟨rfl, ⟨hf.sound.root, hf.sound.trees, List.Pairwise.nil,
      fun _ _ hf => nomatch hf⟩, hf.schema, hf.primary, fun _ => rfl, hf.writes⟩
  exact (hforgot.finish (txns_updateTxn_self ht) hw .abort).tally t.store .abort

theorem drop (h : s.Sound) (id : Nat) : (s.drop id).Sound := by
  cases ht : s.txns[id]? with
  | none =>
    rw [drop_of_none ht]
    exact h
  | some t =>
    rw [drop_of_some ht]
    split
    · exact h.abortWrites ht ‹_›
    · exact h

/-! ## All actions -/

/-- Every action keeps an engine sound. -/
theorem perform (h : s.Sound) (a : Action α) : (s.perform a).Sound := by
  cases a with
  | create schema settings => exact h.create schema settings
  | snapshotStore store => exact h.snapshotStore store
  | openRead store => exact h.openRead store
  | requestWrite store => exact h.requestWrite store
  | acquireWrite store => exact h.acquireWrite store
  | snapshotTxn id => exact h.snapshotTxn id
  | write id w => exact h.write id w
  | query id scan table index args => exact h.query id scan table index args
  | trackChanges id =>
    exact h.updateTxn id fun t st _ _ hf => ⟨rfl, hf.aside _ t.deferred⟩
  | defer id job =>
    exact h.updateTxn id fun t st _ _ hf => ⟨rfl, hf.aside t.changes _⟩
  | commit id => exact h.commitOne id
  | abort id =>
    rw [Engine.perform, next_abort]
    exact h.drop id
  | drop id => exact h.drop id

/-- The engine without stores and transactions is sound. -/
theorem empty : ({} : Engine α).Sound :=
  ⟨fun _ _ h => (nomatch h), fun _ _ h => (nomatch h)⟩

theorem performAll (h : s.Sound) (actions : List (Action α)) : (s.performAll actions).Sound := by
  induction actions generalizing s with
  | nil => exact h
  | cons a actions ih => exact ih (h.perform a)

end Engine.Sound

end SnapStore
