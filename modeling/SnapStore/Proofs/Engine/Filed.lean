import SnapStore.Proofs.Engine.Step
import SnapStore.Proofs.Transaction.Stamps

/-! # Entries are filed by some index

A write puts nothing into a tree but what an index of its table stores of the object. So each entry
of a tree is filed there by some index with the path of the tree, whatever else the indexes share.
If only one index has the path, it is this one.

Main statements: `TxnM.filed_write` (a write files what it puts in) and `filed_performAll` (so does
a run).
-/

namespace SnapStore

variable {α : Type}

/-- Each entry was filed by an index of the schema that has the path of its tree. -/
def Forest.Filed (F : Forest α) (S : Schema α) : Prop :=
  ∀ path tree key object, F path = some tree → tree.get? key = some object →
    ∃ table index, indexPath table index = path ∧ S.Files table index object key

/-- Whichever index of the schema has the path, it is this one. -/
def Schema.Alone (S : Schema α) (path : Key) (i : IndexSchema α) : Prop :=
  ∀ table ts name i', S.table? table = some ts → (name, i') ∈ ts.indexes →
    indexPath table name = path → i' = i

/-- What stands in the tree of an index that is alone is stored there by it. -/
theorem Forest.Filed.stores {F : Forest α} {S : Schema α} (h : F.Filed S) {path : Key}
    {i : IndexSchema α} (halone : S.Alone path i) {tree : Tree α} (htree : F path = some tree)
    {key : Key} {object : α} (hget : tree.get? key = some object) :
    ∃ primary, i.Stores object primary key := by
  rcases h path tree key object htree hget with
    ⟨table, index, hpath, ts, i', primary, hts, hi', hstores⟩
  obtain rfl := halone table ts index i' hts hi' hpath
  exact ⟨primary, hstores⟩

/-! ## Writes -/

/-- Edits that insert what an index files keep the entries filed. -/
theorem Txn.filed_withEdits {t : Txn α} {S : Schema α} (hs : t.Sound) (h : t.forest.Filed S)
    {table index : String} {edits : List (Edit α)}
    (hedits : ∀ key object, .insert key object ∈ edits → S.Files table index object key) :
    (t.withEdits (indexPath table index) edits).forest.Filed S := by
  cases hd : t.draftAt (indexPath table index) with
  | none =>
    have hsame : t.withEdits (indexPath table index) edits = t := by simp only [withEdits, hd]
    rwa [hsame]
  | some draft =>
    have hdraft : t.forest (indexPath table index) = some draft.tree := by
      rw [← t.tree_draftAt, hd, Option.map_some]
    intro path tree key object htree hget
    rw [forest_withEdits hd] at htree
    split at htree
    · rename_i hpath
      obtain rfl := Option.some.inj htree
      rcases Draft.get?_applyAll_cases (hs.wf_forest.tree _ _ hdraft) hget with hold | hmem
      · exact hpath ▸ h _ draft.tree key object hdraft hold
      · exact ⟨table, index, hpath.symm, hedits key object hmem⟩
    · exact h path tree key object htree hget

/-- A write, whether it succeeds or fails, leaves the entries filed. -/
theorem TxnM.filed_write {t : Txn α} (hs : t.Sound) (h : t.forest.Filed t.schema) (w : Write α)
    (stats : Stats) : ((TxnM.write w).leaves ⟨t, stats⟩).txn.forest.Filed t.schema := by
  -- the edits of a write come one after another, so soundness is handed on with them
  have hwrite := TxnM.relates_write
    (R := fun t₁ t₂ => t₁.Sound ∧ t₁.forest.Filed t.schema →
      t₂.Sound ∧ t₂.forest.Filed t.schema) w ⟨t, stats⟩ (fun _ => id)
    (fun _ _ _ h h' ht => h' (h ht))
    (fun _ _ edits hedits ht => ⟨ht.1.withEdits _ edits, Txn.filed_withEdits ht.1 ht.2 hedits⟩)
    fun _ _ ht => ⟨⟨ht.1.root, ht.1.trees, ht.1.ascends, ht.1.drafts⟩, ht.2⟩
  exact (hwrite ⟨hs, h⟩).2

/-! ## Runs -/

namespace Engine

/-- The entries of all stores are filed, and those that an active transaction sees. -/
structure Filed (s : Engine α) : Prop where
  stores : ∀ (n : Nat) (st : Store α), s.stores[n]? = some st → Forest.Filed st.root.get? st.schema
  txns : ∀ (id : Nat) (t : Txn α), s.txns[id]? = some t → t.state = .active →
    t.forest.Filed t.schema

variable {s : Engine α}

/-- Every action leaves the entries filed. -/
theorem Filed.perform (h : s.Filed) (hs : s.Sound) (a : Action α) : (s.perform a).Filed where
  stores n st' hst' := by
    cases hs.storeStep hst' with
    | created _ _ hcreate =>
      unfold Store.create at hcreate
      split at hcreate
      · cases hcreate
      · obtain rfl := Except.ok.inj hcreate
        -- the trees of a new root are empty
        intro path tree key object htree hget
        rcases (Store.vacant_emptyRoot _ _).empty path tree htree with ⟨channel, rfl⟩
        rw [Tree.get?_empty] at hget
        cases hget
    | @copied m st _ _ hst heq =>
      subst heq
      exact h.stores m st hst
    | @stays st hst hstays _ =>
      rw [hstays.root, hstays.schema]
      exact h.stores n st hst
    | @published st id t hst hc hstore hschema _ hroot =>
      rcases hs.txns id t hc.txn with ⟨st₀, hst₀, hf⟩
      rw [hstore] at hst₀
      obtain rfl := Option.some.inj (hst.symm.trans hst₀)
      rw [hroot, hf.sound.get?_published, hschema, ← hf.schema]
      exact h.txns id t hc.txn (Txn.isWriting_iff.1 hc.writing).2
  txns id t' ht' hactive := by
    cases hs.txnStep ht' with
    | @reader n _ st _ _ hst heq | @writer n _ st _ _ hst heq =>
      subst heq
      rw [Txn.forest_of_handles rfl]
      exact h.stores n st hst
    | @snapshot m t _ _ ht hactive' hviews =>
      rw [Txn.forest_of_handles hviews.handles, hviews.root, hviews.schema]
      exact h.txns m t ht hactive'
    | @wrote w t st _ ht _ heq =>
      rcases hs.txns id t ht with ⟨_, _, hf⟩
      rcases (TxnM.keeps_write w ⟨t, st.stats⟩).frame with ⟨handles, changes, hframe⟩
      have hschema : t'.schema = t.schema := by rw [heq, hframe]
      have hstate : t'.state = t.state := by rw [heq, hframe]
      rw [hschema, heq]
      exact TxnM.filed_write hf.sound (h.txns id t ht (hstate ▸ hactive)) w st.stats
    | @stays t _ _ ht heq _ _ =>
      subst heq
      exact h.txns id t ht hactive
    | ended _ _ hended =>
      rw [hactive] at hended
      cases hended

/-- Over a run all entries are filed. -/
theorem filed_performAll (actions : List (Action α)) :
    (performAll {} actions : Engine α).Filed := by
  have hstart : (({} : Engine α)).Filed :=
    ⟨fun _ _ hst => (nomatch hst), fun _ _ ht => (nomatch ht)⟩
  suffices h : ∀ s : Engine α, s.Sound → s.Filed → (s.performAll actions).Filed from
    h {} .empty hstart
  intro s hs h
  induction actions generalizing s with
  | nil => exact h
  | cons a actions ih => exact ih (s.perform a) (hs.perform a) (h.perform hs a)

end Engine

end SnapStore
