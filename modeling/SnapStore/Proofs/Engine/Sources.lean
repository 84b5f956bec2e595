import Mathlib.Data.List.Induction
import SnapStore.Proofs.Engine.Deferred
import SnapStore.Proofs.Engine.Owners

/-! # What readers read, later on

A read transaction of a primary store reads the root that was current when it was opened, or it is
a snapshot of a writer and reads what this one saw. In an index that the writer had not changed by
then, this is what the store has. What it had changed comes to the store with its commit. So once
the writer has not been aborted, each answer comes with a channel that has fired or the answer is
still the same over the current root, and as long as the writer is active, none of its channels
fires.

Main statements: `Carries.write` (what a writer keeps of what it saw), `Tells.performAll` (what a
run keeps of it) and `exists_tells` (there is such a source for every reader).
-/

namespace SnapStore

universe u

variable {α : Type} {V : Type u}

theorem Draft.tracking_applyAll (d : Draft V) (edits : List (Edit V)) :
    (d.applyAll edits).tracking = d.tracking := by
  induction edits generalizing d with
  | nil => rfl
  | cons e edits ih => exact (ih (d.apply e)).trans (d.tracking_apply e)

/-! ## One index -/

namespace Forest

variable {F F' : Forest α} {path : Key} {board : Board}

/-- The tree at one path, without all others. -/
def only (F : Forest α) (path : Key) : Forest α :=
  fun p => if p = path then F p else none

@[simp] theorem only_self (F : Forest α) (path : Key) : F.only path path = F path := if_pos rfl

theorem only_eq_some_iff {p : Key} {tree : Tree α} :
    F.only path p = some tree ↔ p = path ∧ F path = some tree := by
  unfold only
  split
  · rename_i heq
    simp [heq]
  · rename_i hne
    simp [hne]

theorem Kept.only (h : Kept board F F') (path : Key) : Kept board (F.only path) F' := by
  intro p tree htree
  rcases only_eq_some_iff.1 htree with ⟨rfl, htree⟩
  exact h p tree htree

/-- Whoever reads a tree that also stands elsewhere reads the same there. -/
theorem kept_only_of_eq (board : Board) (h : F path = F' path) :
    Kept board (F.only path) F' := by
  intro p tree htree
  rcases only_eq_some_iff.1 htree with ⟨rfl, htree⟩
  exact ⟨tree, h ▸ htree, fun _ _ => .inr rfl⟩

end Forest

/-- A query is answered over the tree of its index. -/
theorem Scan.within_only {schema : Schema α} {table index : String} {args : List Arg} {q : Query α}
    (hq : schema.resolve table index args = .ok q) (scan : Scan) (F : Forest α) :
    scan.within schema (F.only (indexPath table q.name)) table index args =
      scan.within schema F table index args := by
  simp only [Scan.within, hq, Forest.only_self]

/-! ## Writers -/

namespace Txn

variable {t : Txn α} {F : Forest α}

/-- The transaction goes on from the trees `F` that it saw: whoever read one of them finds the
channel of the answer among those to fire, or would read the same now. The channels of these trees
are those of the root, or the transaction has made them. -/
structure Carries (t : Txn α) (F : Forest α) : Prop where
  trees : ∀ path tree, F path = some tree → ∃ tree', t.forest path = some tree' ∧
    ∀ f : Tree α → Channel × List α, Guarded f →
      (f tree).1 ∈ t.displacedAt (some path) ∨ f tree' = f tree
  channels : ∀ path tree c, F path = some tree → c ∈ tree.channels →
    c ∈ t.root.channelsAt (some path) ∨ c.stamp.region = t.name

/-- A transaction carries what it sees. -/
theorem Stamped.carries (h : t.Stamped) : t.Carries t.forest := by
  refine ⟨fun path tree htree => ⟨tree, htree, fun _ _ => .inr rfl⟩, fun path tree c htree hc => ?_⟩
  rw [forest] at htree
  cases hd : t.handles.find? path with
  | none =>
    rw [hd] at htree
    exact .inl (Root.mem_channelsAt.2 ⟨tree, htree, hc⟩)
  | some d =>
    rw [hd] at htree
    obtain rfl := Option.some.inj htree
    exact (h.origin hd (.inl hc)).imp_right And.left

theorem Carries.only (h : t.Carries F) (path : Key) : t.Carries (F.only path) := by
  refine ⟨fun p tree htree => ?_, fun p tree c htree hc => ?_⟩
  · rcases Forest.only_eq_some_iff.1 htree with ⟨rfl, htree⟩
    exact h.trees p tree htree
  · rcases Forest.only_eq_some_iff.1 htree with ⟨rfl, htree⟩
    exact h.channels p tree c htree hc

/-- Whatever an edit of a transaction of a primary store goes to keeps track of the channels that
it has replaced, and these are the ones to fire. -/
theorem Sound.tracked_draftAt (hs : t.Sound) (hp : t.primary = true) {path : Key}
    {draft : Draft α} (hd : t.draftAt path = some draft) : draft.tree.Wf ∧
      draft.tracking = true ∧ draft.displaced = t.displacedAt (some path) := by
  have htree := t.tree_draftAt path
  rw [hd, Option.map_some] at htree
  refine ⟨hs.wf_forest.tree path _ htree.symm, ?_⟩
  unfold draftAt at hd
  cases hold : t.handles.find? path with
  | some old =>
    rw [hold] at hd
    obtain rfl := Option.some.inj hd
    rcases hs.drafts path old hold with ⟨tree, stamp, edits, _, heq⟩
    refine ⟨?_, by rw [displacedAt, hold]; rfl⟩
    rw [heq, Draft.tracking_applyAll]
    exact hp
  | none =>
    rw [hold, Option.map_eq_some_iff] at hd
    rcases hd with ⟨tree, _, rfl⟩
    refine ⟨hp, ?_⟩
    rw [displacedAt, hold, hp]
    rfl

namespace Carries

theorem aside (h : t.Carries F) (changes : Option (ChangeLog α)) (deferred : List (Job α)) :
    Carries { t with changes := changes, deferred := deferred } F :=
  ⟨h.trees, h.channels⟩

/-- Edits of a tracked draft carry on. -/
theorem withEdits (h : t.Carries F) (hs : t.Sound) (hp : t.primary = true) (path : Key)
    (edits : List (Edit α)) : (t.withEdits path edits).Carries F := by
  cases hd : t.draftAt path with
  | none =>
    unfold Txn.withEdits
    rw [hd]
    exact h
  | some draft =>
    rcases hs.tracked_draftAt hp hd with ⟨hw, htracking, hdisplaced⟩
    have hhandles : (t.withEdits path edits).handles =
        Catalog.insert path (draft.applyAll edits) t.handles := by
      simp only [Txn.withEdits, hd]
    have hsame : (t.withEdits path edits).root = t.root ∧
        (t.withEdits path edits).name = t.name := by
      simp only [Txn.withEdits, hd, and_self]
    refine ⟨fun path' tree htree => ?_, fun path' tree c htree hc => ?_⟩
    · rcases h.trees path' tree htree with ⟨tree', htree', hf⟩
      rw [forest_withEdits hd, displacedAt, hhandles, Catalog.find?_insert]
      by_cases hpath : path' = path
      · subst hpath
        rw [if_pos rfl, if_pos rfl]
        obtain rfl : draft.tree = tree' := by
          have hsees := t.tree_draftAt path'
          rw [hd, htree'] at hsees
          exact Option.some.inj hsees
        refine ⟨_, rfl, fun f hguard => ?_⟩
        rcases hf f hguard with hmem | heq
        · exact .inl (Draft.displaced_subset_applyAll draft edits (hdisplaced ▸ hmem))
        · have hedits := hguard.applyAll hw htracking edits
          rwa [heq] at hedits
      · rw [if_neg hpath, if_neg (Ne.symm hpath)]
        exact ⟨tree', htree', hf⟩
    · rw [hsame.1, hsame.2]
      exact h.channels path' tree c htree hc

/-- Every write carries on. -/
theorem write (h : t.Carries F) (hs : t.Sound) (hp : t.primary = true) (w : Write α)
    (stats : Stats) : ((TxnM.write w).leaves ⟨t, stats⟩).txn.Carries F := by
  refine (TxnM.relates_write (R := fun t t' => t.Sound ∧ t.primary = true ∧ t.Carries F →
    t'.Sound ∧ t'.primary = true ∧ t'.Carries F) w ⟨t, stats⟩ (fun _ => id)
    (fun _ _ _ h h' ht => h' (h ht)) (fun t index edits _ ht => ?_) (fun t changes ht => ?_)
    ⟨hs, hp, h⟩).2.2
  · rcases ht with ⟨hs, hp, h⟩
    rcases t.exists_handles_withEdits (indexPath w.table index) edits with ⟨handles, heq⟩
    exact ⟨hs.withEdits _ edits, by rw [heq]; exact hp, h.withEdits hs hp _ edits⟩
  · rcases ht with ⟨hs, hp, h⟩
    exact ⟨⟨hs.root, hs.trees, hs.ascends, hs.drafts⟩, hp, h.aside changes t.deferred⟩

end Carries

end Txn

namespace Engine

variable {s s' : Engine α} {a : Action α} {id n : Nat} {t t' : Txn α} {F : Forest α}
  {writer : Option Nat} {actions : List (Action α)}

/-- The transaction at the position `id` has been aborted, or dropped as it was active. -/
def Aborted (s : Engine α) (id : Nat) : Prop :=
  ∃ t, s.txns[id]? = some t ∧ t.state = .ended .abort

/-- A writer that ends without a commit is aborted. -/
theorem Sound.aborted_perform (hs : s.Sound) (ht : s.txns[id]? = some t) (hw : t.isWriting = true)
    (hno : ¬ s.Commits a id t) (ht' : (s.perform a).txns[id]? = some t')
    (hended : ¬ t'.isWriting = true) : (s.perform a).Aborted id := by
  have hsame (heq : t = t') : (s.perform a).Aborted id := absurd (heq ▸ hw) hended
  by_cases hactor : a.actor? = some id
  · cases hs.performs a with
    | nothing _ _ heq =>
      rw [heq] at ht'
      exact hsame (Option.some.inj (ht.symm.trans ht'))
    | create ha _ _ | copy ha _ _ | read ha _ _ | request ha _ | turn ha _ _ _
    | view ha _ _ _ _ =>
      rw [ha] at hactor
      cases hactor
    | @write _ w t₁ st stats ha ht₁ _ heq =>
      rw [ha] at hactor
      obtain rfl := Option.some.inj hactor
      obtain rfl := Option.some.inj (ht.symm.trans ht₁)
      have hleaves := txns_updateTxn_self (f := fun _ => ((TxnM.write w).leaves ⟨t, st.stats⟩).txn)
        ht
      rw [heq] at ht'
      obtain rfl := Option.some.inj (hleaves.symm.trans ht')
      rcases (TxnM.keeps_write w ⟨t, st.stats⟩).frame with ⟨handles, changes, hframe⟩
      rw [hframe] at hended
      exact absurd hw hended
    | count _ _ _ heq =>
      rw [heq] at ht'
      exact hsame (Option.some.inj (ht.symm.trans ht'))
    | aside _ _ _ hf heq =>
      rw [heq] at ht'
      rcases getElem?_txns_updateTxn.1 ht' with ⟨t₁, ht₁, rfl⟩
      obtain rfl := Option.some.inj (ht.symm.trans ht₁)
      split at hended
      · rcases hf t with ⟨changes, deferred, hframe⟩
        rw [hframe] at hended
        exact absurd hw hended
      · exact absurd hw hended
    | commit hc _ =>
      have hid := hc.action ▸ hactor
      obtain rfl := Option.some.inj hid
      obtain rfl := Option.some.inj (ht.symm.trans hc.txn)
      exact absurd hc hno
    | drop hactor' _ _ ht₁ hw₁ heq =>
      obtain rfl := Option.some.inj (hactor'.symm.trans hactor)
      rw [heq]
      exact ⟨_, txns_drop_self ht₁ hw₁, rfl⟩
  · exact hsame (Option.some.inj ((hs.txns_perform ht hactor).symm.trans ht'))

/-! ## Sources -/

/-- Where the trees `F` stand that somebody reads at the store `n`. They lead on to the current
root of the store. Or they are those of a writer, which is still active or has been aborted. -/
inductive Tells (s : Engine α) (n : Nat) (F : Forest α) : Option Nat → Prop
  | published {writer : Option Nat} {st : Store α} (hst : s.stores[n]? = some st)
    (hp : st.primary = true) (hkept : Forest.Kept s.board F st.root.get?) : Tells s n F writer
  | writing {id : Nat} {t : Txn α} (ht : s.Authors id t) (hstore : t.store = n)
    (hcarries : t.Carries F) : Tells s n F (some id)
  | aborted {id : Nat} (h : s.Aborted id) : Tells s n F (some id)

/-- The commit of a writer brings to its store what it saw. -/
theorem Tells.of_commit (hs : s.Sound) (ht : s.Authors id t) (hcarries : t.Carries F) :
    (s.perform (.commit id)).Tells t.store F writer := by
  rcases hs.txns id t ht.txn with ⟨st, hst, hf⟩
  refine .published (stores_commitOne_self ht.txn ht.writing hst) (hf.primary.symm.trans ht.primary)
    fun path tree htree => ?_
  rcases hcarries.trees path tree htree with ⟨tree', htree', hread⟩
  rw [hf.sound.get?_published]
  refine ⟨tree', htree', fun f hguard => (hread f hguard).imp_left fun hmem => ?_⟩
  rw [Txn.displacedAt] at hmem
  cases hd : t.handles.find? path with
  | none =>
    rw [hd] at hmem
    cases hmem
  | some d =>
    rw [hd] at hmem
    have hfires : (f tree).1 ∈ (s.publish id).1 := by
      rw [publish_eq ht.txn]
      refine List.mem_append_left _ (List.mem_flatMap.2 ?_)
      exact ⟨(path, d), Catalog.mem_of_find? hd, hmem⟩
    rw [Engine.perform, board_commitOne ht.txn ht.writing, Board.isFired_fireAll]
    simp [hfires]

theorem Tells.perform (h : s.Tells n F writer) (hs : s.Sound) (a : Action α) :
    (s.perform a).Tells n F writer := by
  cases h with
  | published hst hp hkept =>
    have hextends := hs.extends_perform a
    rcases hextends.stores n _ hst with ⟨st', hst', hleads⟩
    exact .published hst' (hleads.primary.trans hp)
      (hkept.trans (hleads.kept hp) hextends.fired)
  | aborted h =>
    rcases h with ⟨t, ht, hended⟩
    exact .aborted (hs.ended_perform ht hended a)
  | @writing id t ht hstore hcarries =>
    subst hstore
    by_cases hc : s.Commits a id t
    · rw [hc.action]
      exact .of_commit hs ht hcarries
    have hlt : id < s.txns.length := (List.getElem?_eq_some_iff.1 ht.txn).1
    obtain ⟨t', ht'⟩ : ∃ t', (s.perform a).txns[id]? = some t' :=
      ⟨_, List.getElem?_eq_getElem (Nat.lt_of_lt_of_le hlt (hs.extends_perform a).length)⟩
    cases hs.txnStep ht' with
    | reader _ hid _ _ => exact absurd hid (Nat.ne_of_lt hlt)
    | writer _ hid _ _ => exact absurd hid (Nat.ne_of_lt hlt)
    | snapshot _ hid _ _ _ => exact absurd hid (Nat.ne_of_lt hlt)
    | @wrote w t₁ st _ ht₁ _ heq =>
      obtain rfl := Option.some.inj (ht.txn.symm.trans ht₁)
      rcases hs.txns id t ht.txn with ⟨_, _, hf⟩
      rcases (TxnM.keeps_write w ⟨t, st.stats⟩).frame with ⟨handles, changes, hframe⟩
      have hcarries' := hcarries.write hf.sound ht.primary w st.stats
      rw [hframe] at heq hcarries'
      subst heq
      exact .writing (t := { t with handles := handles, changes := changes })
        ⟨ht', ht.writing, ht.primary⟩ rfl hcarries'
    | @stays t₁ changes deferred ht₁ heq _ _ =>
      obtain rfl := Option.some.inj (ht.txn.symm.trans ht₁)
      subst heq
      exact .writing (t := { t with changes := changes, deferred := deferred })
        ⟨ht', ht.writing, ht.primary⟩ rfl (hcarries.aside changes deferred)
    | ended _ _ hended =>
      refine .aborted (hs.aborted_perform ht.txn ht.writing hc ht' ?_)
      simp [Txn.isWriting, hended]

theorem Tells.performAll (h : s.Tells n F writer) (hs : s.Sound) (actions : List (Action α)) :
    (s.performAll actions).Tells n F writer := by
  induction actions generalizing s with
  | nil => exact h
  | cons a actions ih => exact ih (h.perform hs a) (hs.perform a)

/-! ## Readers -/

/-- The read transaction `reader` of a run reads at the path what is not the store's: it is a
snapshot of the write transaction `writer`, which had changed the tree at the path by then, or a
snapshot of such a snapshot, and so on. -/
inductive Borrows (path : Key) : List (Action α) → Nat → Nat → Prop
  | ofWriter {before after : List (Action α)} {id : Nat} {t : Txn α}
    (ht : (performAll {} before).txns[id]? = some t) (hw : t.isWriting = true)
    (hchanged : t.forest path ≠ t.root.get? path) :
    Borrows path (before ++ .snapshotTxn id :: after)
      (performAll {} before : Engine α).txns.length id
  | ofReader {before after : List (Action α)} {id writer : Nat}
      (h : Borrows path before id writer) :
    Borrows path (before ++ .snapshotTxn id :: after)
      (performAll {} before : Engine α).txns.length writer

theorem Borrows.append {path : Key} {reader writer : Nat} (h : Borrows path actions reader writer)
    (more : List (Action α)) : Borrows path (actions ++ more) reader writer := by
  cases h with
  | ofWriter ht hw hchanged =>
    rw [List.append_assoc]
    exact .ofWriter ht hw hchanged
  | ofReader h =>
    rw [List.append_assoc]
    exact .ofReader h

/-- Whoever is borrowed from was asked for a snapshot. -/
theorem Borrows.mem {path : Key} {reader writer : Nat} (h : Borrows path actions reader writer) :
    .snapshotTxn writer ∈ actions := by
  induction h with
  | ofWriter _ _ _ => simp
  | ofReader _ ih => exact List.mem_append_left _ ih

/-- A snapshot reads at a primary store if and only if the transaction does that it is one of. -/
theorem Sound.primary_views (hs : s.Sound) (ht : s.txns[id]? = some t) {reader : Nat}
    (ht' : (s.perform a).txns[reader]? = some t') (hviews : t'.Views t) :
    t'.primary = t.primary := by
  rcases hs.txns id t ht with ⟨st, hst, hf⟩
  rcases (hs.perform a).txns reader t' ht' with ⟨st', hst', hf'⟩
  rcases (hs.extends_perform a).stores t.store st hst with ⟨st₁, hst₁, hleads⟩
  rw [hviews.store] at hst'
  obtain rfl := Option.some.inj (hst'.symm.trans hst₁)
  rw [hf'.primary, hleads.primary, hf.primary]

/-- What a reader of a primary store reads at a path has a source: the store, or the writer that it
is a snapshot of, if this one had changed the tree there. -/
theorem exists_tells (actions : List (Action α)) {reader : Nat} {t : Txn α}
    (ht : (performAll {} actions).txns[reader]? = some t) (hread : t.write = false)
    (hactive : t.state = .active) (hp : t.primary = true) (path : Key) :
    ∃ writer, (performAll {} actions).Tells t.store (t.forest.only path) writer ∧
      ∀ id, writer = some id → Borrows path actions reader id := by
  induction actions using List.reverseRecOn generalizing reader t with
  | nil => cases ht
  | append_singleton actions a ih =>
    rw [performAll_append, performAll_cons, performAll_nil] at ht ⊢
    have hs : (performAll {} actions : Engine α).Sound := Sound.empty.performAll actions
    have howned := owned_performAll actions
    generalize hs₀ : (performAll {} actions : Engine α) = s at ht hs howned ih ⊢
    have hdrafts : t.handles = [] := by
      rcases (hs.perform a).txns reader t ht with ⟨_, _, hf⟩
      exact hf.reads hread
    -- a transaction from before goes on as it was
    have hold {t₀ : Txn α} (ht₀ : s.txns[reader]? = some t₀) (hread₀ : t₀.write = false)
        (hactive₀ : t₀.state = .active) (hp₀ : t₀.primary = true) (hstore : t.store = t₀.store)
        (hforest : t.forest = t₀.forest) :
        ∃ writer, (s.perform a).Tells t.store (t.forest.only path) writer ∧
          ∀ id, writer = some id → Borrows path (actions ++ [a]) reader id := by
      rcases ih ht₀ hread₀ hactive₀ hp₀ with ⟨writer, htells, hborrows⟩
      rw [hstore, hforest]
      exact ⟨writer, htells.perform hs a, fun id hid => (hborrows id hid).append [a]⟩
    cases hs.txnStep ht with
    | @reader n name st _ _ hst heq =>
      subst heq
      rcases (hs.extends_perform a).stores n st hst with ⟨st₁, hst₁, hleads⟩
      refine ⟨none, .published hst₁ (hleads.primary.trans hp) ?_, fun _ hid => nomatch hid⟩
      rw [Txn.forest_of_handles hdrafts]
      exact (hleads.kept hp).only path
    | writer _ _ _ heq =>
      subst heq
      cases hread
    | @snapshot m t₀ ha hid ht₀ hactive₀ hviews =>
      have hp₀ : t₀.primary = true := (hs.primary_views ht₀ ht hviews).symm.trans hp
      rw [Txn.forest_of_handles hdrafts, hviews.root, hviews.store, hid, ha]
      by_cases hw : t₀.write = true
      · have hauthors : s.Authors m t₀ := ⟨ht₀, by simp [Txn.isWriting, hw, hactive₀], hp₀⟩
        by_cases hchanged : t₀.forest path = t₀.root.get? path
        · -- the writer shares the tree with the root that it works on
          rcases hs.txns m t₀ ht₀ with ⟨st, hst, hf⟩
          rw [(hf.writes hauthors.writing).2] at hchanged
          have htells : s.Tells t₀.store (t₀.forest.only path) none :=
            .published hst (hf.primary.symm.trans hp₀) (Forest.kept_only_of_eq s.board hchanged)
          exact ⟨none, htells.perform hs _, fun _ hid => nomatch hid⟩
        · refine ⟨some m, (Tells.writing hauthors rfl ?_).perform hs _, ?_⟩
          · exact (howned.authors m t₀ hauthors).1.carries.only path
          · rintro id ⟨⟩
            subst hs₀
            exact .ofWriter ht₀ hauthors.writing hchanged
      · rcases ih ht₀ (by simpa using hw) hactive₀ hp₀ with ⟨writer, htells, hborrows⟩
        refine ⟨writer, htells.perform hs _, fun id heq => ?_⟩
        subst hs₀
        exact .ofReader (hborrows id heq)
    | @wrote w t₀ st _ ht₀ _ heq =>
      rcases (TxnM.keeps_write w ⟨t₀, st.stats⟩).frame with ⟨handles, changes, hframe⟩
      have hread₀ : t₀.write = false := by
        rw [heq, hframe] at hread
        exact hread
      rcases TxnM.writes_readOnly hread₀ w st.stats with ⟨e, he⟩
      obtain rfl : t = t₀ := by rw [heq, TxnM.leaves, he]
      exact hold ht₀ hread hactive hp rfl rfl
    | stays ht₀ heq _ _ =>
      subst heq
      exact hold ht₀ hread hactive hp rfl rfl
    | ended _ _ hended =>
      rw [hactive] at hended
      cases hended

end Engine

end SnapStore
