import SnapStore.Proofs.Engine.Silent
import SnapStore.Proofs.Transaction.Stamps

/-! # Channels of current trees have not fired

A commit fires the channels of the nodes and leaves that it has replaced, each at one place of its
own store. No other tree of a primary store shares such a channel, since it carries the name of
whoever made it, and was made for one place. So a channel that a current tree still has was never
among those that were replaced, by whatever commit.

Main statements: `Owned.of_news` (what a step has to show), `Owned.perform` (every action keeps
it) and `owned_performAll` (so does a run).
-/

namespace SnapStore

universe u

variable {α : Type} {V : Type u}

@[simp] theorem Board.named_notify (b : Board) (w : Wakeup) : (b.notify w).named = b.named := by
  unfold notify
  split <;> rfl

@[simp] theorem Board.named_foldl_notify (b : Board) (ws : List Wakeup) :
    (ws.foldl notify b).named = b.named := by
  induction ws generalizing b with
  | nil => rfl
  | cons w ws ih => rw [List.foldl_cons, ih, named_notify]

@[simp] theorem Board.named_fireAll (b : Board) (cs : List Channel) :
    (b.fireAll cs).named = b.named := by
  unfold fireAll
  induction cs generalizing b with
  | nil => rfl
  | cons c cs ih =>
    rw [List.foldl_cons, ih]
    exact named_foldl_notify _ _

namespace Draft

/-- A draft with a fresh stamp is live if it is opened on a tree whose channels are distinct and
have not fired. -/
theorem live_edit {t : Tree V} {b : Board} {stamp : Stamp} (hnodup : t.channels.Nodup)
    (hunfired : ∀ c ∈ t.channels, b.isFired c = false) (hfresh : stamp.Fresh t b) :
    (t.edit stamp).Live b :=
  ⟨hnodup, hunfired, fun _ _ hd => (nomatch hd), hfresh, fun _ _ hd => (nomatch hd)⟩

end Draft

/-! ## New stores -/

namespace Store

/-- Each channel of a new root carries the name of the store and a slot for its place. -/
theorem origin_emptyRoot {name : Nat} {paths : List Key} {place : Option Key} {c : Channel}
    (hc : c ∈ (emptyRoot name paths : Root α).channelsAt place) :
    c.stamp.region = name ∧ ((place = none ∧ c.stamp.slot < 2) ∨
      ∃ i, paths[i]? = place ∧ c.stamp.slot = i + 2) := by
  let channel (i : Nat) : Channel := ⟨⟨name, i + 2, 0⟩, 0, .node⟩
  let xs : List (Key × Tree α) := paths.zipIdx.map fun x => (x.1, .empty (channel x.2))
  let root : Root α := .empty ⟨⟨name, 0, 0⟩, 0, .node⟩
  have heq : (emptyRoot name paths : Root α) =
      ((root.edit ⟨name, 1, 0⟩).applyAll (xs.map fun x => .insert x.1 x.2)).tree := by
    rw [emptyRoot, Draft.applyAll, List.map_map, List.foldl_map]
    rfl
  rw [heq] at hc
  cases place with
  | none =>
    rcases Draft.origin_applyAll _ _ (.inl hc) with (htree | hd) | ⟨hregion, hslot⟩
    · obtain rfl := List.mem_singleton.1 htree
      exact ⟨rfl, .inl ⟨rfl, Nat.zero_lt_two⟩⟩
    · cases hd
    · exact ⟨hregion, .inl ⟨rfl, hslot ▸ Nat.one_lt_two⟩⟩
  | some path =>
    rcases Root.mem_channelsAt.1 hc with ⟨tree, htree, hc⟩
    have hroot : (root.edit ⟨name, 1, 0⟩).tree.Wf := Tree.wf_empty _
    rcases Draft.get?_applyAll_cases hroot htree with hnone | hmem
    · rw [show (root.edit ⟨name, 1, 0⟩).tree.get? path = none from Tree.get?_empty _ path] at hnone
      cases hnone
    · rcases List.mem_map.1 hmem with ⟨x, hx, hinsert⟩
      rcases Edit.insert.inj hinsert with ⟨rfl, rfl⟩
      rcases List.mem_map.1 hx with ⟨⟨path', i⟩, hi, rfl⟩
      obtain rfl := List.mem_singleton.1 hc
      exact ⟨rfl, .inr ⟨i, List.mem_zipIdx_iff_getElem?.1 hi, rfl⟩⟩

/-- No channel of a new root is at two places. -/
theorem place_eq_emptyRoot {name : Nat} {paths : List Key} {place place' : Option Key}
    {c : Channel} (hc : c ∈ (emptyRoot name paths : Root α).channelsAt place)
    (hc' : c ∈ (emptyRoot name paths : Root α).channelsAt place') : place = place' := by
  rcases (origin_emptyRoot hc).2 with ⟨rfl, hlt⟩ | ⟨i, hi, hslot⟩
  · rcases (origin_emptyRoot hc').2 with ⟨rfl, _⟩ | ⟨j, _, hslot'⟩
    · rfl
    · omega
  · rcases (origin_emptyRoot hc').2 with ⟨rfl, hlt'⟩ | ⟨j, hj, hslot'⟩
    · omega
    · obtain rfl : i = j := by omega
      exact hi.symm.trans hj

end Store

namespace Engine

/-! ## Owners -/

/-- The primary store at the position `n` has the channel at the place. -/
def Has (s : Engine α) (n : Nat) (place : Option Key) (c : Channel) : Prop :=
  ∃ st, s.stores[n]? = some st ∧ st.primary = true ∧ c ∈ st.root.channelsAt place

/-- A primary store has the channel, or it has fired. -/
def Known (s : Engine α) (c : Channel) : Prop :=
  (∃ n place, s.Has n place c) ∨ s.board.isFired c = true

/-- The transaction at the position `id` is the active writer of a primary store. -/
structure Authors (s : Engine α) (id : Nat) (t : Txn α) : Prop where
  txn : s.txns[id]? = some t
  writing : t.isWriting = true
  primary : t.primary = true

/-- What every run keeps to about the channels of primary stores. -/
structure Owned (s : Engine α) : Prop where
  nodup : ∀ (n : Nat) (st : Store α) path tree, s.stores[n]? = some st → st.primary = true →
    st.root.get? path = some tree → tree.channels.Nodup
  unfired : ∀ n path c, s.Has n (some path) c → s.board.isFired c = false
  apart : ∀ n n' place place' c, s.Has n place c → s.Has n' place' c → n = n' ∧ place = place'
  named : ∀ c, s.Known c → c.stamp.region < s.board.named
  authors : ∀ id t, s.Authors id t → t.Stamped ∧ t.name < s.board.named ∧
    ∀ c, s.Known c → c.stamp.region ≠ t.name
  names : ∀ id id' t t', s.Authors id t → s.Authors id' t' → t.name = t'.name → id = id'

/-- Where the active writer `t'` of a later engine comes from: it goes on, or it is new and has a
new name. -/
inductive Enters (s s' : Engine α) (id : Nat) (t' : Txn α) : Prop
  | goesOn {t : Txn α} (ht : s.Authors id t) (hname : t'.name = t.name) (hstamped : t'.Stamped)
  | opens (hid : id = s.txns.length) (hname : t'.name = s.board.named)
    (hlt : s.board.named < s'.board.named) (hstamped : t'.Stamped)

variable {s s' : Engine α} {a : Action α} {id n : Nat} {t t' : Txn α}

theorem Owned.empty : ({} : Engine α).Owned := by
  have hhas (n : Nat) (place : Option Key) (c : Channel) : ¬ ({} : Engine α).Has n place c :=
    fun ⟨_, hst, _⟩ => nomatch hst
  have hknown (c : Channel) : ¬ ({} : Engine α).Known c := by
    rintro (⟨n, place, h⟩ | h)
    · exact hhas n place c h
    · cases h
  exact ⟨fun _ _ _ _ hst => (nomatch hst), fun n path c h => absurd h (hhas n _ c),
    fun n _ place _ c h => absurd h (hhas n place c), fun c h => absurd h (hknown c),
    fun _ _ h => (nomatch h.txn), fun _ _ _ _ h => (nomatch h.txn)⟩

/-- Nothing known carries the name of a writer. -/
theorem Owned.region_ne (h : s.Owned) (hent : s.Enters s' id t') {c : Channel} (hc : s.Known c) :
    c.stamp.region ≠ t'.name := by
  cases hent with
  | goesOn ht hname _ =>
    rw [hname]
    exact (h.authors _ _ ht).2.2 c hc
  | opens _ hname _ _ =>
    rw [hname]
    exact Nat.ne_of_lt (h.named c hc)

/-- No two active writers of the later engine have one name. -/
theorem Owned.eq_of_name_eq (h : s.Owned) {id' : Nat} (hent : s.Enters s' id t)
    (hent' : s.Enters s' id' t') (heq : t.name = t'.name) : id = id' := by
  cases hent with
  | goesOn ht hname _ =>
    have hlt := (h.authors _ _ ht).2.1
    cases hent' with
    | goesOn ht' hname' _ => exact h.names _ _ _ _ ht ht' (hname.symm.trans (heq.trans hname'))
    | opens _ hname' _ _ =>
      rw [← hname, heq, hname'] at hlt
      exact absurd hlt (Nat.lt_irrefl _)
  | opens hid hname _ _ =>
    cases hent' with
    | goesOn ht' hname' _ =>
      have hlt := (h.authors _ _ ht').2.1
      rw [← hname', ← heq, hname] at hlt
      exact absurd hlt (Nat.lt_irrefl _)
    | opens hid' _ _ _ => exact hid.trans hid'.symm

/-- What a step has to show, where `N` tells which channels are new and where. Nobody knew them
before, and each of them is new at one place. Whatever fires has been replaced where it was, or
where it was new. -/
theorem Owned.of_news (h : s.Owned) {N : Nat → Option Key → Channel → Prop}
    (hunknown : ∀ n place c, N n place c → ¬ s.Known c)
    (hone : ∀ n n' place place' c, N n place c → N n' place' c → n = n' ∧ place = place')
    (hnew : ∀ n place c, N n place c → c.stamp.region < s'.board.named ∧
      ∀ id t, s'.Authors id t → c.stamp.region ≠ t.name)
    (hhas : ∀ n place c, s'.Has n place c → s.Has n place c ∨ N n place c)
    (hnamed : s.board.named ≤ s'.board.named)
    (hfired : ∀ c, s'.board.isFired c = true → s.board.isFired c = true ∨
      ∃ n place, (s.Has n place c ∨ N n place c) ∧
        ∀ path, place = some path → ¬ s'.Has n place c)
    (henters : ∀ id t, s'.Authors id t → s.Enters s' id t)
    (hnodup : ∀ (n : Nat) (st : Store α) path tree, s'.stores[n]? = some st → st.primary = true →
      st.root.get? path = some tree → tree.channels.Nodup) : s'.Owned := by
  have hapart {n n' : Nat} {place place' : Option Key} {c : Channel}
      (hc : s.Has n place c ∨ N n place c) (hc' : s.Has n' place' c ∨ N n' place' c) :
      n = n' ∧ place = place' := by
    rcases hc with hc | hc
    · rcases hc' with hc' | hc'
      · exact h.apart n n' place place' c hc hc'
      · exact absurd (.inl ⟨n, place, hc⟩) (hunknown n' place' c hc')
    · rcases hc' with hc' | hc'
      · exact absurd (.inl ⟨n', place', hc'⟩) (hunknown n place c hc)
      · exact hone n n' place place' c hc hc'
  have hknown {c : Channel} (hc : s'.Known c) : s.Known c ∨ ∃ n place, N n place c := by
    have hhome {n : Nat} {place : Option Key} (hc : s.Has n place c ∨ N n place c) :
        s.Known c ∨ ∃ n place, N n place c :=
      hc.imp (fun hc => .inl ⟨n, place, hc⟩) fun hc => ⟨n, place, hc⟩
    rcases hc with ⟨n, place, hc⟩ | hc
    · exact hhome (hhas n place c hc)
    · rcases hfired c hc with hold | ⟨n, place, hc, _⟩
      · exact .inl (.inr hold)
      · exact hhome hc
  refine ⟨hnodup, fun n path c hc => ?_, fun n n' place place' c hc hc' => ?_, fun c hc => ?_,
    fun id t ht => ?_, fun id id' t t' ht ht' heq => ?_⟩
  · rw [Bool.eq_false_iff]
    intro hnow
    have hhome := hhas n (some path) c hc
    rcases hfired c hnow with hold | ⟨n', place', hhome', hgone⟩
    · rcases hhome with hhome | hhome
      · rw [h.unfired n path c hhome] at hold
        cases hold
      · exact hunknown n (some path) c hhome (.inr hold)
    · -- it has fired where it was replaced, and it was nowhere else
      rcases hapart hhome hhome' with ⟨rfl, rfl⟩
      exact hgone path rfl hc
  · exact hapart (hhas n place c hc) (hhas n' place' c hc')
  · rcases hknown hc with hold | ⟨n, place, hc⟩
    · exact Nat.lt_of_lt_of_le (h.named c hold) hnamed
    · exact (hnew n place c hc).1
  · have hent := henters id t ht
    have hdistinct (c : Channel) (hc : s'.Known c) : c.stamp.region ≠ t.name := by
      rcases hknown hc with hold | ⟨n, place, hc⟩
      · exact h.region_ne hent hold
      · exact (hnew n place c hc).2 id t ht
    cases hent with
    | goesOn ht' hname hstamped =>
      have hlt := (h.authors _ _ ht').2.1
      exact ⟨hstamped, hname ▸ Nat.lt_of_lt_of_le hlt hnamed, hdistinct⟩
    | opens _ hname hlt hstamped => exact ⟨hstamped, hname ▸ hlt, hdistinct⟩
  · exact h.eq_of_name_eq (henters id t ht) (henters id' t' ht') heq

/-! ## Actions that publish nothing -/

theorem board_commitOne (ht : s.txns[id]? = some t) (hw : t.isWriting = true) :
    (s.commitOne id).board = s.board.fireAll (s.publish id).1 := by
  simp only [Engine.commitOne, ht, hw, if_true]
  rw [commitWrites_eq ht]
  rfl

/-- No action takes names back. -/
theorem Sound.named_perform (hs : s.Sound) (a : Action α) :
    s.board.named ≤ (s.perform a).board.named := by
  cases hs.performs a with
  | nothing _ _ heq | copy _ _ heq | request _ heq | write _ _ _ heq | count _ _ _ heq
  | aside _ _ _ _ heq =>
    exact Nat.le_of_eq (congrArg (·.board.named) heq).symm
  | create _ _ heq | read _ _ heq | turn _ _ _ heq | view _ _ _ _ heq =>
    rw [heq]
    exact Nat.le_succ _
  | commit hc heq =>
    refine Nat.le_of_eq ?_
    rw [heq, board_commitOne hc.txn hc.writing, Board.named_fireAll]
  | drop _ _ _ _ _ heq =>
    refine Nat.le_of_eq ?_
    rw [heq, board_drop]

/-- Whoever gets the turn to write gets a new name. -/
theorem name_acquireWrite (h : (s.perform (.acquireWrite n)).txns[s.txns.length]? = some t) :
    t.name = s.board.named ∧ s.board.named < (s.perform (.acquireWrite n)).board.named := by
  have hnone : s.txns[s.txns.length]? ≠ some t := by simp
  simp only [Engine.perform, Engine.acquireWrite] at h ⊢
  cases hst : s.stores[n]? with
  | none =>
    rw [hst] at h
    exact absurd h hnone
  | some st =>
    rw [hst] at h
    dsimp only at h ⊢
    split at h
    · exact absurd h hnone
    · rename_i hfree
      rw [if_neg hfree]
      rcases getElem?_concat_iff.1 h with hold | ⟨_, rfl⟩
      · exact absurd hold hnone
      · exact ⟨rfl, Nat.lt_succ_self _⟩

/-- After any action, an active writer goes on or is new. -/
theorem Owned.enters_perform (h : s.Owned) (hs : s.Sound) (ht' : (s.perform a).Authors id t') :
    s.Enters (s.perform a) id t' := by
  have hw := ht'.writing
  have hread (hr : t'.write = false) : s.Enters (s.perform a) id t' := by
    simp [Txn.isWriting, hr] at hw
  cases hs.txnStep ht'.txn with
  | reader _ _ _ heq => exact hread (heq ▸ rfl)
  | snapshot _ _ _ _ hviews => exact hread hviews.write
  | writer ha hid _ heq =>
    have htxn := ht'.txn
    rw [ha, hid] at htxn
    rcases name_acquireWrite htxn with ⟨hname, hlt⟩
    exact .opens hid hname (ha ▸ hlt) (Txn.stamped_of_handles (heq ▸ rfl))
  | @wrote w t st _ ht _ heq =>
    rcases (TxnM.keeps_write w ⟨t, st.stats⟩).frame with ⟨handles, changes, hframe⟩
    have hbefore : s.Authors id t := by
      have hp := ht'.primary
      rw [heq, hframe] at hw hp
      exact ⟨ht, hw, hp⟩
    refine .goesOn hbefore ?_ ?_
    · rw [heq, hframe]
    · rw [heq]
      exact TxnM.stamped_write (h.authors id t hbefore).1 w st.stats
  | @stays t changes deferred ht heq _ _ =>
    have hbefore : s.Authors id t := by
      have hp := ht'.primary
      rw [heq] at hw hp
      exact ⟨ht, hw, hp⟩
    refine .goesOn hbefore ?_ ?_
    · rw [heq]
    · rw [heq]
      exact (h.authors id t hbefore).1.aside changes deferred
  | ended _ _ hended =>
    rw [Txn.isWriting, hended] at hw
    simp at hw

/-- An action that neither makes a store nor commits at a primary one leaves all primary stores as
they are. -/
theorem Owned.of_quiet (h : s.Owned) (hs : s.Sound) (hnew : ∀ schema settings,
    a ≠ .create schema settings) (hcopy : ∀ id t, s.Commits a id t → t.primary = false) :
    (s.perform a).Owned := by
  have hfollows {id : Nat} {t : Txn α} {st : Store α} (ht : s.txns[id]? = some t)
      (hst : s.stores[t.store]? = some st) : t.primary = st.primary := by
    rcases hs.txns id t ht with ⟨st', hst', hf⟩
    obtain rfl : st = st' := Option.some.inj (hst.symm.trans hst')
    exact hf.primary
  have hstores {n : Nat} {st' : Store α} (hst' : (s.perform a).stores[n]? = some st')
      (hp : st'.primary = true) : ∃ st, s.stores[n]? = some st ∧ st.Stays st' := by
    cases hs.storeStep hst' with
    | created ha _ _ => exact absurd ha (hnew _ _)
    | copied _ _ _ heq =>
      rw [heq] at hp
      cases hp
    | stays hst hstays _ => exact ⟨_, hst, hstays⟩
    | published hst hc hstore _ hprimary _ =>
      rw [hprimary, ← hfollows hc.txn (hstore ▸ hst), hcopy _ _ hc] at hp
      cases hp
  have hsilent : s.board.Silent (s.perform a).board := by
    refine hs.silent_perform fun id t hc => ?_
    rcases hs.txns id t hc.txn with ⟨st, hst, hf⟩
    exact ⟨st, hst, hf.primary.symm.trans (hcopy id t hc)⟩
  refine h.of_news (N := fun _ _ _ => False) (fun _ _ _ => False.elim)
    (fun _ _ _ _ _ => False.elim) (fun _ _ _ => False.elim) (fun n place c hc => .inl ?_)
    (hs.named_perform a) (fun c hc => .inl ?_) (fun id t ht => h.enters_perform hs ht)
    fun n st' path tree hst' hp htree => ?_
  · rcases hc with ⟨st', hst', hp, hc⟩
    rcases hstores hst' hp with ⟨st, hst, hstays⟩
    exact ⟨st, hst, hstays.primary ▸ hp, hstays.root ▸ hc⟩
  · rwa [Board.isFired, hsilent.fired] at hc
  · rcases hstores hst' hp with ⟨st, hst, hstays⟩
    exact h.nodup n st path tree hst (hstays.primary ▸ hp) (hstays.root ▸ htree)

/-! ## New stores -/

/-- A new store has channels under a new name, each made for one place. -/
theorem Owned.create (h : s.Owned) (hs : s.Sound) (schema : Schema α) (settings : Settings) :
    (s.perform (.create schema settings)).Owned := by
  cases hcreate : Store.create schema settings s.board.newName.1 with
  | error e =>
    rw [Engine.perform, Engine.create]
    simp only [hcreate]
    exact h
  | ok st =>
    have hengine : s.perform (.create schema settings) =
        ({ s with board := s.board.newName.2 }.addStore st).2 := by
      rw [Engine.perform, Engine.create]
      simp only [hcreate]
      rfl
    have hroot : st.root = Store.emptyRoot s.board.named schema.paths := by
      unfold Store.create at hcreate
      split at hcreate
      · cases hcreate
      · exact (Except.ok.inj hcreate).symm ▸ rfl
    have hstores {n : Nat} {st' : Store α}
        (hst' : (s.perform (.create schema settings)).stores[n]? = some st') :
        s.stores[n]? = some st' ∨ n = s.stores.length ∧ st' = st := by
      rw [hengine] at hst'
      exact getElem?_concat_iff.1 hst'
    have hnew {place : Option Key} {c : Channel} (hc : c ∈ st.root.channelsAt place) :
        c.stamp.region = s.board.named ∧ ¬ s.Known c := by
      have hregion := (Store.origin_emptyRoot (hroot ▸ hc)).1
      exact ⟨hregion, fun hknown => Nat.ne_of_lt (h.named c hknown) hregion⟩
    have hlt : s.board.named < (s.perform (.create schema settings)).board.named := by
      rw [hengine]
      exact Nat.lt_succ_self _
    refine h.of_news (N := fun n place c => n = s.stores.length ∧ c ∈ st.root.channelsAt place)
      (fun n place c hc => (hnew hc.2).2) (fun n n' place place' c hc hc' => ?_)
      (fun n place c hc => ?_) (fun n place c hc => ?_) (Nat.le_of_lt hlt) (fun c hc => .inl ?_)
      (fun id t ht => h.enters_perform hs ht) fun n st' path tree hst' hp htree => ?_
    · exact ⟨hc.1.trans hc'.1.symm, Store.place_eq_emptyRoot (hroot ▸ hc.2) (hroot ▸ hc'.2)⟩
    · rw [(hnew hc.2).1]
      refine ⟨hlt, fun id t ht => ?_⟩
      have htxn := ht.txn
      rw [hengine] at htxn
      exact Nat.ne_of_gt (h.authors id t ⟨htxn, ht.writing, ht.primary⟩).2.1
    · rcases hc with ⟨st', hst', hp, hc⟩
      rcases hstores hst' with hst' | ⟨rfl, rfl⟩
      · exact .inl ⟨st', hst', hp, hc⟩
      · exact .inr ⟨rfl, hc⟩
    · rwa [hengine] at hc
    · rcases hstores hst' with hst' | ⟨_, rfl⟩
      · exact h.nodup n st' path tree hst' hp htree
      · rcases (Store.vacant_emptyRoot s.board.named schema.paths).empty path tree (hroot ▸ htree)
          with ⟨channel, rfl⟩
        simp [Tree.channels, Tree.empty, Node.channels, Node.channelsOf]

/-! ## Commits -/

/-- The drafts of an active writer are live. -/
theorem Owned.live (h : s.Owned) (hs : s.Sound) (ht : s.Authors id t) {path : Key} {d : Draft α}
    (hd : t.handles.find? path = some d) : d.Live s.board := by
  rcases hs.txns id t ht.txn with ⟨st, hst, hf⟩
  have hp : st.primary = true := hf.primary.symm.trans ht.primary
  rcases h.authors id t ht with ⟨hstamped, _, hne⟩
  rcases hstamped.drafts path d hd with ⟨tree, slot, edits, htree, _, rfl⟩
  rw [(hf.writes ht.writing).2] at htree
  have hhas (c : Channel) (hc : c ∈ tree.channels) : s.Has t.store (some path) c :=
    ⟨st, hst, hp, Root.mem_channelsAt.2 ⟨tree, htree, hc⟩⟩
  have hfresh : Stamp.Fresh ⟨t.name, slot + 1, 0⟩ tree s.board := by
    refine Stamp.fresh_of_region fun c hc => hne c ?_
    rcases List.mem_append.1 hc with hc | hc
    · exact .inl ⟨_, _, hhas c hc⟩
    · exact .inr (List.contains_iff_mem.2 hc)
  have hopen := Draft.live_edit (h.nodup _ st path tree hst hp htree)
    (fun c hc => h.unfired _ path c (hhas c hc)) hfresh
  exact (hopen.track t.primary).applyAll edits

/-- What an active writer publishes or displaces at a place was there before, or is made by it. -/
theorem Owned.origin (h : s.Owned) (hs : s.Sound) (ht : s.Authors id t) {place : Option Key}
    {c : Channel} (hc : c ∈ t.published.channelsAt place ∨ c ∈ t.displacedAt place) :
    s.Has t.store place c ∨ t.Makes place c := by
  rcases hs.txns id t ht.txn with ⟨st, hst, hf⟩
  rcases (h.authors id t ht).1.origin_published hf.sound hc with hold | hmade
  · rw [(hf.writes ht.writing).2] at hold
    exact .inl ⟨st, hst, hf.primary.symm.trans ht.primary, hold⟩
  · exact .inr hmade

/-- After a commit a store has its old root, or it is the one that has the published root. -/
theorem Sound.stores_commit (hs : s.Sound) (ht : s.Authors id t) {st' : Store α}
    (hst' : (s.perform (.commit id)).stores[n]? = some st') :
    (∃ st, s.stores[n]? = some st ∧ n ≠ t.store ∧ st.Stays st') ∨
      n = t.store ∧ st'.root = t.published := by
  have hc : s.Commits (.commit id) id t := ⟨rfl, ht.txn, ht.writing⟩
  cases hs.storeStep hst' with
  | created ha _ _ => cases ha
  | copied ha _ _ _ => cases ha
  | stays hst hstays hno => exact .inl ⟨_, hst, (hno id t hc).symm, hstays⟩
  | published _ hc' hstore _ _ heq =>
    cases hc'.action
    obtain rfl := Option.some.inj (ht.txn.symm.trans hc'.txn)
    exact .inr ⟨hstore.symm, heq⟩

/-- The writers that are active after a commit have other names. -/
theorem Owned.name_ne_commit (h : s.Owned) (hs : s.Sound) (ht : s.Authors id t) {id' : Nat}
    (ht' : (s.perform (.commit id)).Authors id' t') : t'.name ≠ t.name := by
  cases h.enters_perform hs ht' with
  | goesOn hold hname _ =>
    intro heq
    obtain rfl := h.names _ _ _ _ hold ht (hname.symm.trans heq)
    have hended := ht'.txn.symm.trans (txns_commitOne_self ht.txn ht.writing)
    have hw := ht'.writing
    rw [Option.some.inj hended] at hw
    simp [Txn.isWriting] at hw
  | opens _ hname _ _ =>
    rw [hname]
    exact Nat.ne_of_gt (h.authors id t ht).2.1

/-- What a commit displaces at a path, the published tree does not have. -/
theorem Owned.not_published (h : s.Owned) (hs : s.Sound) (ht : s.Authors id t) {path : Key}
    {c : Channel} (hc : c ∈ t.displacedAt (some path)) :
    c ∉ t.published.channelsAt (some path) := by
  rcases hs.txns id t ht.txn with ⟨_, _, hf⟩
  rw [Root.mem_channelsAt, hf.sound.get?_published, Txn.forest]
  rw [Txn.displacedAt] at hc
  cases hd : t.handles.find? path with
  | none =>
    rw [hd] at hc
    cases hc
  | some d =>
    rw [hd] at hc
    rintro ⟨_, hsame, hkept⟩
    obtain rfl := Option.some.inj hsame
    exact (h.live hs ht hd).kept c hkept hc

/-- The channels of a published tree are distinct. -/
theorem Owned.nodup_published (h : s.Owned) (hs : s.Sound) (ht : s.Authors id t) {path : Key}
    {tree : Tree α} (htree : t.published.get? path = some tree) : tree.channels.Nodup := by
  rcases hs.txns id t ht.txn with ⟨st, hst, hf⟩
  rw [hf.sound.get?_published, Txn.forest] at htree
  cases hd : t.handles.find? path with
  | none =>
    rw [hd, (hf.writes ht.writing).2] at htree
    exact h.nodup _ st path tree hst (hf.primary.symm.trans ht.primary) htree
  | some d =>
    rw [hd] at htree
    obtain rfl := Option.some.inj htree
    exact (h.live hs ht hd).nodup

/-- A commit at a primary store fires what it has replaced, and no tree has that any more. -/
theorem Owned.commit (h : s.Owned) (hs : s.Sound) (ht : s.Authors id t) :
    (s.perform (.commit id)).Owned := by
  rcases h.authors id t ht with ⟨hstamped, hname, hne⟩
  refine h.of_news (N := fun n place c => n = t.store ∧ t.Makes place c)
    (fun n place c hc hknown => hne c hknown hc.2.1) (fun n n' place place' c hc hc' => ?_)
    (fun n place c hc => ?_) (fun n place c hc => ?_) (hs.named_perform _) (fun c hc => ?_)
    (fun id' t' ht' => h.enters_perform hs ht') fun n st' path tree hst' hp' htree => ?_
  · exact ⟨hc.1.trans hc'.1.symm, hstamped.place_eq hc.2 hc'.2⟩
  · rw [hc.2.1]
    refine ⟨Nat.lt_of_lt_of_le hname (hs.named_perform _), fun id' t' ht' => ?_⟩
    exact (h.name_ne_commit hs ht ht').symm
  · rcases hc with ⟨st', hst', hp', hc⟩
    rcases hs.stores_commit ht hst' with ⟨st, hst, _, hstays⟩ | ⟨rfl, heq⟩
    · exact .inl ⟨st, hst, hstays.primary ▸ hp', hstays.root ▸ hc⟩
    · exact (h.origin hs ht (.inl (heq ▸ hc))).imp_right fun hmade => ⟨rfl, hmade⟩
  · rw [Engine.perform, board_commitOne ht.txn ht.writing, Board.isFired_fireAll, Bool.or_eq_true,
      List.contains_iff_mem, publish_eq ht.txn] at hc
    refine hc.symm.imp_right fun hc => ?_
    rcases hs.txns id t ht.txn with ⟨_, _, hf⟩
    rcases hf.sound.exists_displacedAt hc with ⟨place, hc⟩
    refine ⟨t.store, place, (h.origin hs ht (.inr hc)).imp_right fun hmade => ⟨rfl, hmade⟩, ?_⟩
    rintro path rfl ⟨st', hst', _, hkept⟩
    rcases hs.stores_commit ht hst' with ⟨_, _, hno, _⟩ | ⟨_, heq⟩
    · exact hno rfl
    · exact h.not_published hs ht hc (heq ▸ hkept)
  · rcases hs.stores_commit ht hst' with ⟨st, hst, _, hstays⟩ | ⟨_, heq⟩
    · exact h.nodup n st path tree hst (hstays.primary ▸ hp') (hstays.root ▸ htree)
    · exact h.nodup_published hs ht (heq ▸ htree)

/-! ## All actions -/

/-- Every action keeps to it. -/
theorem Owned.perform (h : s.Owned) (hs : s.Sound) (a : Action α) : (s.perform a).Owned := by
  cases a with
  | create schema settings => exact h.create hs schema settings
  | commit id =>
    by_cases hauthors : ∃ t, s.Authors id t
    · rcases hauthors with ⟨t, ht⟩
      exact h.commit hs ht
    · refine h.of_quiet hs (by simp) fun id' t hc => ?_
      cases hc.action
      rw [← Bool.not_eq_true]
      exact fun hp => hauthors ⟨t, hc.txn, hc.writing, hp⟩
  | snapshotStore _ | openRead _ | requestWrite _ | acquireWrite _ | snapshotTxn _ | write _ _
  | query _ _ _ _ _ | trackChanges _ | defer _ _ | abort _ | drop _ =>
    exact h.of_quiet hs (by simp) fun id t hc => absurd hc (not_commits rfl id t)

/-- What holds of every run: no channel of a current tree of a primary store has fired. -/
theorem owned_performAll (actions : List (Action α)) :
    (performAll {} actions : Engine α).Owned := by
  suffices h : ∀ s : Engine α, s.Sound → s.Owned → (s.performAll actions).Owned from
    h {} .empty .empty
  intro s hs h
  induction actions generalizing s with
  | nil => exact h
  | cons a actions ih => exact ih (s.perform a) (hs.perform a) (h.perform hs a)

end Engine

end SnapStore
