import SnapStore.Proofs.Radix.Replaced
import SnapStore.Proofs.Transaction.Evolves

/-! # Drafts with stamps of their own

The channels that a transaction makes carry its name, and those of each of its drafts the slot of
this draft, which no other one has. So it can be told from a channel alone who made it, and what
a draft displaces comes from the tree that it was opened on or was made by itself.

Main statements: `Draft.origin_applyAll` (where the channels of a draft come from),
`Made.relates` (what all steps of a write relate, the write relates) and `stamped_write`.
-/

namespace SnapStore

universe u

variable {V : Type u} {α β : Type}

/-! ## The channels of a draft -/

namespace Draft

/-- The channel carries the region and the slot of the draft. -/
def Marks (d : Draft V) (c : Channel) : Prop :=
  c.stamp.region = d.stamp.region ∧ c.stamp.slot = d.stamp.slot

variable {d : Draft V} {c : Channel}

theorem marks_apply (d : Draft V) (e : Edit V) : (d.apply e).Marks c ↔ d.Marks c := by
  rcases apply_cases d e with hsame | ⟨_, _, _, hstamp⟩
  · rw [hsame]
  · rw [Marks, Marks, hstamp]
    rfl

theorem marks_applyAll (d : Draft V) (edits : List (Edit V)) :
    (d.applyAll edits).Marks c ↔ d.Marks c := by
  induction edits generalizing d with
  | nil => exact .rfl
  | cons e edits ih => exact (ih (d.apply e)).trans (marks_apply d e)

/-- The slot of a draft stays. -/
theorem slot_applyAll (d : Draft V) (edits : List (Edit V)) :
    (d.applyAll edits).stamp.slot = d.stamp.slot := by
  have h := (marks_applyAll (c := ⟨d.stamp, 0, .node⟩) d edits).2 ⟨rfl, rfl⟩
  exact h.2.symm

/-- The draft has the channel in its tree, or has displaced it. -/
def Holds (d : Draft V) (c : Channel) : Prop :=
  c ∈ d.tree.channels ∨ c ∈ d.displaced

theorem origin_apply (d : Draft V) (e : Edit V) (h : (d.apply e).Holds c) :
    d.Holds c ∨ d.Marks c := by
  rcases apply_cases d e with hsame | ⟨_, ⟨gone, made, hex, rfl⟩, hdisplaced, _⟩
  · rw [hsame] at h
    exact .inl h
  have hpast {x : Owner V} (hx : x ∈ d.tree.root.owners ∨ x ∈ made) :
      d.Holds x.channel ∨ d.Marks x.channel := by
    rcases hx with hx | hx
    · exact .inl (.inl (d.tree.channel_mem hx))
    · have hstamp := hex.fits x hx
      exact .inr ⟨by rw [hstamp], by rw [hstamp]⟩
  rcases h with h | h
  · rw [Tree.channels, ← Node.map_channel_owners] at h
    rcases List.mem_map.1 h with ⟨x, hx, rfl⟩
    exact hpast (hex.mem_new hx)
  · rw [hdisplaced] at h
    split at h
    · rcases List.mem_append.1 h with h | h
      · exact .inl (.inr h)
      · rcases List.mem_map.1 h with ⟨x, hx, rfl⟩
        exact hpast (hex.mem_gone hx)
    · exact .inl (.inr h)

/-- Whatever a draft has or has displaced was there before, or the draft has made it. -/
theorem origin_applyAll (d : Draft V) (edits : List (Edit V)) (h : (d.applyAll edits).Holds c) :
    d.Holds c ∨ d.Marks c := by
  induction edits generalizing d with
  | nil => exact .inl h
  | cons e edits ih =>
    rcases ih (d.apply e) h with hold | hmade
    · exact origin_apply d e hold
    · exact .inr ((marks_apply d e).1 hmade)

/-- Of a draft that was opened on a tree, the channels come from the tree or were made by it. -/
theorem origin_edit {tree : Tree V} {stamp : Stamp} {tracking : Bool} {edits : List (Edit V)}
    (h : (((tree.edit stamp).track tracking).applyAll edits).Holds c) :
    c ∈ tree.channels ∨ (c.stamp.region = stamp.region ∧ c.stamp.slot = stamp.slot) := by
  rcases origin_applyAll _ edits h with (htree | hdisplaced) | hmade
  · exact .inl htree
  · cases tracking <;> cases hdisplaced
  · exact .inr hmade

theorem Live.applyAll {b : Board} (h : d.Live b) (edits : List (Edit V)) :
    (d.applyAll edits).Live b := by
  induction edits generalizing d with
  | nil => exact h
  | cons e edits ih => exact ih (h.apply e)

end Draft

/-! ## What all steps of a write relate -/

namespace TxnM

/-- A relation that is kept by edits, as writes make them, and by notes in the change log is kept by
whatever is made of the steps of writes. -/
theorem Made.relates {R : Txn α → Txn α → Prop} {S : Schema α} {table : String}
    (hrefl : ∀ t, R t t) (htrans : ∀ t t' t'', R t t' → R t' t'' → R t t'')
    (hedit : ∀ t index edits,
      (∀ key object, .insert key object ∈ edits → S.Files table index object key) →
        R t (t.withEdits (indexPath table index) edits))
    (hlog : ∀ (t : Txn α) changes, R t { t with changes := changes }) {op : TxnM α β}
    {Q : β → Prop} (h : Made S table op Q) (s : Session α) (hs : s.txn.schema = S) :
    R s.txn (op.leaves s).txn := by
  induction h generalizing s with
  | pure _ => exact hrefl s.txn
  | throw e => exact hrefl s.txn
  | read _ _ ih => exact ih s.txn hs s hs
  | count f => exact hrefl s.txn
  | log noted key before after => exact hlog s.txn _
  | edit hindex hf =>
    rw [leaves]
    rcases run_editIndex_cases s hf with hrun | ⟨b, edits, hfiles, hrun⟩
    · rw [hrun]
      exact hrefl s.txn
    · rw [hrun]
      exact hedit s.txn _ edits hfiles
  | @bind β γ x f Q R' hx _ ihx ihf =>
    have hfirst := ihx s hs
    rcases hx.evolves s hs with ⟨hev, hQ⟩
    rw [leaves_bind]
    rw [leaves] at hfirst hev
    cases hrun : x.run s with
    | error e s' =>
      rw [hrun] at hfirst
      exact hfirst
    | ok b s' =>
      rw [hrun] at hfirst hev
      exact htrans _ _ _ hfirst (ihf b (hQ b s' hrun) s' (hev.schema_eq.trans hs))

/-- A relation that is kept by edits and by notes is kept by every write. -/
theorem relates_write {R : Txn α → Txn α → Prop} (w : Write α) (s : Session α)
    (hrefl : ∀ t, R t t) (htrans : ∀ t t' t'', R t t' → R t' t'' → R t t'')
    (hedit : ∀ t index edits,
      (∀ key object, .insert key object ∈ edits →
        s.txn.schema.Files w.table index object key) →
      R t (t.withEdits (indexPath w.table index) edits))
    (hlog : ∀ (t : Txn α) changes, R t { t with changes := changes }) :
    R s.txn ((write w).leaves s).txn :=
  (made_write s.txn.schema w).relates hrefl htrans hedit hlog s rfl

end TxnM

/-! ## Stamps -/

namespace Txn

/-- Each draft of the transaction comes by edits from the tree at its path and has a slot of its
own, and the first slot is left to the root. -/
structure Stamped (t : Txn α) : Prop where
  drafts : ∀ path d, t.handles.find? path = some d → ∃ tree slot edits,
    t.root.get? path = some tree ∧ slot < t.handles.length ∧
      d = ((tree.edit ⟨t.name, slot + 1, 0⟩).track t.primary).applyAll edits
  slots : ∀ path path' d d', t.handles.find? path = some d → t.handles.find? path' = some d' →
    d.stamp.slot = d'.stamp.slot → path = path'

theorem stamped_of_handles {t : Txn α} (h : t.handles = []) : t.Stamped := by
  refine ⟨fun path d hd => ?_, fun path path' d d' hd => ?_⟩
  · rw [h] at hd
    cases hd
  · rw [h] at hd
    cases hd

/-- A transaction with other drafts aside is stamped as before. -/
theorem Stamped.aside {t : Txn α} (h : t.Stamped) (changes : Option (ChangeLog α))
    (deferred : List (Job α)) :
    Stamped { t with changes := changes, deferred := deferred } :=
  ⟨h.drafts, h.slots⟩

/-- The draft that a stamped transaction would edit at a path has a slot of its own, if it is put
in place. -/
theorem Stamped.draftAt {t : Txn α} (h : t.Stamped) {path : Key} {draft : Draft α}
    (hd : t.draftAt path = some draft) :
    (∃ tree slot edits, t.root.get? path = some tree ∧
      (∀ d : Draft α, slot < (Catalog.insert path d t.handles).length) ∧
      draft = ((tree.edit ⟨t.name, slot + 1, 0⟩).track t.primary).applyAll edits) ∧
    ∀ path' d, t.handles.find? path' = some d → draft.stamp.slot = d.stamp.slot →
      path = path' := by
  unfold Txn.draftAt at hd
  cases hold : t.handles.find? path with
  | some old =>
    rw [hold] at hd
    obtain rfl := Option.some.inj hd
    rcases h.drafts path old hold with ⟨tree, slot, edits, htree, hslot, heq⟩
    refine ⟨⟨tree, slot, edits, htree, fun d => ?_, heq⟩, fun path' d hd' => ?_⟩
    · exact Nat.lt_of_lt_of_le hslot (Catalog.length_le_insert t.handles path d)
    · exact h.slots path path' old d hold hd'
  | none =>
    rw [hold, Option.map_eq_some_iff] at hd
    rcases hd with ⟨tree, htree, rfl⟩
    refine ⟨⟨tree, t.handles.length, [], htree, fun d => ?_, rfl⟩, fun path' d hd' heq => ?_⟩
    · rw [Catalog.length_insert_of_none hold]
      exact Nat.lt_succ_self _
    · -- the slot is greater than all that were given out
      rcases h.drafts path' d hd' with ⟨_, slot, edits, _, hslot, rfl⟩
      rw [Draft.slot_applyAll] at heq
      exact absurd (Nat.succ.inj heq) (Nat.ne_of_gt hslot)

theorem Stamped.withEdits {t : Txn α} (h : t.Stamped) (path : Key) (edits : List (Edit α)) :
    (t.withEdits path edits).Stamped := by
  unfold Txn.withEdits
  cases hd : t.draftAt path with
  | none => exact h
  | some draft =>
    rcases h.draftAt hd with ⟨⟨tree, slot, edits', htree, hslot, rfl⟩, hown⟩
    generalize hdraft : ((tree.edit ⟨t.name, slot + 1, 0⟩).track t.primary).applyAll edits' = draft
      at hown
    have hfind {path' : Key} {d : Draft α}
        (hf : Catalog.find? (Catalog.insert path (draft.applyAll edits) t.handles) path' = some d) :
        path = path' ∧ d = draft.applyAll edits ∨ t.handles.find? path' = some d := by
      rw [Catalog.find?_insert] at hf
      split at hf
      · exact .inl ⟨‹_›, (Option.some.inj hf).symm⟩
      · exact .inr hf
    refine ⟨fun path' d hf => ?_, fun path₁ path₂ d₁ d₂ hf₁ hf₂ hsame => ?_⟩
    · rcases hfind hf with ⟨rfl, rfl⟩ | hold
      · refine ⟨tree, slot, edits' ++ edits, htree, hslot _, ?_⟩
        rw [← hdraft, Draft.applyAll, Draft.applyAll, Draft.applyAll, List.foldl_append]
      · rcases h.drafts path' d hold with ⟨tree', slot', edits₁, htree', hslot', heq⟩
        have hle := Catalog.length_le_insert t.handles path (draft.applyAll edits)
        exact ⟨tree', slot', edits₁, htree', Nat.lt_of_lt_of_le hslot' hle, heq⟩
    · rcases hfind hf₁ with ⟨rfl, rfl⟩ | hold₁
      · rcases hfind hf₂ with ⟨rfl, rfl⟩ | hold₂
        · rfl
        · rw [Draft.slot_applyAll] at hsame
          exact hown path₂ d₂ hold₂ hsame
      · rcases hfind hf₂ with ⟨rfl, rfl⟩ | hold₂
        · rw [Draft.slot_applyAll] at hsame
          exact (hown path₁ d₁ hold₁ hsame.symm).symm
        · exact h.slots path₁ path₂ d₁ d₂ hold₁ hold₂ hsame

end Txn

theorem TxnM.stamped_write {t : Txn α} (h : t.Stamped) (w : Write α) (stats : Stats) :
    ((TxnM.write w).leaves ⟨t, stats⟩).txn.Stamped :=
  TxnM.relates_write (R := fun t t' => t.Stamped → t'.Stamped) w ⟨t, stats⟩ (fun _ => id)
    (fun _ _ _ h h' ht => h' (h ht)) (fun _ _ edits _ h => h.withEdits _ edits)
    (fun t changes h => h.aside changes t.deferred) h

/-! ## Places

The channels of a store are those of its root tree and those of the trees in it. -/

/-- The channels in the root tree, or in the tree at a path. -/
def Root.channelsAt (root : Root α) : Option Key → List Channel
  | none => root.channels
  | some path => (root.get? path).elim [] Tree.channels

theorem Root.mem_channelsAt {root : Root α} {path : Key} {c : Channel} :
    c ∈ root.channelsAt (some path) ↔ ∃ tree, root.get? path = some tree ∧ c ∈ tree.channels := by
  rw [channelsAt]
  cases root.get? path <;> simp

namespace Txn

variable {t : Txn α} {place place' : Option Key} {c : Channel}

/-- What the draft at a place has displaced. The draft of the root is made for the commit. -/
def displacedAt (t : Txn α) : Option Key → List Channel
  | none => (t.rootDraft ⟨t.name, 0, 0⟩ t.primary).displaced
  | some path => (t.handles.find? path).elim [] Draft.displaced

/-- The slot of the draft at a place. -/
def slot? (t : Txn α) : Option Key → Option Nat
  | none => some 0
  | some path => (t.handles.find? path).map (·.stamp.slot)

/-- The channel is one that the transaction makes at the place. -/
def Makes (t : Txn α) (place : Option Key) (c : Channel) : Prop :=
  c.stamp.region = t.name ∧ t.slot? place = some c.stamp.slot

/-- No channel is made at two places. -/
theorem Stamped.place_eq (h : t.Stamped) (hc : t.Makes place c) (hc' : t.Makes place' c) :
    place = place' := by
  have hpath {path : Key} {d : Draft α} (hd : t.handles.find? path = some d) :
      d.stamp.slot ≠ 0 := by
    rcases h.drafts path d hd with ⟨_, _, _, _, _, rfl⟩
    rw [Draft.slot_applyAll]
    exact Nat.succ_ne_zero _
  cases place with
  | none =>
    have hzero : 0 = c.stamp.slot := Option.some.inj hc.2
    cases place' with
    | none => rfl
    | some path' =>
      rcases Option.map_eq_some_iff.1 hc'.2 with ⟨d', hd', hslot'⟩
      exact absurd (hslot'.trans hzero.symm) (hpath hd')
  | some path =>
    rcases Option.map_eq_some_iff.1 hc.2 with ⟨d, hd, hslot⟩
    cases place' with
    | none =>
      have hzero : 0 = c.stamp.slot := Option.some.inj hc'.2
      exact absurd (hslot.trans hzero.symm) (hpath hd)
    | some path' =>
      rcases Option.map_eq_some_iff.1 hc'.2 with ⟨d', hd', hslot'⟩
      exact congrArg some (h.slots path path' d d' hd hd' (hslot.trans hslot'.symm))

/-- What a draft of the transaction has or has displaced was there before, or the transaction has
made it. -/
theorem Stamped.origin (h : t.Stamped) {path : Key} {d : Draft α}
    (hd : t.handles.find? path = some d) (hc : d.Holds c) :
    c ∈ t.root.channelsAt (some path) ∨ t.Makes (some path) c := by
  rcases h.drafts path d hd with ⟨tree, slot, edits, htree, _, heq⟩
  rw [heq] at hc
  rcases Draft.origin_edit hc with hold | ⟨hregion, hslot⟩
  · exact .inl (Root.mem_channelsAt.2 ⟨tree, htree, hold⟩)
  · refine .inr ⟨hregion, ?_⟩
    rw [slot?, hd, heq, Option.map_some, Draft.slot_applyAll, hslot]
    rfl

/-- What is published at a place, or displaced there, was there before, or the transaction has
made it. -/
theorem Stamped.origin_published (h : t.Stamped) (hs : t.Sound)
    (hc : c ∈ t.published.channelsAt place ∨ c ∈ t.displacedAt place) :
    c ∈ t.root.channelsAt place ∨ t.Makes place c := by
  cases place with
  | none =>
    have hholds : (t.rootDraft ⟨t.name, 0, 0⟩ t.primary).Holds c := hc
    rw [rootDraft_eq] at hholds
    rcases Draft.origin_edit hholds with hold | ⟨hregion, hslot⟩
    · exact .inl hold
    · exact .inr ⟨hregion, congrArg some hslot.symm⟩
  | some path =>
    rw [Root.mem_channelsAt, hs.get?_published, forest, displacedAt] at hc
    cases hd : t.handles.find? path with
    | none =>
      rw [hd] at hc
      exact .inl (Root.mem_channelsAt.2 (hc.resolve_right List.not_mem_nil))
    | some d =>
      rw [hd] at hc
      refine h.origin hd (hc.imp ?_ id)
      rintro ⟨_, heq, htree⟩
      rwa [← Option.some.inj heq] at htree

/-- Whatever a commit fires was displaced at some place. -/
theorem Sound.exists_displacedAt (h : t.Sound)
    (hc : c ∈ t.handles.flatMap (fun x => x.2.displaced) ++
      (t.rootDraft ⟨t.name, 0, 0⟩ t.primary).displaced) : ∃ place, c ∈ t.displacedAt place := by
  rcases List.mem_append.1 hc with hdraft | hroot
  · rcases List.mem_flatMap.1 hdraft with ⟨⟨path, d⟩, hmem, hc⟩
    have hd := (Catalog.find?_eq_some_iff h.ascends.nodup).2 hmem
    exact ⟨some path, by rw [displacedAt, hd]; exact hc⟩
  · exact ⟨none, hroot⟩

end Txn

end SnapStore
