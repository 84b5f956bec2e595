import SnapStore.Proofs.Transaction.Made

/-! # What no operation changes

Whatever an operation of a transaction does and whether it succeeds: it leaves the root the
transaction captured, its schema and its stage alone, and its drafts come by edits from the
captured trees. A write to a table leaves the indexes of all others alone, unless they have a
path in common.

Main statements: `keeps_write`, every write keeps a transaction sound, and `forest_write`.
-/

namespace SnapStore

variable {α β γ : Type}

/-- `t'` is `t` after operations: its drafts and its change log may differ, and it is sound
if `t` was. -/
structure Txn.Evolves (t t' : Txn α) : Prop where
  frame : ∃ handles changes, t' = { t with handles := handles, changes := changes }
  sound : t.Sound → t'.Sound

namespace Txn.Evolves

variable {t t' t'' : Txn α}

theorem refl (t : Txn α) : t.Evolves t :=
  ⟨⟨t.handles, t.changes, rfl⟩, id⟩

theorem trans (h : t.Evolves t') (h' : t'.Evolves t'') : t.Evolves t'' := by
  rcases h with ⟨⟨handles, changes, rfl⟩, hs⟩
  rcases h' with ⟨⟨handles', changes', rfl⟩, hs'⟩
  exact ⟨⟨handles', changes', rfl⟩, fun ht => hs' (hs ht)⟩

theorem withEdits (t : Txn α) (path : Key) (edits : List (Edit α)) :
    t.Evolves (t.withEdits path edits) := by
  rcases t.exists_handles_withEdits path edits with ⟨handles, h⟩
  exact ⟨⟨handles, t.changes, h⟩, fun hs => hs.withEdits path edits⟩

theorem schema_eq (h : t.Evolves t') : t'.schema = t.schema := by
  rcases h with ⟨⟨handles, changes, rfl⟩, _⟩
  rfl

end Txn.Evolves

/-! ## Operations -/

/-- The session that an operation leaves, successful or not. -/
def TxnM.leaves (op : TxnM α β) (s : Session α) : Session α :=
  match op.run s with
  | .ok _ s => s
  | .error _ s => s

/-- From whatever session it starts, the operation only lets the transaction evolve. -/
def TxnM.Keeps (op : TxnM α β) : Prop :=
  ∀ s : Session α, s.txn.Evolves (op.leaves s).txn

namespace TxnM

theorem leaves_bind (x : TxnM α β) (f : β → TxnM α γ) (s : Session α) :
    (x >>= f).leaves s =
      match x.run s with
      | .ok b s' => (f b).leaves s'
      | .error _ s' => s' := by
  simp only [leaves, run_bind]
  cases x.run s <;> rfl

theorem keeps_pure (b : β) : (pure b : TxnM α β).Keeps := fun s => .refl s.txn

/-- One operation after another: what both keep is kept. -/
theorem Keeps.bind {x : TxnM α β} {f : β → TxnM α γ} (hx : x.Keeps) (hf : ∀ b, (f b).Keeps) :
    (x >>= f).Keeps := by
  intro s
  have hs := hx s
  rw [leaves_bind]
  rw [leaves] at hs
  cases hrun : x.run s with
  | ok b s' =>
    rw [hrun] at hs
    exact hs.trans (hf b s')
  | error e s' =>
    rw [hrun] at hs
    exact hs

/-- An edit of an index opens its draft or fails. -/
theorem run_editIndex_cases {table index : String} {f : Draft α → Draft α × β} (s : Session α)
    {P : List (Edit α) → Prop} (hf : ∀ d, ∃ edits, (f d).1 = d.applyAll edits ∧ P edits) :
    (editIndex table index f).run s = .error (.indexNotFound table index) s ∨
      ∃ b edits, P edits ∧ (editIndex table index f).run s =
        .ok b { s with txn := s.txn.withEdits (indexPath table index) edits } := by
  cases hd : s.txn.draftAt (indexPath table index) with
  | none =>
    left
    simp only [editIndex, run_bind, run_txn, Txn.writable_eq, hd]
    rfl
  | some draft =>
    rcases hf draft with ⟨edits, he, hP⟩
    exact .inr ⟨_, edits, hP, run_editIndex hd he⟩

/-- Whatever is made of the steps of writes lets a transaction evolve, and answers as it is
said to. -/
theorem Made.evolves {S : Schema α} {table : String} {op : TxnM α β} {Q : β → Prop}
    (h : Made S table op Q) (s : Session α) (hs : s.txn.schema = S) :
    s.txn.Evolves (op.leaves s).txn ∧ ∀ b s', op.run s = .ok b s' → Q b := by
  induction h generalizing s with
  | pure hb =>
    refine ⟨.refl s.txn, fun b s' hrun => ?_⟩
    cases hrun
    exact hb
  | throw e => exact ⟨.refl s.txn, fun b s' hrun => nomatch hrun⟩
  | read _ _ ih => exact ih s.txn hs s hs
  | count f => exact ⟨.refl s.txn, fun _ _ _ => trivial⟩
  | log noted key before after =>
    refine ⟨⟨⟨s.txn.handles, _, rfl⟩, fun h => ?_⟩, fun _ _ _ => trivial⟩
    exact ⟨h.root, h.trees, h.ascends, h.drafts⟩
  | edit _ hf =>
    refine ⟨?_, fun _ _ _ => trivial⟩
    rw [leaves]
    rcases run_editIndex_cases s hf with hrun | ⟨b, edits, _, hrun⟩
    · rw [hrun]
      exact .refl s.txn
    · rw [hrun]
      exact .withEdits s.txn _ edits
  | @bind β γ x f Q R _ _ ihx ihf =>
    rcases ihx s hs with ⟨hfirst, hQ⟩
    rw [leaves_bind, run_bind]
    rw [leaves] at hfirst
    cases hrun : x.run s with
    | error e s' =>
      rw [hrun] at hfirst
      exact ⟨hfirst, fun b s' hrun => nomatch hrun⟩
    | ok b s' =>
      -- the second operation starts from what the first one left and answered
      rw [hrun] at hfirst
      rcases ihf b (hQ b s' hrun) s' (hfirst.schema_eq.trans hs) with ⟨hsecond, hR⟩
      exact ⟨hfirst.trans hsecond, hR⟩

/-- What is made of the steps of writes to a table leaves the trees at all other paths alone. -/
theorem Made.forest_eq {S : Schema α} {table : String} {op : TxnM α β} {Q : β → Prop}
    (h : Made S table op Q) (s : Session α) (hs : s.txn.schema = S) {path : Key}
    (hpath : path ∉ S.pathsOf table) : (op.leaves s).txn.forest path = s.txn.forest path := by
  induction h generalizing s with
  | pure _ => rfl
  | throw e => rfl
  | read _ _ ih => exact ih s.txn hs s hs
  | count f => rfl
  | log noted key before after => rfl
  | edit hindex hf =>
    rw [leaves]
    rcases run_editIndex_cases s hf with hrun | ⟨b, edits, _, hrun⟩
    · rw [hrun]
    · rw [hrun]
      refine Txn.forest_withEdits_of_ne s.txn edits ?_
      rintro rfl
      exact hpath hindex
  | @bind β γ x f Q R hx _ ihx ihf =>
    have hfirst := ihx s hs
    rcases hx.evolves s hs with ⟨hev, hQ⟩
    rw [leaves_bind]
    rw [leaves] at hfirst hev
    cases hrun : x.run s with
    | error e s' =>
      rw [hrun] at hfirst
      exact hfirst
    | ok b s' =>
      rw [hrun] at hfirst hev
      exact (ihf b (hQ b s' hrun) s' (hev.schema_eq.trans hs)).trans hfirst

theorem Made.forest_eq_of_run {t t' : Txn α} {table : String} {op : TxnM α β} {Q : β → Prop}
    (h : Made t.schema table op Q) {stats stats' : Stats} {b : β}
    (hrun : op.run ⟨t, stats⟩ = .ok b ⟨t', stats'⟩) (path : Key)
    (hpath : path ∉ t.schema.pathsOf table) : t'.forest path = t.forest path := by
  have hleaves := h.forest_eq ⟨t, stats⟩ rfl hpath
  rwa [leaves, hrun] at hleaves

/-- A write to a table leaves the trees at all other paths alone, whether it succeeds or
fails. -/
theorem forest_write (w : Write α) (s : Session α) {path : Key}
    (hpath : path ∉ s.txn.schema.pathsOf w.table) :
    ((write w).leaves s).txn.forest path = s.txn.forest path :=
  (made_write s.txn.schema w).forest_eq s rfl hpath

/-- Every write keeps a transaction sound, whether it succeeds or fails. -/
theorem keeps_write (w : Write α) : (write w).Keeps := fun s =>
  ((made_write s.txn.schema w).evolves s rfl).1

end TxnM

end SnapStore
