import SnapStore.Proofs.Transaction.Evolves

/-! # What writes do not look at

What a write does to the indexes does not depend on the counters, on the change log and on the
deferred jobs, and not on where the store of the transaction stands. So writes can be made over
again in another transaction over the same root, with the same outcome.

Main statements: `agree_write` and `Alike.does`.
-/

namespace SnapStore

variable {α β γ : Type}

namespace Txn.Alike

variable {t t' t'' : Txn α}

theorem symm (h : t.Alike t') : t'.Alike t := by
  rcases h with ⟨_, _, _, rfl⟩
  exact ⟨t.store, t.changes, t.deferred, rfl⟩

theorem trans (h : t.Alike t') (h' : t'.Alike t'') : t.Alike t'' := by
  rcases h with ⟨_, _, _, rfl⟩
  rcases h' with ⟨store, changes, deferred, rfl⟩
  exact ⟨store, changes, deferred, rfl⟩

theorem forest_eq (h : t.Alike t') : t'.forest = t.forest := by
  rcases h with ⟨_, _, _, rfl⟩
  rfl

theorem published_eq (h : t.Alike t') : t'.published = t.published := by
  rcases h with ⟨_, _, _, rfl⟩
  rfl

end Txn.Alike

namespace TxnM

/-- Two outcomes are the same up to what no write looks at. -/
inductive Agree : EStateM.Result Error (Session α) β → EStateM.Result Error (Session α) β → Prop
  | ok {b : β} {s s' : Session α} (h : s.txn.Alike s'.txn) : Agree (.ok b s) (.ok b s')
  | error {e : Error} {s s' : Session α} (h : s.txn.Alike s'.txn) : Agree (.error e s) (.error e s')

variable {s s' : Session α}

/-- What is left in the end looks alike. -/
theorem Agree.leaves {op : TxnM α β} (h : Agree (op.run s) (op.run s')) :
    (op.leaves s).txn.Alike (op.leaves s').txn := by
  rw [TxnM.leaves, TxnM.leaves]
  generalize op.run s = r at h ⊢
  generalize op.run s' = r' at h ⊢
  cases h with
  | ok h => exact h
  | error h => exact h

/-- Two outcomes stay the same if what follows them has the same outcome. -/
theorem Agree.bind {x : TxnM α β} {f : β → TxnM α γ} (h : Agree (x.run s) (x.run s'))
    (hf : ∀ b (s₁ s₁' : Session α), x.run s = .ok b s₁ → s₁.txn.Alike s₁'.txn →
      Agree ((f b).run s₁) ((f b).run s₁')) : Agree ((x >>= f).run s) ((x >>= f).run s') := by
  rw [run_bind, run_bind]
  generalize x.run s = r at h hf ⊢
  generalize x.run s' = r' at h ⊢
  cases h with
  | ok h => exact hf _ _ _ rfl h
  | error h => exact .error h

theorem run_editIndex_eq (table index : String) (f : Draft α → Draft α × β) (s : Session α) :
    (editIndex table index f).run s =
      match s.txn.writable table index with
      | .ok d => .ok (f d).2 { s with txn := { s.txn with
          handles := Catalog.insert (indexPath table index) (f d).1 s.txn.handles } }
      | .error e => .error e s := by
  simp only [editIndex, run_bind, run_txn]
  cases s.txn.writable table index <;> rfl

/-- What is made of the steps of writes has the same outcome in transactions that look alike. -/
theorem Made.agree {S : Schema α} {table : String} {op : TxnM α β} {Q : β → Prop}
    (h : Made S table op Q) (s s' : Session α) (hs : s.txn.schema = S)
    (halike : s.txn.Alike s'.txn) : Agree (op.run s) (op.run s') := by
  induction h generalizing s s' with
  | pure _ => exact .ok halike
  | throw e => exact .error halike
  | @read β K Q hblind _ ih =>
    have hrun : (txn >>= K).run s' = (K s.txn).run s' := by
      rw [run_bind, run_txn]
      dsimp only
      rw [hblind s.txn s'.txn halike]
    rw [hrun]
    exact ih s.txn hs s s' hs halike
  | count f => exact .ok halike
  | log noted key before after =>
    rcases s' with ⟨t', stats⟩
    rcases halike with ⟨store, changes, deferred, rfl⟩
    exact .ok ⟨store, _, deferred, rfl⟩
  | @edit β index f _ _ =>
    rcases s' with ⟨t', stats⟩
    rcases halike with ⟨store, changes, deferred, rfl⟩
    rw [run_editIndex_eq, run_editIndex_eq]
    have hsame : Txn.writable { s.txn with
        store := store, changes := changes, deferred := deferred } table index =
          s.txn.writable table index := rfl
    rw [hsame]
    cases s.txn.writable table index with
    | ok d => exact .ok ⟨store, changes, deferred, rfl⟩
    | error e => exact .error ⟨store, changes, deferred, rfl⟩
  | @bind β γ x f Q R hx _ ihx ihf =>
    rcases hx.evolves s hs with ⟨hev, hQ⟩
    refine (ihx s s' hs halike).bind fun b s₁ s₁' hrun h => ?_
    rw [TxnM.leaves, hrun] at hev
    exact ihf b (hQ b s₁ hrun) s₁ s₁' (hev.schema_eq.trans hs) h

/-- A write has the same outcome in transactions that look alike. -/
theorem agree_write (w : Write α) (h : s.txn.Alike s'.txn) :
    Agree ((write w).run s) ((write w).run s') :=
  (made_write s.txn.schema w).agree s s' rfl h

end TxnM

/-! ## Writes made over again -/

namespace Txn

/-- The transaction after writes, of which some may fail. -/
def does (t : Txn α) (ws : List (Write α)) : Txn α :=
  ws.foldl (fun t w => ((TxnM.write w).leaves ⟨t, {}⟩).txn) t

theorem does_concat (t : Txn α) (ws : List (Write α)) (w : Write α) :
    t.does (ws ++ [w]) = ((TxnM.write w).leaves ⟨t.does ws, {}⟩).txn := by
  rw [does, List.foldl_append]
  rfl

variable {t t' : Txn α}

/-- A write leaves transactions that look alike in transactions that look alike. -/
theorem Alike.write (h : t.Alike t') (w : Write α) (stats stats' : Stats) :
    ((TxnM.write w).leaves ⟨t, stats⟩).txn.Alike ((TxnM.write w).leaves ⟨t', stats'⟩).txn :=
  (TxnM.agree_write w h).leaves

/-- Writes made over again have the same outcome. -/
theorem Alike.does (h : t.Alike t') (ws : List (Write α)) : (t.does ws).Alike (t'.does ws) := by
  induction ws generalizing t t' with
  | nil => exact h
  | cons w ws ih => exact ih (h.write w {} {})

end Txn

end SnapStore
