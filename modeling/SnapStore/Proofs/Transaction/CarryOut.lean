import SnapStore.Proofs.Transaction.Plans

/-! # Carrying plans out

Operations of a transaction are opened step by step by the `run_` lemmas. Plans are carried
out by edits of one index after another, and change each index as its own plan says.

Main statements: `run_applyPlans` (carrying plans out never fails) and `value?_carryOut`
(what each index holds afterwards).
-/

namespace SnapStore

variable {α β γ : Type}

/-! ## Running operations -/

namespace TxnM

variable {s : Session α}

@[simp] theorem run_pure (b : β) : (pure b : TxnM α β).run s = .ok b s := rfl

@[simp] theorem run_bind (x : TxnM α β) (f : β → TxnM α γ) :
    (x >>= f).run s =
      match x.run s with
      | .ok b s => (f b).run s
      | .error e s => .error e s := by
  simp only [EStateM.run, bind, EStateM.bind]
  cases x s <;> rfl

@[simp] theorem run_lift_ok (b : β) : (lift (.ok b) : TxnM α β).run s = .ok b s := rfl

@[simp] theorem run_txn : (txn : TxnM α (Txn α)).run s = .ok s.txn s := rfl

@[simp] theorem run_count (f : Stats → Stats) :
    (count f : TxnM α Unit).run s = .ok () { s with stats := f s.stats } := rfl

@[simp] theorem run_log (table : String) (key : Key) (before after : Option α) :
    (log table key before after).run s = .ok ()
      { s with txn := { s.txn with
          changes := s.txn.changes.map (·.record table key before after) } } := rfl

@[simp] theorem run_ensureWrite : (ensureWrite : TxnM α Unit).run s =
    match s.txn.ensureWrite with
    | .ok () => .ok () s
    | .error e => .error e s := by
  simp only [ensureWrite, run_bind, run_txn]
  cases s.txn.ensureWrite <;> rfl

@[simp] theorem run_table (name : String) : (table name : TxnM α (TableSchema α)).run s =
    match s.txn.schema.table? name with
    | some t => .ok t s
    | none => .error (.tableNotFound name) s := by
  simp only [table, run_bind, run_txn]
  cases s.txn.schema.table? name <;> rfl

/-- An edit of an index changes its draft. -/
theorem run_editIndex {table index : String} {draft : Draft α} {f : Draft α → Draft α × β}
    {edits : List (Edit α)} (h : s.txn.draftAt (indexPath table index) = some draft)
    (hf : (f draft).1 = draft.applyAll edits) :
    (editIndex table index f).run s =
      .ok (f draft).2 { s with txn := s.txn.withEdits (indexPath table index) edits } := by
  simp only [editIndex, run_bind, run_txn, Txn.writable_eq, h, Txn.withEdits, ← hf]
  rfl

/-- The object under a primary key is looked up in the primary index. -/
theorem run_stored {tableName : String} {primary : Key} {tree : Tree α}
    (h : s.txn.forest (indexPath tableName primaryName) = some tree) :
    (stored tableName primary).run s =
      .ok (s.txn.forest.value? tableName primaryName primary) s := by
  simp only [stored, run_bind, run_txn, Txn.readable_eq, h, Forest.value?_eq h]
  rfl

end TxnM

/-! ## Plans as edits -/

namespace IndexPlan

/-- The edits that carry a plan out. -/
def edits (p : IndexPlan) (object : Option α) : List (Edit α) :=
  p.remove.map .erase ++ object.elim [] fun o => p.insert.map (.insert · o)

theorem apply_eq (p : IndexPlan) (object : Option α) (d : Draft α) :
    p.apply object d = d.applyAll (p.edits object) := by
  cases object with
  | none => simp [apply, edits, Draft.applyAll, List.foldl_map, Draft.apply]
  | some o =>
    simp [apply, edits, Draft.applyAll, List.foldl_map, Draft.apply, List.foldl_append]

theorem insert_mem_edits {p : IndexPlan} {object : Option α} {key : Key} {o : α} :
    .insert key o ∈ p.edits object ↔ o ∈ object ∧ key ∈ p.insert := by
  cases object <;> simp [edits, and_comm, eq_comm]

theorem get?_applyAll_insert (o : α) (keys : List Key) (k : Key) :
    ∀ d : Draft α, d.tree.Wf → (d.applyAll (keys.map (.insert · o))).tree.get? k =
      if k ∈ keys then some o else d.tree.get? k := by
  induction keys with
  | nil =>
    intro d _
    rfl
  | cons key keys ih =>
    intro d h
    have hrest := ih (d.insert key o).1 (Draft.wf_insert h key o)
    rw [Draft.get?_insert h] at hrest
    refine hrest.trans ?_
    by_cases hk : k ∈ keys
    · simp [hk]
    · simp [hk]

/-- After a plan an index holds the object under the keys put in, nothing under the other
keys taken out, and what it held everywhere else. -/
theorem get?_applyAll_edits (p : IndexPlan) {object : Option α} {d : Draft α} (h : d.tree.Wf)
    (hp : object = none → p.insert = []) (k : Key) :
    (d.applyAll (p.edits object)).tree.get? k =
      if k ∈ p.insert then object else if k ∈ p.remove then none else d.tree.get? k := by
  have hsplit (more : List (Edit α)) : d.applyAll (p.remove.map .erase ++ more) =
      (d.applyAll (p.remove.map .erase)).applyAll more := by
    simp [Draft.applyAll, List.foldl_append]
  rw [edits, hsplit]
  cases object with
  | none =>
    simp only [hp rfl, List.not_mem_nil, if_false]
    exact Draft.get?_applyAll_erase h p.remove k
  | some o =>
    refine (get?_applyAll_insert o p.insert k _ (Draft.wf_applyAll h _)).trans ?_
    rw [Draft.get?_applyAll_erase h p.remove k]

end IndexPlan

namespace Txn

/-- The transaction after plans for a table, one index after another. -/
def carryOut (t : Txn α) (table : String) (object : Option α) (plans : List IndexPlan) : Txn α :=
  plans.foldl (fun t p => t.withEdits (indexPath table p.index) (p.edits object)) t

variable {t : Txn α} {table : String} {object : Option α}

/-- Plans change the drafts of a transaction and nothing else of it. -/
theorem exists_handles_carryOut (t : Txn α) (table : String) (object : Option α)
    (plans : List IndexPlan) :
    ∃ handles, t.carryOut table object plans = { t with handles := handles } := by
  induction plans generalizing t with
  | nil => exact ⟨t.handles, rfl⟩
  | cons p ps ih =>
    rcases t.exists_handles_withEdits (indexPath table p.index) (p.edits object) with ⟨handles, h⟩
    rcases ih (t.withEdits (indexPath table p.index) (p.edits object)) with ⟨handles', h'⟩
    exact ⟨handles', h'.trans (by rw [h])⟩

theorem Sound.carryOut (h : t.Sound) (plans : List IndexPlan) :
    (t.carryOut table object plans).Sound := by
  induction plans generalizing t with
  | nil => exact h
  | cons p ps ih => exact ih (h.withEdits (indexPath table p.index) (p.edits object))

@[simp] theorem schema_withEdits (t : Txn α) (path : Key) (edits : List (Edit α)) :
    (t.withEdits path edits).schema = t.schema := by
  rcases t.exists_handles_withEdits path edits with ⟨handles, h⟩
  rw [h]

/-- Edits of an index with a draft change what it holds, and no other index. -/
theorem value?_withEdits {index : String} (hs : t.Sound)
    (hp : indexPath table index ∈ t.schema.paths) (edits : List (Edit α)) :
    ∃ draft, t.draftAt (indexPath table index) = some draft ∧ draft.tree.Wf ∧
      ∀ table' index' k, (t.withEdits (indexPath table index) edits).forest.value? table' index' k =
        if indexPath table' index' = indexPath table index then
          (draft.applyAll edits).tree.get? k
        else t.forest.value? table' index' k := by
  rcases hs.exists_draftAt hp with ⟨draft, hd, hw⟩
  refine ⟨draft, hd, hw, fun table' index' k => ?_⟩
  simp only [Forest.value?, forest_withEdits hd]
  split <;> rfl

/-- After plans for different indexes each index holds what its plan says, and other
indexes hold what they held. -/
theorem value?_carryOut {plans : List IndexPlan} (hs : t.Sound)
    (hpaths : ∀ p ∈ plans, indexPath table p.index ∈ t.schema.paths)
    (hnd : (plans.map fun p => indexPath table p.index).Nodup)
    (hobject : object = none → ∀ p ∈ plans, p.insert = []) :
    (∀ p ∈ plans, ∀ k, (t.carryOut table object plans).forest.value? table p.index k =
      if k ∈ p.insert then object
      else if k ∈ p.remove then none
      else t.forest.value? table p.index k) ∧
    ∀ table' index', indexPath table' index' ∉ plans.map (fun p => indexPath table p.index) →
      ∀ k, (t.carryOut table object plans).forest.value? table' index' k =
        t.forest.value? table' index' k := by
  induction plans generalizing t with
  | nil => exact ⟨by simp, fun _ _ _ _ => rfl⟩
  | cons p ps ih =>
    simp only [List.map_cons, List.nodup_cons] at hnd
    obtain ⟨draft, hd, hw, hedit⟩ :=
      value?_withEdits hs (hpaths p List.mem_cons_self) (p.edits object)
    -- the first plan changes its own index, and the others find theirs as it was
    have hget := p.get?_applyAll_edits hw fun hn => hobject hn p List.mem_cons_self
    have hold (k : Key) : draft.tree.get? k = t.forest.value? table p.index k := by
      have htree := t.tree_draftAt (indexPath table p.index)
      rw [hd, Option.map_some] at htree
      exact (Forest.value?_eq htree.symm k).symm
    obtain ⟨hin, hout⟩ := ih (hs.withEdits (indexPath table p.index) (p.edits object))
      (fun q hq => by simpa using hpaths q (List.mem_cons_of_mem p hq)) hnd.2
      (fun hn q hq => hobject hn q (List.mem_cons_of_mem p hq))
    constructor
    · intro q hq k
      rcases List.mem_cons.1 hq with rfl | hq
      -- no later plan is for the index of the first one
      · refine (hout table q.index hnd.1 k).trans ?_
        rw [hedit, if_pos rfl, hget, hold]
      · refine (hin q hq k).trans ?_
        have hne : indexPath table q.index ≠ indexPath table p.index := by
          intro heq
          exact hnd.1 (List.mem_map.2 ⟨q, hq, heq⟩)
        rw [hedit, if_neg hne]
    · intro table' index' hnot k
      simp only [List.map_cons, List.mem_cons, not_or] at hnot
      refine (hout table' index' hnot.2 k).trans ?_
      rw [hedit, if_neg hnot.1]

end Txn

/-- Carrying plans out for declared indexes never fails. -/
theorem TxnM.run_applyPlans {table : String} {object : Option α} {plans : List IndexPlan}
    {s : Session α} (hs : s.txn.Sound)
    (hpaths : ∀ p ∈ plans, indexPath table p.index ∈ s.txn.schema.paths) :
    (applyPlans table object plans).run s =
      .ok () { s with txn := s.txn.carryOut table object plans } := by
  induction plans generalizing s with
  | nil => rfl
  | cons p ps ih =>
    rcases hs.exists_draftAt (hpaths p List.mem_cons_self) with ⟨draft, hd, hw⟩
    rw [applyPlans, run_bind, run_editIndex hd (p.apply_eq object draft)]
    refine (ih (hs.withEdits _ _) fun q hq => ?_).trans rfl
    simpa using hpaths q (List.mem_cons_of_mem p hq)

end SnapStore
