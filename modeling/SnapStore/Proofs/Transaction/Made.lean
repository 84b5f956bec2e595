import SnapStore.Proofs.Transaction.CarryOut

/-! # What writes are made of

Every write to a table is made of a few steps: it fails or answers, reads the transaction,
counts, notes a change, and edits an index of the table. It looks only at some parts of the
transaction. What each of these steps does, and what is handed on from one to the next, every
write does; so this module takes the writes apart once for all properties of that sort.

Main statement: `made_write`.
-/

namespace SnapStore

variable {α β γ : Type}

/-- The transactions differ at most in what no write looks at: the store they belong to, their
change logs and their deferred jobs. -/
def Txn.Alike (t t' : Txn α) : Prop :=
  ∃ store changes deferred,
    t' = { t with store := store, changes := changes, deferred := deferred }

/-- The table that a write is for. -/
def Write.table : Write α → String
  | .insert table _ | .delete table _ | .deleteStem table _ _ | .deleteAll table _ _ => table

/-- An index of the table that has this name stores the object under the key. -/
def Schema.Files (S : Schema α) (table index : String) (object : α) (key : Key) : Prop :=
  ∃ ts i primary, S.table? table = some ts ∧ (index, i) ∈ ts.indexes ∧ i.Stores object primary key

namespace TxnM

/-- In transactions of the given schema, the operation is made of steps that edit no index but
those of the table, and insert nothing into it but what the index stores. What it answers has the
property `Q`. -/
inductive Made (S : Schema α) (table : String) : {β : Type} → TxnM α β → (β → Prop) → Prop
  | pure {β : Type} {b : β} {Q : β → Prop} (hb : Q b) : Made S table (Pure.pure b) Q
  | throw {β : Type} {Q : β → Prop} (e : Error) : Made S table (throw e : TxnM α β) Q
  | read {β : Type} {K : Txn α → TxnM α β} {Q : β → Prop}
    (hblind : ∀ t t', t.Alike t' → K t' = K t)
    (hK : ∀ t, t.schema = S → Made S table (K t) Q) : Made S table (txn >>= K) Q
  | count (f : Stats → Stats) : Made S table (count f) fun _ => True
  | log (noted : String) (key : Key) (before after : Option α) :
    Made S table (log noted key before after) fun _ => True
  | edit {β : Type} {index : String} {f : Draft α → Draft α × β}
    (hindex : indexPath table index ∈ S.pathsOf table)
    (hf : ∀ d, ∃ edits, (f d).1 = d.applyAll edits ∧
      ∀ key object, .insert key object ∈ edits → S.Files table index object key) :
    Made S table (editIndex table index f) fun _ => True
  | bind {β γ : Type} {x : TxnM α β} {f : β → TxnM α γ} {Q : β → Prop} {R : γ → Prop}
    (hx : Made S table x Q) (hf : ∀ b, Q b → Made S table (f b) R) : Made S table (x >>= f) R

variable {S : Schema α} {tableName : String} {ts : TableSchema α}

theorem made_lift (x : Except Error β) : Made S tableName (lift x) fun b => x = .ok b := by
  cases x with
  | ok b => exact .pure rfl
  | error e => exact .throw e

theorem made_ensureWrite : Made S tableName ensureWrite fun _ => True := by
  refine .read ?_ fun t _ => ?_
  · rintro t _ ⟨_, _, _, rfl⟩
    rfl
  · cases t.ensureWrite with
    | ok _ => exact .pure trivial
    | error e => exact .throw e

theorem made_table : Made S tableName (table tableName) fun ts => S.table? tableName = some ts := by
  refine .read ?_ fun t ht => ?_
  · rintro t _ ⟨_, _, _, rfl⟩
    rfl
  · subst ht
    cases hts : t.schema.table? tableName with
    | none => exact .throw _
    | some ts => exact .pure rfl

theorem made_stored (primary : Key) :
    Made S tableName (stored tableName primary) fun _ => True := by
  refine .read ?_ fun t _ => ?_
  · rintro t _ ⟨_, _, _, rfl⟩
    rfl
  · exact (made_lift _).bind fun _ _ => .pure trivial

theorem made_iterate (answer : Query α → Tree α → β) (index : String) (args : List Arg) :
    Made S tableName (iterate answer tableName index args) fun _ => True := by
  refine .read ?_ fun t _ => ?_
  · rintro t _ ⟨_, _, _, rfl⟩
    rfl
  · exact (made_lift _).bind fun _ _ => (Made.count _).bind fun _ _ => .pure trivial

theorem made_applyPlans (object : Option α) {plans : List IndexPlan}
    (ht : S.table? tableName = some ts) (hplans : ∀ p ∈ plans, p.index ∈ ts.indexes.keys)
    (hfiles : ∀ p ∈ plans, ∀ o ∈ object, ∀ key ∈ p.insert, S.Files tableName p.index o key) :
    Made S tableName (applyPlans tableName object plans) fun _ => True := by
  induction plans with
  | nil => exact .pure trivial
  | cons p ps ih =>
    have hindex := Schema.mem_pathsOf ht (hplans p List.mem_cons_self)
    have hfirst : Made S tableName
        (editIndex tableName p.index fun d => (p.apply object d, ())) fun _ => True := by
      refine .edit hindex fun d => ⟨p.edits object, p.apply_eq object d, fun key o hmem => ?_⟩
      rcases IndexPlan.insert_mem_edits.1 hmem with ⟨ho, hkey⟩
      exact hfiles p List.mem_cons_self o ho key hkey
    exact hfirst.bind fun _ _ => ih (fun q hq => hplans q (List.mem_cons_of_mem p hq))
      fun q hq => hfiles q (List.mem_cons_of_mem p hq)

/-! ## Writes -/

theorem made_insert (object : α) : Made S tableName (insert tableName object) fun _ => True := by
  refine made_ensureWrite.bind fun _ _ => made_table.bind fun ts hts => ?_
  refine (made_lift _).bind fun primary _ => (made_stored primary).bind fun existing _ => ?_
  refine (made_lift _).bind fun plans hplans => ?_
  have hindex : ∀ p ∈ plans, p.index ∈ ts.indexes.keys := by
    intro p hp
    rw [← (TableSchema.planInsert_spec hplans).1]
    exact List.mem_map_of_mem hp
  have hfiles (p : IndexPlan) (hp : p ∈ plans) (o : α) (ho : o ∈ some object) (key : Key)
      (hkey : key ∈ p.insert) : S.Files tableName p.index o key := by
    obtain rfl := Option.some.inj ho
    rcases TableSchema.stores_planInsert hplans p hp with ⟨i, hi, hstores⟩
    exact ⟨ts, i, primary, hts, hi, hstores key hkey⟩
  refine (made_applyPlans (some object) hts hindex hfiles).bind fun _ _ => ?_
  exact (Made.log _ _ _ _).bind fun _ _ => .count _

theorem made_remove (hts : S.table? tableName = some ts) (primary : Key) (object : α)
    (bulk : Option (String × Key)) :
    Made S tableName (remove tableName ts primary object bulk) fun _ => True := by
  refine (made_lift _).bind fun plans hplans => ?_
  have hindex : ∀ p ∈ plans, p.index ∈ ts.indexes.keys := by
    intro p hp
    rw [← TableSchema.index_planRemove hplans]
    exact List.mem_map_of_mem hp
  refine (made_applyPlans none hts hindex fun _ _ _ ho => nomatch ho).bind fun _ _ => ?_
  exact (Made.log _ _ _ _).bind fun _ _ => .count _

theorem made_removeEach (hts : S.table? tableName = some ts) (bulk : Option (String × Key))
    (objects : List (Key × α)) :
    Made S tableName (removeEach tableName ts bulk objects) fun _ => True := by
  induction objects with
  | nil => exact .pure trivial
  | cons x xs ih => exact (made_remove hts x.1 x.2 bulk).bind fun _ _ => ih

theorem made_delete (object : α) : Made S tableName (delete tableName object) fun _ => True := by
  refine made_ensureWrite.bind fun _ _ => made_table.bind fun ts hts => ?_
  refine (made_lift _).bind fun primary _ => (made_stored primary).bind fun existing _ => ?_
  cases existing with
  | none => exact .throw _
  | some old => exact made_remove hts primary old none

theorem made_deleteAll (index : String) (args : List Arg) :
    Made S tableName (deleteAll tableName index args) fun _ => True := by
  refine made_ensureWrite.bind fun _ _ => (made_iterate _ index args).bind fun found _ => ?_
  refine made_table.bind fun ts hts => (made_lift _).bind fun objects _ => ?_
  exact (made_removeEach hts none objects).bind fun _ _ => .pure trivial

theorem made_deleteStem (index : String) (args : List Arg) :
    Made S tableName (deleteStem tableName index args) fun _ => True := by
  refine made_ensureWrite.bind fun _ _ => ?_
  have hrest : Made S tableName (do
      let query ← lift ((← txn).schema.resolve tableName index args)
      let found ← all tableName index args
      if found.objects.isEmpty then return false
      let schema ← table tableName
      let objects ← lift (schema.distinct tableName [] found.objects)
      removeEach tableName schema (some (query.name, query.key)) objects
      editIndex tableName query.name fun d => d.eraseStem query.key) fun _ => True := by
    refine .read ?_ fun t ht => ?_
    · rintro t _ ⟨_, _, _, rfl⟩
      rfl
    refine (made_lift _).bind fun query hquery => (made_iterate _ index args).bind fun found _ => ?_
    split
    · exact .pure trivial
    · refine made_table.bind fun ts hts => (made_lift _).bind fun objects _ => ?_
      refine (made_removeEach hts _ objects).bind fun _ _ => ?_
      -- the stem lies in an index of the table as well
      rcases Schema.resolve_spec (ht ▸ hquery) with ⟨ts', hts', hq⟩
      have hindex := Schema.mem_pathsOf hts' (List.mem_map_of_mem hq)
      exact .edit hindex fun d => ⟨[.eraseStem query.key], rfl, by simp⟩
  split
  · exact (Made.throw (Q := fun _ => True) _).bind fun _ _ => hrest
  · exact hrest

/-- A write is made of steps that edit the indexes of its table. -/
theorem made_write (S : Schema α) (w : Write α) : Made S w.table (write w) fun _ => True := by
  cases w with
  | insert table object => exact made_insert object
  | delete table object => exact made_delete object
  | deleteStem table index args => exact (made_deleteStem index args).bind fun _ _ => .pure trivial
  | deleteAll table index args => exact (made_deleteAll index args).bind fun _ _ => .pure trivial

end TxnM

end SnapStore
