import SnapStore.Proofs.Transaction.Contents

/-! # Ledgers

A ledger is what a store ought to hold: for each table a map from primary keys to objects.
A write that succeeds changes the ledger by what it is about, whatever the indexes do. As
long as no two objects of the ledger share a stored key, the indexes follow the ledger
exactly.

Main statements: `run_write` (what a write does to a transaction), `Orderly.written` and
`Forest.Exact.written`.
-/

namespace SnapStore

variable {α : Type}

/-! ## One write -/

namespace Txn

/-- `t'` is `t` after a write that succeeded. -/
inductive Written (t t' : Txn α) : Write α → Prop where
  | insert {table : String} {object : α} {ts : TableSchema α} {p : Key}
      (ht : t.schema.table? table = some ts) (hp : ts.primaryKey table object = .ok p)
      (h : t.Takes t' table ts p object) : Written t t' (.insert table object)
  | delete {table : String} {object old : α} {ts : TableSchema α} {p : Key}
      (ht : t.schema.table? table = some ts) (hp : ts.primaryKey table object = .ok p)
      (hold : t.forest.value? table primaryName p = some old)
      (h : t.Loses t' table ts [(p, old)] none) : Written t t' (.delete table object)
  | deleteStem {table index : String} {args : List Arg} {ts : TableSchema α} {q : Query α}
      {gone : List (Key × α)} (ht : t.schema.table? table = some ts)
      (hq : t.schema.resolve table index args = .ok q) (hf : t.Finds table q gone)
      (h : t.Loses t' table ts gone none) : Written t t' (.deleteStem table index args)
  | deleteAll {table index : String} {args : List Arg} {ts : TableSchema α} {q : Query α}
      {gone : List (Key × α)} (ht : t.schema.table? table = some ts)
      (hq : t.schema.resolve table index args = .ok q) (hf : t.Finds table q gone)
      (h : t.Loses t' table ts gone none) : Written t t' (.deleteAll table index args)

variable {t t' : Txn α} {w : Write α}

theorem Written.evolves (h : t.Written t' w) : t.Evolves t' := by
  cases h with
  | insert _ _ h => exact h.evolves
  | delete _ _ _ h => exact h.evolves
  | deleteStem _ _ _ h => exact h.evolves
  | deleteAll _ _ _ h => exact h.evolves

/-- For a table, a write stores an object there, removes objects, or leaves the indexes as
they are. -/
theorem Written.cases_table (hw : t.Written t' w) {table : String} {ts : TableSchema α}
    (ht : t.schema.table? table = some ts) :
    (∃ p o, w = .insert table o ∧ ts.primaryKey table o = .ok p ∧ t.Takes t' table ts p o) ∨
      (∃ gone, (∀ p o, (p, o) ∈ gone → t.forest.value? table primaryName p = some o) ∧
        t.Loses t' table ts gone none) ∨
      ∀ name i, (name, i) ∈ ts.indexes →
        ∀ k, t'.forest.value? table name k = t.forest.value? table name k := by
  have hloses {table' : String} {ts' : TableSchema α} {gone : List (Key × α)}
      (ht' : t.schema.table? table' = some ts')
      (hgone : ∀ p o, (p, o) ∈ gone → t.forest.value? table' primaryName p = some o)
      (hl : t.Loses t' table' ts' gone none) :
      (∃ gone, (∀ p o, (p, o) ∈ gone → t.forest.value? table primaryName p = some o) ∧
        t.Loses t' table ts gone none) ∨
      ∀ name i, (name, i) ∈ ts.indexes →
        ∀ k, t'.forest.value? table name k = t.forest.value? table name k := by
    by_cases heq : table = table'
    · subst heq
      rw [ht] at ht'
      obtain rfl := Option.some.inj ht'
      exact .inl ⟨gone, hgone, hl⟩
    · exact .inr fun name i hi => hl.others table ts name i ht hi heq
  cases hw with
  | insert ht' hp htakes =>
    rename_i table' object ts' p
    by_cases heq : table = table'
    · subst heq
      rw [ht] at ht'
      obtain rfl := Option.some.inj ht'
      exact .inl ⟨p, object, rfl, hp, htakes⟩
    · exact .inr (.inr fun name i hi => htakes.others table ts name i ht hi heq)
  | delete ht' _ hold hl => exact .inr (hloses ht' (by simpa using hold) hl)
  | deleteStem ht' _ hf hl => exact .inr (hloses ht' (fun p o hm => ((hf p o).1 hm).1) hl)
  | deleteAll ht' _ hf hl => exact .inr (hloses ht' (fun p o hm => ((hf p o).1 hm).1) hl)

/-- A write keeps a transaction orderly. -/
theorem Orderly.written (h : t.Orderly) (hw : t.Written t' w) : t'.Orderly := by
  have hschema := hw.evolves.schema_eq
  refine ⟨hw.evolves.sound h.sound, hschema ▸ h.valid, hschema ▸ h.nodup, fun table ts ht => ?_⟩
  rw [hschema] at ht
  rcases hw.cases_table ht with ⟨p, o, _, hp, htakes⟩ | ⟨gone, hgone, hloses⟩ | hsame
  · exact htakes.consistent h ht hp
  · exact hloses.consistent h ht hgone
  · exact (h.consistent table ts ht).congr (h.exists_id ht) hsame

/-- An index without shared keys misses nothing after a write if it missed nothing before. -/
theorem Written.complete (hw : t.Written t' w) (h : t.Orderly) {table name : String}
    {ts : TableSchema α} {i : IndexSchema α} (ht : t.schema.table? table = some ts)
    (hi : (name, i) ∈ ts.indexes) (hbefore : t.forest.Clean table i)
    (hafter : t'.forest.Clean table i) (hc : t.forest.Complete table name i) :
    t'.forest.Complete table name i := by
  rcases hw.cases_table ht with ⟨p, o, _, hp, htakes⟩ | ⟨gone, hgone, hloses⟩ | hsame
  · exact htakes.complete h ht hp hi hbefore hafter hc
  · exact hloses.complete h ht hgone hi hbefore hc
  · rcases h.exists_id ht with ⟨id, hid⟩
    intro p o k hp hst
    rw [hsame primaryName id (TableSchema.mem_primary hid)] at hp
    rw [hsame name i hi]
    exact hc p o k hp hst

end Txn

/-- A write fails in its preparation and changes nothing, or it does what it is about. -/
theorem TxnM.run_write {t : Txn α} (h : t.Orderly) (w : Write α) (stats : Stats) :
    (∃ e, t.prepare w = .error e ∧ (write w).run ⟨t, stats⟩ = .error e ⟨t, stats⟩) ∨
      ∃ t' stats', t.prepare w = .ok () ∧ t.Written t' w ∧
        (write w).run ⟨t, stats⟩ = .ok () ⟨t', stats'⟩ := by
  cases w with
  | insert table object =>
    rcases run_insert h table object stats with
      hfail | ⟨ts, p, t', hprepare, ht, hp, htakes, hrun⟩
    · exact .inl hfail
    · exact .inr ⟨t', _, hprepare, .insert ht hp htakes, hrun⟩
  | delete table object =>
    rcases run_delete h table object stats with
      hfail | ⟨ts, p, old, t', hprepare, ht, hp, hold, hloses, hrun⟩
    · exact .inl hfail
    · exact .inr ⟨t', _, hprepare, .delete ht hp hold hloses, hrun⟩
  | deleteStem table index args =>
    rw [write, run_bind]
    rcases run_deleteStem h table index args stats with
      ⟨e, hprepare, hrun⟩ | ⟨ts, q, gone, t', hprepare, ht, hq, hf, _, hloses, hrun⟩
    · exact .inl ⟨e, hprepare, by rw [hrun]⟩
    · exact .inr ⟨t', _, hprepare, .deleteStem ht hq hf hloses, by rw [hrun]; rfl⟩
  | deleteAll table index args =>
    rw [write, run_bind]
    rcases run_deleteAll h table index args stats with
      ⟨e, hprepare, hrun⟩ | ⟨ts, q, gone, t', hprepare, ht, hq, hf, _, hloses, hrun⟩
    · exact .inl ⟨e, hprepare, by rw [hrun]⟩
    · exact .inr ⟨t', _, hprepare, .deleteAll ht hq hf hloses, by rw [hrun]; rfl⟩

/-! ## The ledger -/

/-- The objects of each table, by their primary keys. -/
abbrev Ledger (α : Type) := String → Key → Option α

/-- Whether the query is for an object with the given primary key: a stored key of it in the
queried index starts with the key of the query. -/
def Query.isFor (q : Query α) (object : α) (primary : Key) : Bool :=
  match q.index.indexer.keys object with
  | .ok keys => keys.any fun derived => (q.index.storedKey derived primary).startsWith q.key
  | .error _ => false

theorem Query.isFor_iff {q : Query α} {object : α} {primary : Key} :
    q.isFor object primary = true ↔ ∃ k, q.key <+: k ∧ q.index.Stores object primary k := by
  unfold isFor
  simp only [IndexSchema.Stores, IndexSchema.Derives]
  cases q.index.indexer.keys object with
  | error cause => simp
  | ok keys =>
    simp only [List.any_eq_true, Key.startsWith_iff, Except.ok.injEq, exists_eq_left']
    constructor
    · rintro ⟨d, hd, hs⟩
      exact ⟨_, hs, d, hd, rfl⟩
    · rintro ⟨_, hs, d, hd, rfl⟩
      exact ⟨d, hd, hs⟩

/-- The primary key of an object in a table, if there is such a table and the object has one. -/
def Schema.primaryKey? (s : Schema α) (table : String) (object : α) : Option Key :=
  match s.table? table with
  | none => none
  | some ts =>
    match ts.primaryKey table object with
    | .ok p => some p
    | .error _ => none

theorem Schema.primaryKey?_eq {s : Schema α} {table : String} {object : α} {ts : TableSchema α}
    {p : Key} (ht : s.table? table = some ts) (hp : ts.primaryKey table object = .ok p) :
    s.primaryKey? table object = some p := by
  simp [primaryKey?, ht, hp]

namespace Ledger

/-- The ledger with another object, or none, under one primary key. -/
def set (L : Ledger α) (table : String) (p : Key) (o : Option α) : Ledger α := fun table' p' =>
  if table' = table ∧ p' = p then o else L table' p'

/-- The ledger without the objects that a query is for. -/
def without (L : Ledger α) (table : String) (q : Query α) : Ledger α := fun table' p =>
  if table' = table then (L table' p).filter fun o => !q.isFor o p else L table' p

/-- The ledger after a write that succeeded. -/
def after (L : Ledger α) (s : Schema α) : Write α → Ledger α
  | .insert table object =>
    match s.primaryKey? table object with
    | some p => L.set table p (some object)
    | none => L
  | .delete table object =>
    match s.primaryKey? table object with
    | some p => L.set table p none
    | none => L
  | .deleteStem table index args | .deleteAll table index args =>
    match s.resolve table index args with
    | .ok q => L.without table q
    | .error _ => L

end Ledger

/-- The indexes hold what is in the ledger: the primary index the objects, and every index
each of them under all its stored keys. -/
structure Forest.Exact (F : Forest α) (s : Schema α) (L : Ledger α) : Prop where
  stock : ∀ table ts, s.table? table = some ts → ∀ p, F.value? table primaryName p = L table p
  complete : ∀ table ts name i, s.table? table = some ts → (name, i) ∈ ts.indexes →
    F.Complete table name i

namespace Forest.Exact

variable {t t' : Txn α} {w : Write α} {L : Ledger α}

/-- Without shared keys, a query finds the objects that it is for. -/
theorem finds_iff (h : t.forest.Exact t.schema L) (ho : t.Orderly) {table index : String}
    {args : List Arg} {q : Query α} {gone : List (Key × α)}
    (hq : t.schema.resolve table index args = .ok q) (hf : t.Finds table q gone) (p : Key) (o : α) :
    (p, o) ∈ gone ↔ L table p = some o ∧ q.isFor o p = true := by
  rcases Schema.resolve_spec hq with ⟨ts, ht, hi⟩
  rw [hf p o, h.stock table ts ht, Query.isFor_iff]
  refine and_congr_right fun hp => exists_congr fun k => and_congr_right fun _ => ?_
  rw [← h.stock table ts ht] at hp
  constructor
  · intro hk
    have hc := ho.consistent table ts ht
    rcases hc.owned q.name q.index hi k o hk with ⟨p', hp', hst⟩
    have heq := (hc.primaryKey p o hp).symm.trans (hc.primaryKey p' o hp')
    rwa [Except.ok.inj heq]
  · exact h.complete table ts q.name q.index ht hi p o k hp

/-- Where the ledger and the primary index of one table change alike, and nothing else does,
the primary indexes hold what is in the ledger still. -/
theorem stock_of_table (h : t.forest.Exact t.schema L) (ho : t.Orderly) {table : String}
    {L' : Ledger α} (hstock : ∀ p, t'.forest.value? table primaryName p = L' table p)
    (hledger : ∀ table' p, table' ≠ table → L' table' p = L table' p)
    (hothers : ∀ table' ts' name' i', t.schema.table? table' = some ts' →
      (name', i') ∈ ts'.indexes → table' ≠ table →
      ∀ k, t'.forest.value? table' name' k = t.forest.value? table' name' k)
    (table' : String) (ts' : TableSchema α) (ht' : t.schema.table? table' = some ts') (p : Key) :
    t'.forest.value? table' primaryName p = L' table' p := by
  by_cases heq : table' = table
  · rw [heq, hstock]
  · rcases ho.exists_id ht' with ⟨id, hid⟩
    have hid' := TableSchema.mem_primary hid
    rw [hothers table' ts' primaryName id ht' hid' heq, hledger table' p heq,
      h.stock table' ts' ht']

/-- The removal of what a query finds takes what the query is for out of the ledger. -/
theorem stock_without (h : t.forest.Exact t.schema L) (ho : t.Orderly) {table index : String}
    {args : List Arg} {ts : TableSchema α} {q : Query α} {gone : List (Key × α)}
    (ht : t.schema.table? table = some ts) (hq : t.schema.resolve table index args = .ok q)
    (hf : t.Finds table q gone) (hloses : t.Loses t' table ts gone none) (table' : String)
    (ts' : TableSchema α) (ht' : t.schema.table? table' = some ts') (p : Key) :
    t'.forest.value? table' primaryName p = L.without table q table' p := by
  refine h.stock_of_table ho (fun p => Option.ext fun o => ?_) ?_ hloses.others table' ts' ht' p
  · have hgone (p : Key) (o : α) (hm : (p, o) ∈ gone) := ((hf p o).1 hm).1
    rw [hloses.value?_primary ho ht hgone, Ledger.without, if_pos rfl, Option.filter_eq_some_iff,
      h.finds_iff ho hq hf, h.stock table ts ht]
    refine and_congr_right fun hp => ?_
    simp [hp]
  · intro table' p hne
    rw [Ledger.without, if_neg hne]

/-- A write changes the primary indexes as it changes the ledger. -/
theorem stock_written (h : t.forest.Exact t.schema L) (ho : t.Orderly) (hw : t.Written t' w)
    (table : String) (ts : TableSchema α) (ht : t.schema.table? table = some ts) (p : Key) :
    t'.forest.value? table primaryName p = L.after t.schema w table p := by
  cases hw with
  | insert ht' hp htakes =>
    rw [Ledger.after, Schema.primaryKey?_eq ht' hp]
    refine h.stock_of_table ho (fun p => ?_) ?_ htakes.others table ts ht p
    · rw [htakes.value?_primary ho ht' hp, h.stock _ _ ht']
      simp [Ledger.set]
    · intro table' p' hne
      simp [Ledger.set, hne]
  | delete ht' hp hold hloses =>
    rename_i table₀ object old ts₀ p₀
    rw [Ledger.after, Schema.primaryKey?_eq ht' hp]
    refine h.stock_of_table ho (fun p => Option.ext fun o => ?_) ?_ hloses.others table ts ht p
    · rw [hloses.value?_primary ho ht' (by simpa using hold)]
      by_cases heq : p = p₀
      · subst heq
        simp [Ledger.set, hold, eq_comm]
      · simp [Ledger.set, heq, h.stock table₀ ts₀ ht']
    · intro table' p' hne
      simp [Ledger.set, hne]
  | deleteStem ht' hq hf hloses =>
    rw [Ledger.after, hq]
    exact h.stock_without ho ht' hq hf hloses table ts ht p
  | deleteAll ht' hq hf hloses =>
    rw [Ledger.after, hq]
    exact h.stock_without ho ht' hq hf hloses table ts ht p

/-- As long as no two stored objects share a stored key, a write that succeeds changes the
indexes as it changes the ledger. -/
theorem written (h : t.forest.Exact t.schema L) (ho : t.Orderly) (hbefore : t.forest.Apart t.schema)
    (hw : t.Written t' w) (hafter : t'.forest.Apart t.schema) :
    t'.forest.Exact t.schema (L.after t.schema w) := by
  refine ⟨h.stock_written ho hw, fun table ts name i ht hi => ?_⟩
  have hclean := hbefore table ts name i ht hi
  have hclean' := hafter table ts name i ht hi
  exact hw.complete ho ht hi hclean hclean' (h.complete table ts name i ht hi)

end Forest.Exact

end SnapStore
