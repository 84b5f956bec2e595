import SnapStore.Proofs.Engine.Actions

/-! # Which indexes an operation misses

An operation may fail for an index that its table does not have. It never misses an index that
is declared: the trees of these are there from the first root on, and every operation leaves
them there. So an error that tells of a missing index is to be believed.

Main statements: `honest_write` and `honest_scan`.
-/

namespace SnapStore

variable {α β γ : Type}

/-- The index that is asked for in a declared table: neither an index of this name is declared,
nor, if it is the form for stems, the index before the suffix. That one is the index that is
missing, and it is not the primary one. -/
structure Schema.Lacks (s : Schema α) (table asked index : String) : Prop where
  declared : ∃ ts, s.table? table = some ts ∧ ts.indexes.find? asked = none ∧
    ts.indexes.find? index = none
  name : index = asked ∨ stemBase? asked = some index
  ne_primaryName : index ≠ primaryName

/-- An index that an error tells to be missing is missing. -/
def Error.Honest (misses : String → String → Prop) (e : Error) : Prop :=
  ∀ table index, e = .indexNotFound table index → misses table index

/-- The table and the index that a write queries. -/
def Write.query? : Write α → Option (String × String)
  | .insert _ _ | .delete _ _ => none
  | .deleteStem table index _ | .deleteAll table index _ => some (table, index)

/-! ## Derivations -/

theorem bind_eq_error_iff {ε : Type} {x : Except ε β} {f : β → Except ε γ} {e : ε} :
    (x >>= f) = .error e ↔ x = .error e ∨ ∃ b, x = .ok b ∧ f b = .error e := by
  cases x with
  | error e' => simp [bind, Except.bind]
  | ok b => simp [bind, Except.bind]

section derivations

variable {s : Schema α} {misses : String → String → Prop} {table : String} {ts : TableSchema α}
  {e : Error}

/-- The primary index of an accepted table is not missing. -/
theorem honest_primaryKey (hv : s.validate = .ok ()) (ht : s.table? table = some ts) {object : α}
    (h : ts.primaryKey table object = .error e) : e.Honest misses := by
  rintro table' index rfl
  rcases Schema.exists_primary hv ht with ⟨id, hid, _⟩
  simp only [TableSchema.primaryKey, hid] at h
  split at h <;> simp at h

theorem honest_distinct (hv : s.validate = .ok ()) (ht : s.table? table = some ts) :
    ∀ {objects : List α} {seen : List Key} {e : Error},
      ts.distinct table seen objects = .error e → e.Honest misses
  | [], seen, e, h => by simp [TableSchema.distinct] at h
  | o :: rest, seen, e, h => by
    rw [TableSchema.distinct, bind_eq_error_iff] at h
    rcases h with hp | ⟨p, _, h⟩
    · exact honest_primaryKey hv ht hp
    · split at h
      · exact honest_distinct hv ht h
      · rw [bind_eq_error_iff] at h
        rcases h with hrest | ⟨more, _, h⟩
        · exact honest_distinct hv ht hrest
        · cases h

theorem honest_storedKeys {i : IndexSchema α} {name : String} {object : α} {primary : Key}
    (h : i.storedKeys table name object primary = .error e) : e.Honest misses := by
  rintro table' index rfl
  unfold IndexSchema.storedKeys at h
  split at h <;> simp at h

theorem honest_planInsert {object : α} {primary : Key} {existing : Option α} :
    ∀ {indexes : Catalog String (IndexSchema α)} {e : Error},
      TableSchema.planInsert table object primary existing indexes = .error e → e.Honest misses
  | [], e, h => by simp [TableSchema.planInsert] at h
  | (name, i) :: rest, e, h => by
    rw [TableSchema.planInsert, bind_eq_error_iff] at h
    rcases h with hnew | ⟨new, _, h⟩
    · exact honest_storedKeys hnew
    · have hrest (old : List Key)
          (h : (TableSchema.planInsert table object primary existing rest >>=
            fun more => Except.ok (⟨name, old.filter (!new.contains ·), new⟩ :: more)) =
              .error e) :
          e.Honest misses := by
        rw [bind_eq_error_iff] at h
        rcases h with hmore | ⟨more, _, h⟩
        · exact honest_planInsert hmore
        · cases h
      by_cases hmiss : (new.isEmpty && !i.allowMissing && name != primaryName) = true
      · -- the object lacks a key that the index requires
        have he : Error.missingIndexValue table name = e := by
          cases existing <;>
            simpa [hmiss, throw, throwThe, MonadExceptOf.throw, bind, Except.bind] using h
        rintro table' index rfl
        cases he
      · cases existing with
        | none =>
          rw [if_neg hmiss] at h
          exact hrest [] h
        | some o =>
          rw [if_neg hmiss, bind_eq_error_iff] at h
          rcases h with hold | ⟨old, _, h⟩
          · exact honest_storedKeys hold
          · exact hrest old h

theorem honest_planRemove {object : α} {primary : Key} {bulk : Option (String × Key)} :
    ∀ {indexes : Catalog String (IndexSchema α)} {e : Error},
      TableSchema.planRemove table object primary bulk indexes = .error e → e.Honest misses
  | [], e, h => by simp [TableSchema.planRemove] at h
  | (name, i) :: rest, e, h => by
    rw [TableSchema.planRemove, bind_eq_error_iff] at h
    rcases h with hkeys | ⟨keys, _, h⟩
    · exact honest_storedKeys hkeys
    · rw [bind_eq_error_iff] at h
      rcases h with hmore | ⟨more, _, h⟩
      · exact honest_planRemove hmore
      · cases h

theorem honest_keyOf {name : String} {i : IndexSchema α} {byStem : Bool} {args : List Arg}
    (h : Schema.keyOf name i byStem args = .error e) : e.Honest misses := by
  rintro table' index rfl
  unfold Schema.keyOf at h
  split at h
  · cases h
  · split at h
    · split at h
      · cases h
      · rename_i stem _
        cases stem <;> cases h
    · cases hkey : i.indexer.args.key args <;> rw [hkey] at h <;> cases h

/-- The index that a query asks for and does not find is not declared. -/
theorem lacks_of_indexAsked (hv : s.validate = .ok ()) (ht : s.table? table = some ts)
    {index : String} (hnone : ts.indexes.find? (Schema.indexAsked ts.indexes index).1 = none) :
    s.Lacks table index (Schema.indexAsked ts.indexes index).1 := by
  have hprimary : (Schema.indexAsked ts.indexes index).1 ≠ primaryName := by
    intro heq
    rcases Schema.exists_primary hv ht with ⟨id, hid, _⟩
    rw [heq] at hnone
    rw [TableSchema.primary?, hnone] at hid
    cases hid
  unfold Schema.indexAsked at hnone hprimary ⊢
  cases hbase : stemBase? index with
  | none =>
    simp only [hbase] at hnone hprimary ⊢
    exact ⟨⟨ts, ht, hnone, hnone⟩, .inl rfl, hprimary⟩
  | some base =>
    simp only [hbase] at hnone hprimary ⊢
    cases hfound : ts.indexes.find? index with
    | some i => simp [hfound] at hnone
    | none =>
      simp only [hfound, Option.isSome_none, Bool.false_eq_true, if_false] at hnone hprimary ⊢
      exact ⟨⟨ts, ht, hfound, hnone⟩, .inr hbase, hprimary⟩

theorem honest_resolve (hv : s.validate = .ok ()) {index : String} {args : List Arg}
    (hmisses : ∀ name, s.Lacks table index name → misses table name)
    (h : s.resolve table index args = .error e) : e.Honest misses := by
  unfold Schema.resolve at h
  cases ht : s.table? table with
  | none =>
    rw [ht] at h
    obtain rfl : Error.tableNotFound table = e := Except.error.inj h
    rintro table' index' ⟨⟩
  | some ts =>
    simp only [ht] at h
    split at h
    · -- the query is for an index that is not declared
      rename_i hnone
      obtain rfl := Except.error.inj h
      rintro table' index' ⟨⟩
      exact hmisses _ (lacks_of_indexAsked hv ht hnone)
    · rename_i i _
      cases hkey : Schema.keyOf (Schema.indexAsked ts.indexes index).1 i
          (Schema.indexAsked ts.indexes index).2 args with
      | error e' =>
        rw [hkey] at h
        obtain rfl : e' = e := Except.error.inj h
        exact honest_keyOf hkey
      | ok key =>
        rw [hkey] at h
        cases h

end derivations

/-! ## Operations -/

theorem Txn.honest_ensureActive {t : Txn α} {misses : String → String → Prop} {e : Error}
    (h : t.ensureActive = .error e) : e.Honest misses := by
  rintro table index rfl
  unfold ensureActive at h
  split at h <;> cases h

theorem Txn.honest_ensureWrite {t : Txn α} {misses : String → String → Prop} {e : Error}
    (h : t.ensureWrite = .error e) : e.Honest misses := by
  rw [ensureWrite, bind_eq_error_iff] at h
  rcases h with hactive | ⟨_, _, h⟩
  · exact honest_ensureActive hactive
  · split at h
    · cases h
    · obtain rfl : Error.readOnly = e := Except.error.inj h
      rintro table index ⟨⟩

/-- The tree of a declared index is there. -/
theorem Txn.Sound.exists_readable {t : Txn α} (h : t.Sound) {table index : String}
    (hpath : indexPath table index ∈ t.schema.paths) :
    ∃ tree, t.readable table index = .ok tree := by
  rcases h.wf_forest.exists_tree hpath with ⟨tree, htree, _⟩
  exact ⟨tree, by rw [readable_eq, htree]⟩

theorem Txn.Sound.honest_lookup {t : Txn α} (h : t.Sound) (hv : t.schema.validate = .ok ())
    {misses : String → String → Prop} {table index : String} {args : List Arg} {e : Error}
    (hmisses : ∀ name, t.schema.Lacks table index name → misses table name)
    (hlookup : t.lookup table index args = .error e) : e.Honest misses := by
  simp only [lookup, bind_eq_error_iff] at hlookup
  rcases hlookup with hactive | ⟨_, _, hquery | ⟨q, hq, htree | ⟨tree, _, hpair⟩⟩⟩
  · exact honest_ensureActive hactive
  · exact honest_resolve hv hmisses hquery
  · -- the query is for an index that is declared
    rcases Schema.resolve_spec hq with ⟨ts, ht, hi⟩
    rcases h.exists_readable (Schema.mem_paths ht hi) with ⟨tree, hread⟩
    rw [hread] at htree
    cases htree
  · cases hpair

namespace TxnM

/-- From a sound transaction of the schema, the operation leads to another one and answers as it
is said to, or it fails with an error that can be believed. -/
structure Honest (S : Schema α) (misses : String → String → Prop) (op : TxnM α β)
    (Q : β → Prop) : Prop where
  ok : ∀ s : Session α, s.txn.Sound → s.txn.schema = S → ∀ b s', op.run s = .ok b s' →
    Q b ∧ s'.txn.Sound ∧ s'.txn.schema = S
  error : ∀ s : Session α, s.txn.Sound → s.txn.schema = S → ∀ e s', op.run s = .error e s' →
    e.Honest misses

variable {S : Schema α} {misses : String → String → Prop} {tableName : String}
  {ts : TableSchema α}

namespace Honest

theorem pure {b : β} {Q : β → Prop} (hb : Q b) : Honest S misses (pure b) Q where
  ok s hs hS b' s' h := by
    cases h
    exact ⟨hb, hs, hS⟩
  error s _ _ e s' h := by cases h

theorem throw {e : Error} (he : e.Honest misses) {Q : β → Prop} :
    Honest S misses (throw e : TxnM α β) Q where
  ok s _ _ b s' h := by cases h
  error s _ _ e' s' h := by
    cases h
    exact he

theorem bind {x : TxnM α β} {f : β → TxnM α γ} {Q : β → Prop} {R : γ → Prop}
    (hx : Honest S misses x Q) (hf : ∀ b, Q b → Honest S misses (f b) R) :
    Honest S misses (x >>= f) R where
  ok s hs hS c s'' h := by
    rw [run_bind] at h
    cases hrun : x.run s with
    | error e s' =>
      rw [hrun] at h
      cases h
    | ok b s' =>
      rw [hrun] at h
      rcases hx.ok s hs hS b s' hrun with ⟨hb, hs', hS'⟩
      exact (hf b hb).ok s' hs' hS' c s'' h
  error s hs hS e s'' h := by
    rw [run_bind] at h
    cases hrun : x.run s with
    | error e' s' =>
      rw [hrun] at h
      cases h
      exact hx.error s hs hS e s'' hrun
    | ok b s' =>
      rw [hrun] at h
      rcases hx.ok s hs hS b s' hrun with ⟨hb, hs', hS'⟩
      exact (hf b hb).error s' hs' hS' e s'' h

theorem forget {x : TxnM α β} {Q : β → Prop} (hx : Honest S misses x Q) :
    Honest S misses x fun _ => True :=
  ⟨fun s hs hS b s' h => ⟨trivial, (hx.ok s hs hS b s' h).2⟩, hx.error⟩

theorem read {K : Txn α → TxnM α β} {Q : β → Prop}
    (hK : ∀ t, t.Sound → t.schema = S → Honest S misses (K t) Q) :
    Honest S misses (txn >>= K) Q where
  ok s hs hS b s' h := (hK s.txn hs hS).ok s hs hS b s' h
  error s hs hS e s' h := (hK s.txn hs hS).error s hs hS e s' h

theorem lift {x : Except Error β} (hx : ∀ e, x = .error e → e.Honest misses) :
    Honest S misses (lift x) fun b => x = .ok b := by
  cases x with
  | ok b => exact .pure rfl
  | error e => exact .throw (hx e rfl)

theorem count (f : Stats → Stats) : Honest S misses (TxnM.count f) fun _ => True where
  ok s hs hS b s' h := by
    cases h
    exact ⟨trivial, hs, hS⟩
  error s _ _ e s' h := by cases h

theorem log (noted : String) (key : Key) (before after : Option α) :
    Honest S misses (TxnM.log noted key before after) fun _ => True where
  ok s hs hS b s' h := by
    cases h
    exact ⟨trivial, ⟨hs.root, hs.trees, hs.ascends, hs.drafts⟩, hS⟩
  error s _ _ e s' h := by cases h

/-- The edit of a declared index never fails. -/
theorem edit {index : String} (hpath : indexPath tableName index ∈ S.paths)
    {f : Draft α → Draft α × β} (hf : ∀ d, ∃ edits, (f d).1 = d.applyAll edits) :
    Honest S misses (editIndex tableName index f) fun _ => True where
  ok s hs hS b s' h := by
    subst hS
    rcases hs.exists_draftAt hpath with ⟨draft, hdraft, _⟩
    rcases hf draft with ⟨edits, hedits⟩
    rw [run_editIndex hdraft hedits] at h
    cases h
    exact ⟨trivial, hs.withEdits _ edits, s.txn.schema_withEdits _ edits⟩
  error s hs hS e s' h := by
    subst hS
    rcases hs.exists_draftAt hpath with ⟨draft, hdraft, _⟩
    rcases hf draft with ⟨edits, hedits⟩
    rw [run_editIndex hdraft hedits] at h
    cases h

end Honest

theorem honest_ensureWrite : Honest S misses ensureWrite fun _ => True :=
  .read fun _ _ _ => (Honest.lift fun _ he => Txn.honest_ensureWrite he).forget

theorem honest_table :
    Honest S misses (table tableName) fun ts => S.table? tableName = some ts := by
  refine .read fun t _ hS => ?_
  subst hS
  cases ht : t.schema.table? tableName with
  | some ts => exact .pure rfl
  | none =>
    refine .throw ?_
    rintro table index ⟨⟩

/-- The primary index of an accepted table is there. -/
theorem honest_stored (hv : S.validate = .ok ()) (ht : S.table? tableName = some ts)
    (primary : Key) : Honest S misses (stored tableName primary) fun _ => True := by
  refine .read fun t hs hS => (Honest.lift fun e he => ?_).bind fun _ _ => .pure trivial
  subst hS
  rcases Schema.exists_primary hv ht with ⟨id, hid, _⟩
  rcases hs.exists_readable (Schema.mem_paths ht (TableSchema.mem_primary hid)) with ⟨tree, hread⟩
  rw [hread] at he
  cases he

theorem honest_lookup (hv : S.validate = .ok ()) {table index : String}
    (hmisses : ∀ name, S.Lacks table index name → misses table name)
    (answer : Query α → Tree α → β) (args : List Arg) :
    Honest S misses (lookup answer table index args) fun _ => True := by
  refine .read fun t hs hS => (Honest.lift fun e he => ?_).bind fun _ _ =>
    (Honest.count _).bind fun _ _ => .pure trivial
  subst hS
  exact hs.honest_lookup hv hmisses he

theorem honest_iterate (hv : S.validate = .ok ()) {table index : String}
    (hmisses : ∀ name, S.Lacks table index name → misses table name)
    (answer : Query α → Tree α → β) (args : List Arg) :
    Honest S misses (iterate answer table index args) fun _ => True := by
  refine .read fun t hs hS => (Honest.lift fun e he => ?_).bind fun _ _ =>
    (Honest.count _).bind fun _ _ => .pure trivial
  subst hS
  exact hs.honest_lookup hv hmisses he

theorem honest_applyPlans (object : Option α) {plans : List IndexPlan}
    (hpaths : ∀ p ∈ plans, indexPath tableName p.index ∈ S.paths) :
    Honest S misses (applyPlans tableName object plans) fun _ => True := by
  induction plans with
  | nil => exact .pure trivial
  | cons p ps ih =>
    have hfirst : Honest S misses (editIndex tableName p.index fun d => (p.apply object d, ()))
        fun _ => True :=
      .edit (hpaths p List.mem_cons_self) fun d => ⟨p.edits object, p.apply_eq object d⟩
    exact hfirst.bind fun _ _ => ih fun q hq => hpaths q (List.mem_cons_of_mem p hq)

/-! ## Writes -/

/-- Plans for the indexes of a table are for declared indexes. -/
theorem mem_paths_of_plans (ht : S.table? tableName = some ts) {plans : List IndexPlan}
    (hplans : plans.map IndexPlan.index = ts.indexes.keys) (p : IndexPlan) (hp : p ∈ plans) :
    indexPath tableName p.index ∈ S.paths := by
  rcases Txn.exists_index hplans hp with ⟨i, hi⟩
  exact Schema.mem_paths ht hi

theorem honest_insert (hv : S.validate = .ok ()) (object : α) :
    Honest S misses (insert tableName object) fun _ => True := by
  refine honest_ensureWrite.bind fun _ _ => honest_table.bind fun ts ht => ?_
  refine (Honest.lift fun _ => honest_primaryKey hv ht).bind fun primary _ => ?_
  refine (honest_stored hv ht primary).bind fun existing _ => ?_
  refine (Honest.lift fun _ => honest_planInsert).bind fun plans hplans => ?_
  have hpaths := mem_paths_of_plans ht (TableSchema.planInsert_spec hplans).1
  refine (honest_applyPlans (some object) hpaths).bind fun _ _ => ?_
  exact (Honest.log _ _ _ _).bind fun _ _ => .count _

theorem honest_remove (ht : S.table? tableName = some ts) (primary : Key) (object : α)
    (bulk : Option (String × Key)) :
    Honest S misses (remove tableName ts primary object bulk) fun _ => True := by
  refine (Honest.lift fun _ => honest_planRemove).bind fun plans hplans => ?_
  have hpaths := mem_paths_of_plans ht (TableSchema.index_planRemove hplans)
  refine (honest_applyPlans none hpaths).bind fun _ _ => ?_
  exact (Honest.log _ _ _ _).bind fun _ _ => .count _

theorem honest_removeEach (ht : S.table? tableName = some ts) (bulk : Option (String × Key))
    (objects : List (Key × α)) :
    Honest S misses (removeEach tableName ts bulk objects) fun _ => True := by
  induction objects with
  | nil => exact .pure trivial
  | cons x xs ih => exact (honest_remove ht x.1 x.2 bulk).bind fun _ _ => ih

theorem honest_delete (hv : S.validate = .ok ()) (object : α) :
    Honest S misses (delete tableName object) fun _ => True := by
  refine honest_ensureWrite.bind fun _ _ => honest_table.bind fun ts ht => ?_
  refine (Honest.lift fun _ => honest_primaryKey hv ht).bind fun primary _ => ?_
  refine (honest_stored hv ht primary).bind fun existing _ => ?_
  cases existing with
  | none =>
    refine .throw ?_
    rintro table index ⟨⟩
  | some old => exact honest_remove ht primary old none

theorem honest_deleteAll (hv : S.validate = .ok ()) {index : String}
    (hmisses : ∀ name, S.Lacks tableName index name → misses tableName name) (args : List Arg) :
    Honest S misses (deleteAll tableName index args) fun _ => True := by
  refine honest_ensureWrite.bind fun _ _ => ?_
  refine (honest_iterate hv hmisses _ args).bind fun found _ => ?_
  refine honest_table.bind fun ts ht => ?_
  refine (Honest.lift fun _ => honest_distinct hv ht).bind fun objects _ => ?_
  exact (honest_removeEach ht none objects).bind fun _ _ => .pure trivial

theorem honest_deleteStem (hv : S.validate = .ok ()) {index : String}
    (hmisses : ∀ name, S.Lacks tableName index name → misses tableName name) (args : List Arg) :
    Honest S misses (deleteStem tableName index args) fun _ => True := by
  have hrest : Honest S misses (do
      let query ← lift ((← txn).schema.resolve tableName index args)
      let found ← all tableName index args
      if found.objects.isEmpty then return false
      let schema ← table tableName
      let objects ← lift (schema.distinct tableName [] found.objects)
      removeEach tableName schema (some (query.name, query.key)) objects
      editIndex tableName query.name fun d => d.eraseStem query.key) fun _ => True := by
    refine .read fun t _ hS => ?_
    subst hS
    refine (Honest.lift fun _ => honest_resolve hv hmisses).bind fun query hquery => ?_
    refine (honest_iterate hv hmisses _ args).bind fun found _ => ?_
    split
    · exact .pure trivial
    · refine honest_table.bind fun ts ht => ?_
      refine (Honest.lift fun _ => honest_distinct hv ht).bind fun objects _ => ?_
      refine (honest_removeEach ht _ objects).bind fun _ _ => ?_
      rcases Schema.resolve_spec hquery with ⟨ts', ht', hi⟩
      exact .edit (Schema.mem_paths ht' hi) fun d => ⟨[.eraseStem query.key], rfl⟩
  refine honest_ensureWrite.bind fun _ _ => ?_
  split
  · have hstem : Error.Honest misses (.notStemIndex index) := by rintro table index' ⟨⟩
    exact (Honest.throw (Q := fun _ => True) hstem).bind fun _ _ => hrest
  · exact hrest

/-- A write fails for a missing index only if it queries one that is not declared. -/
theorem honest_write (hv : S.validate = .ok ()) (w : Write α) :
    Honest S (fun table index => ∃ asked, w.query? = some (table, asked) ∧
      S.Lacks table asked index) (write w) fun _ => True := by
  cases w with
  | insert table object => exact honest_insert hv object
  | delete table object => exact honest_delete hv object
  | deleteStem table index args =>
    exact (honest_deleteStem hv (fun _ h => ⟨index, rfl, h⟩) args).bind fun _ _ => .pure trivial
  | deleteAll table index args =>
    exact (honest_deleteAll hv (fun _ h => ⟨index, rfl, h⟩) args).bind fun _ _ => .pure trivial

/-- A query fails for a missing index only if it asks for one that is not declared. -/
theorem honest_scan (hv : S.validate = .ok ()) (scan : Scan) (table asked : String)
    (args : List Arg) :
    Honest S (fun table' index => table' = table ∧ S.Lacks table asked index)
      (scan.run table asked args) fun _ => True := by
  have hmisses (name : String) (h : S.Lacks table asked name) :
      table = table ∧ S.Lacks table asked name := ⟨rfl, h⟩
  cases scan with
  | first | last =>
    exact (honest_lookup hv hmisses _ args).bind fun _ _ => .pure trivial
  | all | allDown | atLeast | atMost =>
    exact (honest_iterate hv hmisses _ args).bind fun _ _ => .pure trivial

end TxnM

end SnapStore
