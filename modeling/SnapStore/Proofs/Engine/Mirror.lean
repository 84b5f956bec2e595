import SnapStore.Proofs.Engine.History
import SnapStore.Sample.Page

/-! # Every index mirrors its table

The ledger of a history is what the writes of the history ought to leave behind: for each
primary key the object that was inserted last and not deleted since. As long as no two
stored objects share a stored key, every index of every reachable contents holds the stored
keys of the objects in the ledger, and nothing else.

Main statements: `Chronicle.mirrors_ledger` and `Chronicle.throughout_apart`.
-/

namespace SnapStore

variable {α : Type}

/-- What the writes of a history leave behind. -/
def Ledger.of (s : Schema α) : History α → Ledger α
  | [] => fun _ _ => none
  | d :: h => (Ledger.of s h).after s d.write

/-- The indexes hold exactly what is in the ledger: the primary index of a table maps primary
keys to objects, and every index has the stored keys of these objects, each once and
ascending, with the object under each. -/
structure Forest.Mirrors (F : Forest α) (s : Schema α) (L : Ledger α) : Prop where
  primaryKey : ∀ table ts p o, s.table? table = some ts → L table p = some o →
    ts.primaryKey table o = .ok p
  primary : ∀ table ts, s.table? table = some ts →
    ∃ tree, F (indexPath table primaryName) = some tree ∧ ∀ p, tree.get? p = L table p
  indexes : ∀ table ts name i, s.table? table = some ts → (name, i) ∈ ts.indexes →
    ∃ tree, F (indexPath table name) = some tree ∧ tree.leaves.Pairwise (·.key < ·.key) ∧
      ∀ k o, (∃ leaf ∈ tree.leaves, leaf.key = k ∧ leaf.value = o) ↔
        ∃ p, L table p = some o ∧ i.Stores o p k

namespace Forest

variable {F : Forest α} {s : Schema α} {L : Ledger α}

theorem exact_empty (hF : ∀ table index key, F.value? table index key = none) :
    F.Exact s fun _ _ => none := by
  refine ⟨fun table ts _ p => hF table primaryName p, fun table ts name i _ _ p o k hp => ?_⟩
  rw [hF] at hp
  cases hp

/-- Where the indexes miss nothing, hold nothing else and are in order, they mirror the
ledger. -/
theorem Exact.mirrors (h : F.Exact s L) (htidy : F.Tidy s) (hwf : F.Wf s)
    (hvalid : s.validate = .ok ()) : F.Mirrors s L := by
  have hstock (table : String) (ts : TableSchema α) (ht : s.table? table = some ts) (p : Key) :=
    h.stock table ts ht p
  refine ⟨fun table ts p o ht hp => ?_, fun table ts ht => ?_, fun table ts name i ht hi => ?_⟩
  · rw [← hstock table ts ht p] at hp
    exact (htidy.consistent table ts ht).primaryKey p o hp
  · rcases Schema.exists_primary hvalid ht with ⟨id, hid, _⟩
    rcases hwf.exists_tree (Schema.mem_paths ht (TableSchema.mem_primary hid)) with ⟨tree, htree, _⟩
    refine ⟨tree, htree, fun p => ?_⟩
    rw [← hstock table ts ht p, Forest.value?_eq htree]
  · rcases hwf.exists_tree (Schema.mem_paths ht hi) with ⟨tree, htree, hw⟩
    refine ⟨tree, htree, hw.pairwise_leaves, fun k o => ?_⟩
    have hentry : (∃ leaf ∈ tree.leaves, leaf.key = k ∧ leaf.value = o) ↔
        F.value? table name k = some o := by
      rw [Forest.value?_eq htree, hw.get?_eq_some_iff]
    rw [hentry]
    constructor
    · -- nothing stale, nothing orphaned
      intro hk
      rcases (htidy.consistent table ts ht).owned name i hi k o hk with ⟨p, hp, hst⟩
      exact ⟨p, (hstock table ts ht p).symm.trans hp, hst⟩
    · -- nothing missing
      rintro ⟨p, hp, hst⟩
      exact h.complete table ts name i ht hi p o k ((hstock table ts ht p).trans hp) hst

end Forest

namespace Chronicle

/-- Every index mirrors its table. Take any run over stores whose index paths differ, such that
at no time two objects stored in a store or in a transaction share a stored key. Then in the
end, the indexes of every store and of every transaction hold exactly what their writes left
behind. -/
theorem mirrors_ledger {actions : List (Action α)}
    (hnd : ∀ schema settings, .create schema settings ∈ actions → schema.paths.Nodup)
    (hapart : Throughout actions fun schema F _ => F.Apart schema)
    {schema : Schema α} {F : Forest α} {h : History α}
    (hshows : (performAll {} actions).Shows schema F h) :
    F.Mirrors schema (Ledger.of schema h) := by
  have hbears := holds_performAll (R := fun schema F h => F.Exact schema (Ledger.of schema h)) hnd
    hapart (fun schema settings F _ hF => Forest.exact_empty hF)
    (by
      intro id t t' w h _ horderly hwritten hbefore hafter hexact
      have hschema : t'.schema = t.schema := hwritten.evolves.schema_eq
      rw [hschema] at hafter ⊢
      exact hexact.written horderly hbefore hwritten hafter)
  rcases hshows.of_bears hbears with ⟨htidy, hexact⟩
  exact hexact.mirrors htidy hshows.wf hshows.valid

end Chronicle

/-! ## Runs without shared keys -/

namespace Schema

/-- Where an object stands in the indexes of a table: their names, with its stored keys. -/
def places (s : Schema α) (table : String) (o : α) : List (String × Key) :=
  match s.table? table with
  | none => []
  | some ts =>
    match ts.primaryKey table o with
    | .error _ => []
    | .ok p => ts.indexes.flatMap fun (name, i) =>
      match i.storedKeys table name o p with
      | .error _ => []
      | .ok keys => keys.map fun key => (name, key)

theorem mem_places {s : Schema α} {table name : String} {ts : TableSchema α} {i : IndexSchema α}
    {o : α} {p k : Key} (ht : s.table? table = some ts) (hi : (name, i) ∈ ts.indexes)
    (hp : ts.primaryKey table o = .ok p) (hst : i.Stores o p k) : (name, k) ∈ s.places table o := by
  have haccepts : i.Accepts o := by
    rcases hst with ⟨d, ⟨keys, hkeys, _⟩, _⟩
    exact ⟨keys, hkeys⟩
  obtain ⟨keys, hkeys⟩ : ∃ keys, i.storedKeys table name o p = .ok keys :=
    IndexSchema.exists_storedKeys haccepts
  have hk : k ∈ keys := ((IndexSchema.mem_storedKeys hkeys).2 k).2 hst
  simp only [places, ht, hp, List.mem_flatMap]
  refine ⟨(name, i), hi, ?_⟩
  simp only [hkeys]
  exact List.mem_map.2 ⟨k, hk, rfl⟩

/-- A place of an object is a stored key of it in one of the indexes. -/
theorem exists_stores_of_mem_places {s : Schema α} {table name : String} {o : α} {k : Key}
    (h : (name, k) ∈ s.places table o) :
    ∃ ts p i, s.table? table = some ts ∧ ts.primaryKey table o = .ok p ∧ (name, i) ∈ ts.indexes ∧
      i.Stores o p k := by
  unfold places at h
  cases ht : s.table? table with
  | none => simp [ht] at h
  | some ts =>
    cases hp : ts.primaryKey table o with
    | error e => simp [ht, hp] at h
    | ok p =>
      simp only [ht, hp, List.mem_flatMap] at h
      rcases h with ⟨⟨name', i⟩, hi, hk⟩
      cases hkeys : i.storedKeys table name' o p with
      | error e => simp [hkeys] at hk
      | ok keys =>
        simp only [hkeys, List.mem_map, Prod.mk.injEq] at hk
        rcases hk with ⟨key, hkey, rfl, rfl⟩
        exact ⟨ts, p, i, rfl, hp, hi, ((IndexSchema.mem_storedKeys hkeys).2 key).1 hkey⟩

end Schema

namespace Chronicle

/-- Where no two objects that a run inserts with different primary keys share a place, no two
stored objects ever share a stored key. -/
theorem throughout_apart {actions : List (Action α)}
    (hnd : ∀ schema settings, .create schema settings ∈ actions → schema.paths.Nodup)
    (hplaces : ∀ schema settings, .create schema settings ∈ actions → ∀ table id o id' o',
      .write id (.insert table o) ∈ actions → .write id' (.insert table o') ∈ actions →
      schema.primaryKey? table o ≠ schema.primaryKey? table o' →
      ∀ place ∈ schema.places table o, place ∉ schema.places table o') :
    Throughout actions fun schema F _ => F.Apart schema := by
  intro run hrun schema F h hshows
  have hsub {x : Action α} (hx : x ∈ run) : x ∈ actions := hrun.subset hx
  have hndrun (schema : Schema α) (settings : Settings) (hmem : .create schema settings ∈ run) :
      schema.paths.Nodup := hnd schema settings (hsub hmem)
  rcases hshows.recorded hndrun with ⟨⟨settings, hcreate⟩, hdeeds⟩
  intro table ts name i ht hi p o p' o' k hp hp' hst hst'
  have hconsistent := (hshows.tidy hndrun).consistent table ts ht
  have hkey : ts.primaryKey table o = .ok p := hconsistent.primaryKey p o hp
  have hkey' : ts.primaryKey table o' = .ok p' := hconsistent.primaryKey p' o' hp'
  -- both objects were inserted by the run
  rcases (hshows.leads hndrun).exists_insert ht hp with ⟨d, hd, hw⟩
  rcases (hshows.leads hndrun).exists_insert ht hp' with ⟨d', hd', hw'⟩
  rcases hdeeds d hd with ⟨id, hid⟩
  rcases hdeeds d' hd' with ⟨id', hid'⟩
  rw [hw] at hid
  rw [hw'] at hid'
  refine Classical.byContradiction fun hne => ?_
  have hother : schema.primaryKey? table o ≠ schema.primaryKey? table o' := by
    simpa [Schema.primaryKey?_eq ht hkey, Schema.primaryKey?_eq ht hkey'] using hne
  exact hplaces schema settings (hsub hcreate) table id o id' o' (hsub hid) (hsub hid') hother
    (name, k) (Schema.mem_places ht hi hkey hst) (Schema.mem_places ht hi hkey' hst')

/-- Two pages share a title and a tag but no stored key. One of them is stored again with
other keys, the other one is deleted, and a second writer deletes by tag and gives up. -/
theorem mirrors_ledger_pages :
    let first : Page := { path := "/a", slug := "one", title := "Page", tags := ["new", "top"] }
    let second : Page := { path := "/b", slug := "two", title := "Page", tags := ["top"] }
    let again : Page := { path := "/a", slug := "three", tags := ["top", "old"] }
    let actions : List (Action Page) :=
      [.create Page.schema {}, .requestWrite 0, .acquireWrite 0,
        .write 0 (.insert Page.pages first), .write 0 (.insert Page.pages second),
        .write 0 (.insert Page.pages again), .write 0 (.delete Page.pages second), .commit 0,
        .requestWrite 0, .acquireWrite 0,
        .write 1 (.deleteAll Page.pages "tags" [.text "top"]), .abort 1]
    (∀ schema settings, .create schema settings ∈ actions → schema.paths.Nodup) ∧
      (Throughout actions fun schema F _ => F.Apart schema) ∧
      ∃ schema F h, (performAll {} actions).Shows schema F h ∧
        F.Mirrors schema (Ledger.of schema h) := by
  intro first second again actions
  have hcreate {schema : Schema Page} {settings : Settings}
      (h : .create schema settings ∈ actions) : schema = Page.schema := by
    simp only [actions, List.mem_cons, List.not_mem_nil, reduceCtorEq, or_false,
      Action.create.injEq] at h
    exact h.1
  have hinsert {table : String} {id : Nat} {o : Page}
      (h : .write id (.insert table o) ∈ actions) :
      table = Page.pages ∧ (o = first ∨ o = second ∨ o = again) := by
    simp only [actions, List.mem_cons, List.not_mem_nil, reduceCtorEq, or_false, false_or,
      Action.write.injEq, Write.insert.injEq, and_false] at h
    rcases h with ⟨_, ht, rfl⟩ | ⟨_, ht, rfl⟩ | ⟨_, ht, rfl⟩ <;> simp [ht]
  have hnd (schema : Schema Page) (settings : Settings) (h : .create schema settings ∈ actions) :
      schema.paths.Nodup := by
    rw [hcreate h]
    decide +kernel
  have hapart : Throughout actions fun schema F _ => F.Apart schema := by
    refine throughout_apart hnd fun schema settings hmem table id o id' o' ho ho' hne => ?_
    obtain rfl := hcreate hmem
    rcases hinsert ho with ⟨rfl, hpage⟩
    rcases hinsert ho' with ⟨_, hpage'⟩
    have hkeys : Page.schema.primaryKey? Page.pages first =
        Page.schema.primaryKey? Page.pages again := by decide +kernel
    have hfirst : ∀ place ∈ Page.schema.places Page.pages first,
        place ∉ Page.schema.places Page.pages second := by decide +kernel
    have hagain : ∀ place ∈ Page.schema.places Page.pages again,
        place ∉ Page.schema.places Page.pages second := by decide +kernel
    rcases hpage with rfl | rfl | rfl <;> rcases hpage' with rfl | rfl | rfl
    · exact absurd rfl hne
    · exact hfirst
    · exact absurd hkeys hne
    · exact fun place hplace hin => hfirst place hin hplace
    · exact absurd rfl hne
    · exact fun place hplace hin => hagain place hin hplace
    · exact absurd hkeys.symm hne
    · exact hagain
    · exact absurd rfl hne
  have hstore : (performAll {} actions).engine.stores[0]?.isSome = true := by decide +kernel
  rcases Option.isSome_iff_exists.1 hstore with ⟨st, hst⟩
  have hshows : (performAll {} actions).Shows st.schema st.root.get?
      ((performAll {} actions).kept 0) := .inl ⟨0, st, hst, rfl, rfl, rfl⟩
  exact ⟨hnd, hapart, _, _, _, hshows, mirrors_ledger hnd hapart hshows⟩

end Chronicle

end SnapStore
