import SnapStore.Proofs.Engine.History
import SnapStore.Sample.Page

/-! # Who stands under a key

Under each stored key of an index there is room for one object. A write fills the key if it
inserts an object with that stored key. It clears the key if it removes or replaces an object
with that stored key, whoever stands there. Between these, the entry stays.

Main statements: `Written.entry_iff` (what one write does to an entry),
`History.Leads.entry_iff` (the latest insertion under a key decides, unless the key was cleared
since) and `Chronicle.tenure_unique`.
-/

namespace SnapStore

variable {α : Type}

namespace Deed

/-- The write inserted the object, and it has the stored key. -/
def Fills (d : Deed α) (table : String) (ts : TableSchema α) (i : IndexSchema α) (k : Key) (o : α) :
    Prop :=
  d.write = .insert table o ∧ ∃ p, ts.primaryKey table o = .ok p ∧ i.Stores o p k

/-- The write removed or replaced an object that had the stored key. -/
def Clears (d : Deed α) (table : String) (i : IndexSchema α) (k : Key) : Prop :=
  ∃ p old, d.before.value? table primaryName p = some old ∧
    d.after.value? table primaryName p ≠ some old ∧ i.Stores old p k

end Deed

/-! ## One write -/

namespace Txn

variable {t t' : Txn α} {w : Write α} {table name : String} {ts : TableSchema α}
  {i : IndexSchema α} {k : Key} {o x : α}

/-- A removal clears the stored keys of the objects it takes. -/
theorem Loses.clears_iff (h : t.Orderly) (ht : t.schema.table? table = some ts)
    {gone : List (Key × α)}
    (hgone : ∀ p o, (p, o) ∈ gone → t.forest.value? table primaryName p = some o)
    (hloses : t.Loses t' table ts gone none) :
    Deed.Clears ⟨w, t.forest, t'.forest⟩ table i k ↔ ∃ y ∈ gone, i.Stores y.2 y.1 k := by
  have hstock := hloses.value?_primary h ht hgone
  constructor
  · rintro ⟨p, old, hold, hnew, hst⟩
    have hmem : (p, old) ∈ gone := by
      refine Classical.byContradiction fun hnot => hnew ?_
      exact (hstock p old).2 ⟨hold, hnot⟩
    exact ⟨(p, old), hmem, hst⟩
  · rintro ⟨⟨p, old⟩, hmem, hst⟩
    exact ⟨p, old, hgone p old hmem, fun hnew => ((hstock p old).1 hnew).2 hmem, hst⟩

/-- A removal keeps an entry unless it clears the key. -/
theorem Loses.entry_iff (h : t.Orderly) (ht : t.schema.table? table = some ts)
    (hi : (name, i) ∈ ts.indexes) {gone : List (Key × α)}
    (hgone : ∀ p o, (p, o) ∈ gone → t.forest.value? table primaryName p = some o)
    (hloses : t.Loses t' table ts gone none) :
    t'.forest.value? table name k = some x ↔
      t.forest.value? table name k = some x ∧
        ¬ Deed.Clears ⟨w, t.forest, t'.forest⟩ table i k := by
  rw [hloses.entries name i hi k x, hloses.clears_iff h ht hgone]
  refine and_congr_right fun _ => ?_
  constructor
  · rintro hall ⟨y, hy, hst⟩
    rcases hall y hy hst with ⟨stem, hnone, _⟩
    simp at hnone
  · intro hnot y hy hst
    exact absurd ⟨y, hy, hst⟩ hnot

/-- An insertion that does not fill the key keeps the entry unless it clears the key. -/
theorem Takes.entry_iff (h : t.Orderly) (ht : t.schema.table? table = some ts)
    (hi : (name, i) ∈ ts.indexes) {p : Key} (hp : ts.primaryKey table o = .ok p)
    (htakes : t.Takes t' table ts p o) (hfree : ¬ i.Stores o p k) :
    t'.forest.value? table name k = some x ↔
      t.forest.value? table name k = some x ∧
        ¬ Deed.Clears ⟨w, t.forest, t'.forest⟩ table i k := by
  have hstock := htakes.value?_primary h ht hp
  rw [htakes.entries name i hi k x]
  simp only [hfree, false_and, false_or, not_false_eq_true, true_and]
  refine and_congr_right fun _ => ?_
  constructor
  · rintro hall ⟨p', old, hold, hnew, hst⟩
    rw [hstock p'] at hnew
    split at hnew
    · rename_i heq
      subst heq
      exact hall old hold hst
    · exact hnew hold
  · intro hnot old hold hst
    refine hnot ⟨p, old, hold, ?_, hst⟩
    -- the same object stored again would have the key itself
    rw [hstock p, if_pos rfl]
    rintro heq
    obtain rfl := Option.some.inj heq
    exact hfree hst

/-- A write that does not fill a key keeps the entry under it unless it clears the key. -/
theorem Written.entry_iff (hw : t.Written t' w) (h : t.Orderly)
    (ht : t.schema.table? table = some ts) (hi : (name, i) ∈ ts.indexes)
    (hfree : ∀ o, ¬ Deed.Fills ⟨w, t.forest, t'.forest⟩ table ts i k o) :
    t'.forest.value? table name k = some x ↔
      t.forest.value? table name k = some x ∧
        ¬ Deed.Clears ⟨w, t.forest, t'.forest⟩ table i k := by
  rcases hw.cases_table ht with ⟨p, o, rfl, hp, htakes⟩ | ⟨gone, hgone, hloses⟩ | hsame
  · exact htakes.entry_iff h ht hi hp fun hst => hfree o ⟨rfl, p, hp, hst⟩
  · exact hloses.entry_iff h ht hi hgone
  · -- a write to another table clears nothing here
    have hspares : ¬ Deed.Clears ⟨w, t.forest, t'.forest⟩ table i k := by
      rintro ⟨p, old, hold, hnew, _⟩
      rcases h.exists_id ht with ⟨id, hid⟩
      exact hnew ((hsame primaryName id (TableSchema.mem_primary hid) p).trans hold)
    rw [hsame name i hi]
    exact (and_iff_left hspares).symm

/-- The object that fills a key stands under it. -/
theorem Written.entry_of_fills (hw : t.Written t' w) (ht : t.schema.table? table = some ts)
    (hi : (name, i) ∈ ts.indexes) (hfills : Deed.Fills ⟨w, t.forest, t'.forest⟩ table ts i k o) :
    t'.forest.value? table name k = some o := by
  rcases hfills with ⟨rfl, p, hp, hst⟩
  cases hw with
  | insert ht' hp' htakes =>
    rw [ht] at ht'
    obtain rfl := Option.some.inj ht'
    rw [hp] at hp'
    obtain rfl := Except.ok.inj hp'
    exact (htakes.entries name i hi k o).2 (.inl ⟨hst, rfl⟩)

end Txn

/-! ## Whole histories -/

namespace History.Leads

variable {s : Schema α} {h : History α} {F : Forest α} {table name : String} {ts : TableSchema α}
  {i : IndexSchema α} {k : Key} {o : α}

/-- Every deed of a history is a write that succeeded. -/
theorem exists_written (hl : Leads s h F) {d : Deed α} (hd : d ∈ h) :
    ∃ t t' : Txn α, t.schema = s ∧ t.Orderly ∧ t.Written t' d.write ∧
      d = ⟨d.write, t.forest, t'.forest⟩ := by
  induction hl with
  | nil hF => cases hd
  | cons hs ho hw hl ih =>
    rcases List.mem_cons.1 hd with rfl | hd
    · exact ⟨_, _, hs, ho, hw, rfl⟩
    · exact ih hd

/-- The latest insertion under a key decides who stands there, unless the key was cleared
since. -/
theorem entry_iff (ht : s.table? table = some ts) (hi : (name, i) ∈ ts.indexes)
    {later earlier : History α} {d : Deed α} (hl : Leads s (later ++ d :: earlier) F)
    (hfills : d.Fills table ts i k o)
    (hlatest : ∀ d' ∈ later, ∀ o', ¬ d'.Fills table ts i k o') :
    F.value? table name k = some o ↔ ∀ d' ∈ later, ¬ d'.Clears table i k := by
  induction later generalizing F with
  | nil =>
    cases hl with
    | cons hs ho hw _ =>
      rw [← hs] at ht
      simp [hw.entry_of_fills ht hi hfills]
  | cons d' later ih =>
    cases hl with
    | cons hs ho hw hl =>
      -- the last write does not fill the key, so that it can only clear it
      have hrest := ih hl fun d'' hd'' => hlatest d'' (List.mem_cons_of_mem _ hd'')
      have hhead := hlatest _ List.mem_cons_self
      rw [← hs] at ht
      rw [hw.entry_iff ho ht hi hhead, hrest, List.forall_mem_cons, and_comm]

end History.Leads

/-! ## Unique indexes -/

theorem IndexSchema.stores_iff_derives {i : IndexSchema α} (h : i.carriesPrimary = false) {o : α}
    {p k : Key} : i.Stores o p k ↔ i.Derives o k := by
  simp [Stores, storedKey, h]

/-- A query for one key of an index answers with the entry under the key. -/
theorem Query.first_of_isExact {q : Query α} (hexact : q.isExact = true) {F : Forest α}
    {table : String} {tree : Tree α} (htree : F (indexPath table q.name) = some tree) :
    (q.first tree).2 = F.value? table q.name q.key := by
  rw [Query.first, if_pos hexact, Tree.watch_snd, Forest.value?_eq htree]

/-- When an object loses its place in a unique index, along a history and at its end. -/
structure History.Tenure (h : History α) (F : Forest α) (table name : String) (ts : TableSchema α)
    (i : IndexSchema α) : Prop where
  /-- A deletion keeps an entry exactly if the deleted object does not derive its key, whoever
  stands there. -/
  delete : ∀ d ∈ h, ∀ o p old, d.write = .delete table o → ts.primaryKey table o = .ok p →
    d.before.value? table primaryName p = some old →
    ∀ k x, d.before.value? table name k = some x →
      (d.after.value? table name k = some x ↔ ¬ i.Derives old k)
  /-- An insertion takes the key that the new object derives. -/
  take : ∀ d ∈ h, ∀ o k, d.write = .insert table o → i.Derives o k →
    d.after.value? table name k = some o
  /-- An insertion keeps an entry under another key exactly if the object it replaces does not
  derive that key. -/
  insert : ∀ d ∈ h, ∀ o p, d.write = .insert table o → ts.primaryKey table o = .ok p →
    ∀ k x, d.before.value? table name k = some x → ¬ i.Derives o k →
      (d.after.value? table name k = some x ↔
        ∀ old, d.before.value? table primaryName p = some old → ¬ i.Derives old k)
  /-- A query for a key finds the object of the latest insertion that derived the key exactly if
  no write since then has removed or replaced an object that derived the key. -/
  latest : ∀ later d earlier o, h = later ++ d :: earlier → d.write = .insert table o →
    ∀ q : Query α, q.name = name → q.index = i → q.isExact = true → i.Derives o q.key →
    (∀ d' ∈ later, ∀ o', d'.write = .insert table o' → ¬ i.Derives o' q.key) →
    ∃ tree, F (indexPath table name) = some tree ∧
      ((q.first tree).2 = some o ↔ ∀ d' ∈ later, ¬ d'.Clears table i q.key)

namespace History.Leads

variable {s : Schema α} {h : History α} {F : Forest α} {table name : String} {ts : TableSchema α}
  {i : IndexSchema α} {d : Deed α} {o : α} {p k : Key}

/-- A deletion in a history takes the object that was stored. -/
theorem exists_loses (hl : Leads s h F) (hd : d ∈ h) (ht : s.table? table = some ts)
    (hw : d.write = .delete table o) (hp : ts.primaryKey table o = .ok p) :
    ∃ t t' : Txn α, t.schema = s ∧ t.Orderly ∧ d = ⟨.delete table o, t.forest, t'.forest⟩ ∧
      ∃ old, t.forest.value? table primaryName p = some old ∧
        t.Loses t' table ts [(p, old)] none := by
  rcases hl.exists_written hd with ⟨t, t', hs, ho, hwritten, hdeed⟩
  rw [hw] at hwritten hdeed
  refine ⟨t, t', hs, ho, hdeed, ?_⟩
  cases hwritten with
  | delete ht' hp' hold hloses =>
    rw [hs, ht] at ht'
    obtain rfl := Option.some.inj ht'
    rw [hp] at hp'
    obtain rfl := Except.ok.inj hp'
    exact ⟨_, hold, hloses⟩

/-- An insertion in a history made the indexes take the object. -/
theorem exists_takes (hl : Leads s h F) (hd : d ∈ h) (ht : s.table? table = some ts)
    (hw : d.write = .insert table o) :
    ∃ (t t' : Txn α) (p : Key), t.schema = s ∧ d = ⟨.insert table o, t.forest, t'.forest⟩ ∧
      ts.primaryKey table o = .ok p ∧ t.Takes t' table ts p o := by
  rcases hl.exists_written hd with ⟨t, t', hs, _, hwritten, hdeed⟩
  rw [hw] at hwritten hdeed
  cases hwritten with
  | insert ht' hp' htakes =>
    rw [hs, ht] at ht'
    obtain rfl := Option.some.inj ht'
    exact ⟨t, t', _, hs, hdeed, hp', htakes⟩

/-- In a unique index over single keys, the deeds of a history decide who stands where. -/
theorem tenure (hl : Leads s h F) (hwf : F.Wf s) (ht : s.table? table = some ts)
    (hi : (name, i) ∈ ts.indexes) (hcarries : i.carriesPrimary = false) :
    h.Tenure F table name ts i := by
  have hstores (o : α) (p k : Key) : i.Stores o p k ↔ i.Derives o k :=
    IndexSchema.stores_iff_derives hcarries
  constructor
  case delete =>
    intro d hd o p old hw hp hold k x hx
    rcases hl.exists_loses hd ht hw hp with ⟨t, t', rfl, ho, rfl, old', hold', hloses⟩
    obtain rfl : old = old' := Option.some.inj (hold.symm.trans hold')
    have hgone : ∀ p' o', (p', o') ∈ [(p, old)] →
        t.forest.value? table primaryName p' = some o' := by simpa using hold'
    have hiff := hloses.entry_iff (w := .delete table o) (k := k) (x := x) ho ht hi hgone
    have hbefore : t.forest.value? table name k = some x := hx
    rw [hloses.clears_iff ho ht hgone] at hiff
    refine hiff.trans ?_
    simp [hbefore, hstores]
  case take =>
    intro d hd o k hw hk
    rcases hl.exists_takes hd ht hw with ⟨t, t', p, rfl, rfl, hp, htakes⟩
    exact (htakes.entries name i hi k o).2 (.inl ⟨(hstores o p k).2 hk, rfl⟩)
  case insert =>
    intro d hd o p hw hp k x hx hk
    rcases hl.exists_takes hd ht hw with ⟨t, t', p', rfl, rfl, hp', htakes⟩
    obtain rfl : p = p' := Except.ok.inj (hp.symm.trans hp')
    have hbefore : t.forest.value? table name k = some x := hx
    refine (htakes.entries name i hi k x).trans ?_
    simp [hstores, hk, hbefore]
  case latest =>
    intro later d earlier o heq hw q hname hindex hexact hk hlatest
    subst hname heq
    rcases hwf.exists_tree (Schema.mem_paths ht hi) with ⟨tree, htree, _⟩
    obtain ⟨_, _, p, _, _, hp, _⟩ :=
      hl.exists_takes (List.mem_append_right later List.mem_cons_self) ht hw
    have hfills : d.Fills table ts i q.key o := ⟨hw, p, hp, (hstores o p q.key).2 hk⟩
    refine ⟨tree, htree, ?_⟩
    rw [Query.first_of_isExact hexact htree]
    refine entry_iff ht hi hl hfills ?_
    rintro d' hd' o' ⟨hw', p', _, hst⟩
    exact hlatest d' hd' o' hw' ((hstores o' p' q.key).1 hst)

end History.Leads

namespace Chronicle

/-- Who stands under a key of a unique index is not a matter of who is stored, but of the
history: in all contents that a run leads to, an entry stays exactly until its key is taken, or
an object that derives the key is removed or replaced, be it the one that stands there or
not. -/
theorem tenure_unique {actions : List (Action α)}
    (hnd : ∀ schema settings, .create schema settings ∈ actions → schema.paths.Nodup)
    {schema : Schema α} {F : Forest α} {h : History α}
    (hshows : (performAll {} actions).Shows schema F h) {table name : String} {ts : TableSchema α}
    {i : IndexSchema α} (ht : schema.table? table = some ts) (hi : (name, i) ∈ ts.indexes)
    (hunique : i.unique = true) (hsingle : i.indexer.isSingle = true) :
    h.Tenure F table name ts i := by
  have hcarries : i.carriesPrimary = false := by
    simp [IndexSchema.carriesPrimary, hunique, hsingle]
  exact (hshows.leads hnd).tenure hshows.wf ht hi hcarries

/-- Two pages with the same slug, of which the first is deleted. -/
theorem tenure_unique_pages :
    let actions : List (Action Page) :=
      [.create Page.schema {}, .requestWrite 0, .acquireWrite 0,
        .write 0 (.insert Page.pages { path := "/a", slug := "one" }),
        .write 0 (.insert Page.pages { path := "/b", slug := "one" }),
        .write 0 (.delete Page.pages { path := "/a" })]
    (∀ schema settings, .create schema settings ∈ actions → schema.paths.Nodup) ∧
      Page.schema.table? Page.pages = some Page.table ∧
      ("slug", Page.bySlug) ∈ Page.table.indexes ∧ Page.bySlug.unique = true ∧
      Page.bySlug.indexer.isSingle = true ∧
      ∃ F h, (performAll {} actions).Shows Page.schema F h ∧
        h.Tenure F Page.pages "slug" Page.table Page.bySlug := by
  intro actions
  have hcreate {schema : Schema Page} {settings : Settings}
      (h : .create schema settings ∈ actions) : schema = Page.schema := by
    simp only [actions, List.mem_cons, List.not_mem_nil, reduceCtorEq, or_false,
      Action.create.injEq] at h
    exact h.1
  have hnd (schema : Schema Page) (settings : Settings) (h : .create schema settings ∈ actions) :
      schema.paths.Nodup := by
    rw [hcreate h]
    decide +kernel
  have hi : ("slug", Page.bySlug) ∈ Page.table.indexes := .tail _ (.head _)
  have htxn : (performAll {} actions).engine.txns[0]?.isSome = true := by decide +kernel
  rcases Option.isSome_iff_exists.1 htxn with ⟨t, ht⟩
  have hshows : (performAll {} actions).Shows t.schema t.forest ((performAll {} actions).seen 0) :=
    .inr ⟨0, t, ht, rfl, rfl, rfl⟩
  rcases hshows.recorded hnd with ⟨⟨settings, hmem⟩, _⟩
  rw [hcreate hmem] at hshows
  exact ⟨hnd, rfl, hi, rfl, rfl, _, _, hshows, tenure_unique hnd hshows rfl hi rfl rfl⟩

end Chronicle

/-- A deletion takes another page's place: the second page is stored and has the slug, and its
insertion was the latest one with this slug, but once the first page is deleted, the query for
the slug finds nothing. -/
theorem Engine.slug_lost :
    let before : List (Action Page) :=
      [.create Page.schema {}, .requestWrite 0, .acquireWrite 0,
        .write 0 (.insert Page.pages { path := "/a", slug := "one" }),
        .write 0 (.insert Page.pages { path := "/b", slug := "one" })]
    let after := before ++ [.write 0 (.delete Page.pages { path := "/a" })]
    let bySlug (actions : List (Action Page)) :=
      ((performAll {} actions).run 0 (TxnM.first Page.pages "slug" [.text "one"])).map
        fun x => x.1.map Prod.snd
    let byPath (actions : List (Action Page)) :=
      ((performAll {} actions).run 0 (TxnM.first Page.pages primaryName [.text "/b"])).map
        fun x => x.1.map Prod.snd
    bySlug before = some (.ok (some { path := "/b", slug := "one" })) ∧
      byPath after = some (.ok (some { path := "/b", slug := "one" })) ∧
      bySlug after = some (.ok none) := by
  decide +kernel

end SnapStore
