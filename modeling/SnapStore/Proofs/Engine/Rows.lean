import SnapStore.Proofs.Engine.History
import SnapStore.Sample.Page

/-! # Rows

An index that is not unique, or that derives several keys from an object, has a row for each
stored object and each key derived from it. The key of a row is the derived key with the
primary key at its end. Nothing stands between the two, so that two rows have the same key if
bytes that end the derived key of one begin the primary key of the other.

Main statements: `Chronicle.rows_iff_apart` and `Chronicle.rows_of_length`.
-/

namespace SnapStore

variable {α : Type}

theorem IndexSchema.stores_iff_append {i : IndexSchema α} (h : i.carriesPrimary = true) {o : α}
    {p k : Key} : i.Stores o p k ↔ ∃ d, i.Derives o d ∧ k = d ++ p := by
  simp [Stores, storedKey, h]

namespace Forest

/-- An index has a row for each stored object and each key derived from it, and no other
entry. -/
structure Rows (F : Forest α) (table name : String) (i : IndexSchema α) : Prop where
  each : ∀ p o d, F.value? table primaryName p = some o → i.Derives o d →
    F.value? table name (d ++ p) = some o
  only : ∀ k o, F.value? table name k = some o →
    ∃ p d, F.value? table primaryName p = some o ∧ i.Derives o d ∧ k = d ++ p

/-- Two stored objects have rows with the same key: the bytes `e` begin the primary key of one
and end a derived key of the other. -/
def Overlaps (F : Forest α) (table : String) (i : IndexSchema α) : Prop :=
  ∃ p d e o o', e ≠ [] ∧ F.value? table primaryName (e ++ p) = some o ∧ i.Derives o d ∧
    F.value? table primaryName p = some o' ∧ i.Derives o' (d ++ e)

variable {F : Forest α} {table name : String} {ts : TableSchema α} {i : IndexSchema α}

/-- Rows are what an index misses nothing of. -/
theorem Consistent.rows_iff_complete (h : F.Consistent table ts) (hi : (name, i) ∈ ts.indexes)
    (hcarries : i.carriesPrimary = true) : F.Rows table name i ↔ F.Complete table name i := by
  constructor
  · intro hrows p o k hp hst
    rw [IndexSchema.stores_iff_append hcarries] at hst
    rcases hst with ⟨d, hd, rfl⟩
    exact hrows.each p o d hp hd
  · intro hcomplete
    constructor
    · intro p o d hp hd
      have hst : i.Stores o p (d ++ p) := (IndexSchema.stores_iff_append hcarries).2 ⟨d, hd, rfl⟩
      exact hcomplete p o (d ++ p) hp hst
    · intro k o hk
      rcases h.owned name i hi k o hk with ⟨p, hp, hst⟩
      rcases (IndexSchema.stores_iff_append hcarries).1 hst with ⟨d, hd, heq⟩
      exact ⟨p, d, hp, hd, heq⟩

/-- Stored keys are shared exactly where rows overlap. -/
theorem clean_iff_not_overlaps (hcarries : i.carriesPrimary = true) :
    F.Clean table i ↔ ¬ F.Overlaps table i := by
  have hstores (o : α) (p k : Key) : i.Stores o p k ↔ ∃ d, i.Derives o d ∧ k = d ++ p :=
    IndexSchema.stores_iff_append hcarries
  constructor
  · intro hclean hoverlaps
    rcases hoverlaps with ⟨p, d, e, o, o', hne, hp, hd, hp', hd'⟩
    have hst : i.Stores o (e ++ p) (d ++ e ++ p) :=
      (hstores _ _ _).2 ⟨d, hd, List.append_assoc d e p⟩
    have hst' : i.Stores o' p (d ++ e ++ p) := (hstores _ _ _).2 ⟨d ++ e, hd', rfl⟩
    have hsame : e ++ p = p := hclean (e ++ p) o p o' (d ++ e ++ p) hp hp' hst hst'
    exact hne (List.append_left_eq_self.1 hsame)
  · intro hapart p o p' o' k hp hp' hst hst'
    rcases (hstores _ _ _).1 hst with ⟨d, hd, rfl⟩
    rcases (hstores _ _ _).1 hst' with ⟨d', hd', heq⟩
    -- the longer derived key goes on into the primary key of the other object
    rcases List.append_eq_append_iff.1 heq with ⟨e, rfl, rfl⟩ | ⟨e, rfl, rfl⟩
    · have hnil : e = [] := Classical.byContradiction fun hne =>
        hapart ⟨p', d, e, o, o', hne, hp, hd, hp', hd'⟩
      rw [hnil, List.nil_append]
    · have hnil : e = [] := Classical.byContradiction fun hne =>
        hapart ⟨p, d', e, o', o, hne, hp', hd', hp, hd⟩
      rw [hnil, List.nil_append]

/-- An index that misses nothing has no shared keys: under one key there is room for one
object. -/
theorem Consistent.clean (h : F.Consistent table ts) (hc : F.Complete table name i) :
    F.Clean table i := by
  intro p o p' o' k hp hp' hst hst'
  have ho : F.value? table name k = some o := hc p o k hp hst
  have ho' : F.value? table name k = some o' := hc p' o' k hp' hst'
  have hsame : o = o' := Option.some.inj (ho.symm.trans ho')
  have hkey := h.primaryKey p o hp
  have hkey' := h.primaryKey p' o' hp'
  rw [hsame] at hkey
  exact Except.ok.inj (hkey.symm.trans hkey')

/-- Where all primary keys have the same length, no rows overlap. -/
theorem Consistent.not_overlaps (h : F.Consistent table ts) {n : Nat}
    (hlength : ∀ o p, ts.primaryKey table o = .ok p → p.length = n) : ¬ F.Overlaps table i := by
  intro hoverlaps
  rcases hoverlaps with ⟨p, d, e, o, o', hne, hp, _, hp', _⟩
  have hlong : (e ++ p).length = n := hlength o (e ++ p) (h.primaryKey _ o hp)
  have hshort : p.length = n := hlength o' p (h.primaryKey _ o' hp')
  have hpos : 0 < e.length := List.length_pos_iff.2 hne
  rw [List.length_append] at hlong
  omega

end Forest

namespace Chronicle

variable {actions : List (Action α)} {schema : Schema α} {table name : String}
  {ts : TableSchema α} {i : IndexSchema α}

/-- Where no rows overlap throughout a run, the index has all rows throughout. -/
theorem rows_of_apart
    (hnd : ∀ schema settings, .create schema settings ∈ actions → schema.paths.Nodup)
    (ht : schema.table? table = some ts) (hi : (name, i) ∈ ts.indexes)
    (hcarries : i.carriesPrimary = true)
    (hapart : Throughout actions fun s F _ => s = schema → ¬ F.Overlaps table i) :
    Throughout actions fun s F _ => s = schema → F.Rows table name i := by
  intro run hrun s F h hshows hs
  have hndrun (s : Schema α) (settings : Settings) (hmem : .create s settings ∈ run) :
      s.paths.Nodup := hnd s settings (hrun.subset hmem)
  have hapartrun : Throughout run fun s F _ => s = schema → ¬ F.Overlaps table i :=
    fun run' hrun' => hapart run' (hrun'.trans hrun)
  have hbears := holds_performAll (R := fun s F _ => s = schema → F.Complete table name i)
    hndrun hapartrun
    (by
      -- nothing is stored yet
      intro s settings F _ hF _ p o k hp _
      rw [hF] at hp
      cases hp)
    (by
      intro id t t' w h _ horderly hwritten hbefore hafter hcomplete hs'
      have hschema : t'.schema = t.schema := hwritten.evolves.schema_eq
      have hs : t.schema = schema := hschema.symm.trans hs'
      have ht' : t.schema.table? table = some ts := hs ▸ ht
      have hclean := (Forest.clean_iff_not_overlaps hcarries).2 (hbefore hs)
      have hclean' := (Forest.clean_iff_not_overlaps hcarries).2 (hafter hs')
      exact hwritten.complete horderly ht' hi hclean hclean' (hcomplete hs))
  rcases hshows.of_bears hbears with ⟨htidy, hcomplete⟩
  have hconsistent := htidy.consistent table ts (hs ▸ ht)
  exact (hconsistent.rows_iff_complete hi hcarries).2 (hcomplete hs)

/-- When rows clobber each other. Take any run over stores whose index paths differ, and an
index that is not unique or derives several keys from an object. Throughout the run it has a
row for each stored object and each key derived from it, if and only if never in the run bytes
that end a derived key of a stored object begin the primary key of another stored object in
such a way that the rest is a derived key and a primary key of theirs. -/
theorem rows_iff_apart
    (hnd : ∀ schema settings, .create schema settings ∈ actions → schema.paths.Nodup)
    (ht : schema.table? table = some ts) (hi : (name, i) ∈ ts.indexes)
    (hshared : i.unique = false ∨ i.indexer.isSingle = false) :
    (Throughout actions fun s F _ => s = schema → F.Rows table name i) ↔
      Throughout actions fun s F _ => s = schema → ¬ F.Overlaps table i := by
  have hcarries : i.carriesPrimary = true := by
    simpa [IndexSchema.carriesPrimary, or_comm] using hshared
  constructor
  · intro hrows run hrun s F h hshows hs
    have hndrun (s : Schema α) (settings : Settings) (hmem : .create s settings ∈ run) :
        s.paths.Nodup := hnd s settings (hrun.subset hmem)
    have hconsistent := (hshows.tidy hndrun).consistent table ts (hs ▸ ht)
    have hcomplete := (hconsistent.rows_iff_complete hi hcarries).1 (hrows run hrun s F h hshows hs)
    exact (Forest.clean_iff_not_overlaps hcarries).1 (hconsistent.clean hcomplete)
  · intro hapart
    exact rows_of_apart hnd ht hi hcarries hapart

/-- Two pages share a title, and a page with the same path replaces one of them. -/
theorem rows_iff_apart_pages :
    let actions : List (Action Page) :=
      [.create Page.schema {}, .requestWrite 0, .acquireWrite 0,
        .write 0 (.insert Page.pages { path := "/a", title := "Page" }),
        .write 0 (.insert Page.pages { path := "/b", title := "Page" }),
        .write 0 (.insert Page.pages { path := "/a", title := "Other" }), .commit 0]
    (∀ schema settings, .create schema settings ∈ actions → schema.paths.Nodup) ∧
      Page.schema.table? Page.pages = some Page.table ∧
      ("title", Page.byTitle) ∈ Page.table.indexes ∧
      (Page.byTitle.unique = false ∨ Page.byTitle.indexer.isSingle = false) ∧
      ((Throughout actions fun s F _ =>
          s = Page.schema → F.Rows Page.pages "title" Page.byTitle) ↔
        Throughout actions fun s F _ =>
          s = Page.schema → ¬ F.Overlaps Page.pages Page.byTitle) := by
  intro actions
  have hnd (schema : Schema Page) (settings : Settings) (h : .create schema settings ∈ actions) :
      schema.paths.Nodup := by
    simp only [actions, List.mem_cons, List.not_mem_nil, reduceCtorEq, or_false,
      Action.create.injEq] at h
    rw [h.1]
    decide +kernel
  have ht : Page.schema.table? Page.pages = some Page.table := rfl
  have hi : ("title", Page.byTitle) ∈ Page.table.indexes := .tail _ (.tail _ (.tail _ (.head _)))
  have hshared : Page.byTitle.unique = false ∨ Page.byTitle.indexer.isSingle = false := .inl rfl
  exact ⟨hnd, ht, hi, hshared, rows_iff_apart hnd ht hi hshared⟩

/-- The zero byte that closes a title may as well stand inside it, so that the second page
takes the row of the first one: both are stored, but the index over titles has one row. -/
theorem row_lost :
    let first : Page := { path := "b\u0000c", title := "a" }
    let second : Page := { path := "c", title := "a\u0000b" }
    let actions : List (Action Page) :=
      [.create Page.schema {}, .requestWrite 0, .acquireWrite 0,
        .write 0 (.insert Page.pages first), .write 0 (.insert Page.pages second)]
    let rows (index : String) :=
      ((Engine.performAll {} actions).run 0 (TxnM.all Page.pages index [])).map
        fun x => x.1.map Results.objects
    rows primaryName = some (.ok [first, second]) ∧ rows "title" = some (.ok [second]) := by
  decide +kernel

/-- Where all primary keys of a table have the same length, its indexes always have all
rows. -/
theorem rows_of_length
    (hnd : ∀ schema settings, .create schema settings ∈ actions → schema.paths.Nodup)
    (ht : schema.table? table = some ts) (hi : (name, i) ∈ ts.indexes)
    (hcarries : i.carriesPrimary = true) {n : Nat}
    (hlength : ∀ o p, ts.primaryKey table o = .ok p → p.length = n) :
    Throughout actions fun s F _ => s = schema → F.Rows table name i := by
  refine rows_of_apart hnd ht hi hcarries ?_
  intro run hrun s F h hshows hs
  have hndrun (s : Schema α) (settings : Settings) (hmem : .create s settings ∈ run) :
      s.paths.Nodup := hnd s settings (hrun.subset hmem)
  have hconsistent := (hshows.tidy hndrun).consistent table ts (hs ▸ ht)
  exact hconsistent.not_overlaps hlength

end Chronicle

end SnapStore
