import SnapStore.Proofs.Engine.Ends
import SnapStore.Proofs.Engine.Rows
import SnapStore.Sample.Station

/-! # What a compound finds

A compound that allows missing parts cuts the key of an object before the first facet that has no
value. In an index that is not unique the primary key follows at once, and stands where the keys of
the missing facets would be. A query with an argument for each facet finds the objects that match
all arguments, and those that stray.

Main statement: `Chronicle.compound_finds_iff`.
-/

namespace SnapStore

variable {α : Type}

/-- The key of a query with an argument for each facet joins the keys of the arguments. -/
theorem Query.keysOf_key {s : Schema α} {table index : String} {args : List Arg} {q : Query α}
    (hq : s.resolve table index args = .ok q) (hstem : q.byStem = false) {facets : List (Facet α)}
    (hover : q.index.IsOver facets) (hlength : args.length = facets.length) :
    Facet.KeysOf facets args q.key := by
  cases args with
  | nil =>
    obtain rfl : facets = [] := List.length_eq_zero_iff.1 hlength.symm
    rw [Schema.key_of_resolve_nil hq]
    rfl
  | cons arg args => exact (hover.keysOf (Schema.key_of_resolve hq hstem (List.cons_ne_nil _ _))).2

namespace Chronicle

variable {actions : List (Action α)}

/-- What a compound finds. Take any run over stores whose index paths differ, and in a transaction
that has not ended a query of an index that is not unique, over a compound of facets that allows
missing parts, with one argument for each facet. The texts of the stored objects have no zero
characters. Then `first` finds the first object that `all` lists, and `all` lists those objects with
an entry in the index that match all arguments, or that stray. Under proper arguments, which give
one value each, an object that lacks none of the facets is listed only if it matches them all. -/
theorem compound_finds_iff
    (hnd : ∀ schema settings, .create schema settings ∈ actions → schema.paths.Nodup) {id : Nat}
    {t : Txn α} (ht : (performAll {} actions).engine.txns[id]? = some t)
    (hactive : t.state = .active) {table index : String} {args : List Arg} {ts : TableSchema α}
    (hts : t.schema.table? table = some ts) {q : Query α}
    (hq : t.schema.resolve table index args = .ok q) (hstem : q.byStem = false)
    (hshared : q.index.unique = false) {facets : List (Facet α)}
    (hcompound : q.index.indexer =
      .single (CompoundIndex.single (facets.map Facet.indexer) true))
    (hlength : args.length = facets.length)
    (hplain : ∀ p o, t.forest.value? table primaryName p = some o →
      ∀ facet ∈ facets, facet.Plain o) :
    let s := (performAll {} actions).engine
    ∃ objects, s.find id .all table index args = some (.ok objects) ∧
      s.find id .first table index args = some (.ok objects.head?.toList) ∧
      (∀ o, o ∈ objects ↔ ∃ p d, t.forest.Holds table ts p o ∧ q.index.Derives o d ∧
        t.forest.value? table q.name (d ++ p) = some o ∧
        (List.Forall₂ (Facet.Matches o) facets args ∨ Facet.Strays o p facets args)) ∧
      (List.Forall₂ Facet.Proper facets args → ∀ o ∈ objects,
        (∀ facet ∈ facets, ¬ facet.Missing o) → List.Forall₂ (Facet.Matches o) facets args) := by
  intro s
  have hs : s.Sound := sound_performAll actions
  rcases hs.exists_tree ht hactive hq with ⟨tree, htree, hw, hfind⟩
  have hcarries : q.index.carriesPrimary = true := by simp [IndexSchema.carriesPrimary, hshared]
  have hkeys : Facet.KeysOf facets args q.key :=
    Query.keysOf_key hq hstem (.compound hcompound) hlength
  have hshows : (performAll {} actions).Shows t.schema t.forest ((performAll {} actions).seen id) :=
    .inr ⟨id, t, ht, rfl, rfl, rfl⟩
  have hconsistent := (hshows.tidy hnd).consistent table ts hts
  obtain ⟨ts', hts', hi⟩ := Schema.resolve_spec hq
  obtain rfl : ts = ts' := Option.some.inj (hts.symm.trans hts')
  -- a stored key starts with the key of the query exactly if the object matches or strays
  have hstarts {o : α} {p d : Key} (hp : t.forest.value? table primaryName p = some o)
      (hd : q.index.Derives o d) : q.key <+: d ++ p ↔
        List.Forall₂ (Facet.Matches o) facets args ∨ Facet.Strays o p facets args :=
    Facet.isPrefix_append_iff hkeys ((IndexSchema.derives_compound hcompound).1 hd).1 hlength
      (hplain p o hp) p
  have hmem (o : α) : o ∈ (q.all tree).objects ↔ ∃ p d, t.forest.Holds table ts p o ∧
      q.index.Derives o d ∧ t.forest.value? table q.name (d ++ p) = some o ∧
      (List.Forall₂ (Facet.Matches o) facets args ∨ Facet.Strays o p facets args) := by
    simp only [Query.mem_objects_all hw, ← Forest.value?_eq htree]
    constructor
    · rintro ⟨k, hpre, hentry⟩
      rcases hconsistent.owned q.name q.index hi k o hentry with ⟨p, hp, hst⟩
      rcases (IndexSchema.stores_iff_append hcarries).1 hst with ⟨d, hd, rfl⟩
      exact ⟨p, d, ⟨hconsistent.primaryKey p o hp, hp⟩, hd, hentry, (hstarts hp hd).1 hpre⟩
    · rintro ⟨p, d, ⟨_, hp⟩, hd, hentry, hfound⟩
      exact ⟨d ++ p, (hstarts hp hd).2 hfound, hentry⟩
  refine ⟨(q.all tree).objects, hfind .all, ?_, hmem, fun hproper o ho hpresent => ?_⟩
  · have hlong : ¬ q.isExact = true := by simp [Query.isExact, hcarries]
    rw [← Query.first_of_not_isExact hlong]
    exact hfind .first
  · rcases (hmem o).1 ho with ⟨p, d, _, _, _, hmatch | hstrays⟩
    · exact hmatch
    · rcases hstrays.exists_missing hproper with ⟨facet, hfacet, hmissing⟩
      exact absurd hmissing (hpresent facet hfacet)

/-- A station is found that matches the address, and before it one whose street is unknown and
whose code stands where the street would be. -/
theorem compound_finds_iff_stations :
    let cut : Station := { code := "y", city := "x" }
    let whole : Station := { code := "z", city := "x", street := "y" }
    let actions : List (Action Station) :=
      [.create Station.schema {}, .requestWrite 0, .acquireWrite 0,
        .write 0 (.insert Station.stations cut), .write 0 (.insert Station.stations whole)]
    let s := (performAll {} actions).engine
    let facets : List (Facet Station) := [.text (some ·.city) false, .text (some ·.street) false]
    let args : List Arg := [.text "x", .text "y"]
    ∃ t q, s.txns[0]? = some t ∧ t.state = .active ∧
      t.schema.resolve Station.stations "address" args = .ok q ∧ q.byStem = false ∧
      q.index.unique = false ∧ args.length = facets.length ∧
      s.find 0 .all Station.stations "address" args = some (.ok [cut, whole]) ∧
      s.find 0 .first Station.stations "address" args = some (.ok [cut]) ∧
      (∀ o, o ∈ [cut, whole] ↔ ∃ p d, t.forest.Holds Station.stations Station.table p o ∧
        q.index.Derives o d ∧ t.forest.value? Station.stations q.name (d ++ p) = some o ∧
        (List.Forall₂ (Facet.Matches o) facets args ∨ Facet.Strays o p facets args)) ∧
      List.Forall₂ (Facet.Matches whole) facets args := by
  intro cut whole actions s facets args
  have hcreate (schema : Schema Station) (settings : Settings)
      (h : .create schema settings ∈ actions) : schema = Station.schema :=
    Action.schema_of_mem (by simp) h
  have hpaths : Station.schema.paths.Nodup := by decide +kernel
  have hopen : s.txns[0]?.map (fun t => (t.state,
      (t.forest (indexPath Station.stations primaryName)).map (·.leaves.map Leaf.value))) =
        some (.active, some [cut, whole]) := by decide +kernel
  rcases Option.map_eq_some_iff.1 hopen with ⟨t, ht, hpair⟩
  rcases Prod.mk.inj hpair with ⟨hactive, hleaves⟩
  have hschema : t.schema = Station.schema := schema_of_creates hpaths hcreate ht
  have hts : t.schema.table? Station.stations = some Station.table := by
    rw [hschema]
    rfl
  have hq : t.schema.resolve Station.stations "address" args =
      .ok ⟨"address", Station.byAddress, [120, 0, 121, 0], false⟩ := by
    rw [hschema]
    rfl
  have hplain (p : Key) (o : Station)
      (hp : t.forest.value? Station.stations primaryName p = some o) :
      ∀ facet ∈ facets, facet.Plain o := by
    rcases Option.map_eq_some_iff.1 hleaves with ⟨tree, htree, hvalues⟩
    have hw : tree.Wf := by
      rcases (sound_performAll actions).txns 0 t ht with ⟨_, _, hf⟩
      exact hf.sound.wf_forest.tree _ tree htree
    have ho : o ∈ [cut, whole] := hvalues ▸ Forest.mem_values htree hw hp
    intro facet hfacet
    rcases List.mem_pair.1 ho with rfl | rfl <;> rcases List.mem_pair.1 hfacet with rfl | rfl <;>
      · rintro _ ⟨⟩
        decide
  have hnd (schema : Schema Station) (settings : Settings)
      (h : .create schema settings ∈ actions) : schema.paths.Nodup :=
    hcreate schema settings h ▸ hpaths
  have hall : s.find 0 .all Station.stations "address" args = some (.ok [cut, whole]) := by
    decide +kernel
  have hcompound : Station.byAddress.indexer =
      .single (CompoundIndex.single (facets.map Facet.indexer) true) := rfl
  rcases compound_finds_iff hnd ht hactive hts hq rfl rfl hcompound rfl hplain with
    ⟨objects, hfound, hfirst, hmem, hpresent⟩
  obtain rfl : [cut, whole] = objects := Except.ok.inj (Option.some.inj (hall.symm.trans hfound))
  have hproper : List.Forall₂ Facet.Proper facets args := by
    refine .cons ?_ (.cons ?_ .nil) <;>
      · rintro _ ⟨⟩
        decide
  refine ⟨t, _, ht, hactive, hq, rfl, rfl, rfl, hall, hfirst, hmem,
    hpresent hproper whole (.tail _ (.head _)) fun facet hfacet hmissing => ?_⟩
  rcases List.mem_pair.1 hfacet with rfl | rfl <;> cases hmissing

/-- The station alone is found under the address, though it has no street. -/
theorem compound_cut :
    let station : Station := { code := "y", city := "x" }
    let actions : List (Action Station) :=
      [.create Station.schema {}, .requestWrite 0, .acquireWrite 0,
        .write 0 (.insert Station.stations station)]
    let find (scan : Scan) := (performAll {} actions).engine.find 0 scan Station.stations "address"
      [.text "x", .text "y"]
    find .all = some (.ok [station]) ∧ find .first = some (.ok [station]) ∧
      (Facet.text (some ·.street) false : Facet Station).Missing station := by
  refine ⟨?_, ?_, rfl⟩
  · decide +kernel
  · decide +kernel

end Chronicle

end SnapStore
