import SnapStore.Proofs.Engine.Atomic
import SnapStore.Proofs.Engine.Ends
import SnapStore.Proofs.Engine.Rows
import SnapStore.Proofs.Index.Identifiers
import SnapStore.Sample.Ship

/-! # Queries for identifiers in a run

In an index over identifiers that is not unique, the primary key stands behind the sixteen bytes of
an identifier. A query with a key of sixteen bytes or less tells identifiers by how they start. A
longer key, which some arguments give, goes on into the primary key, and finds an object by
accident.

Main statement: `identifiers_found`.
-/

namespace SnapStore.Engine

variable {α : Type} {actions : List (Action α)} {id : Nat} {t : Txn α}

/-- Take any transaction of any run that has not ended, in stores whose indexes have different
paths, and an index over identifiers. An object has the bytes of its identifier as its key, and
arguments are read as `IdentifierIndex.Reads` says. If stored keys carry the primary key, a query
that is understood lists the objects of the rows where the identifier starts with the key of the
query, and those of the rows where this key goes on behind the identifier, into the primary key.
There is none of the latter if the key has at most 16 bytes. -/
theorem identifiers_found
    (hnd : ∀ schema settings, .create schema settings ∈ actions → schema.paths.Nodup)
    (ht : (performAll {} actions).txns[id]? = some t) (hactive : t.state = .active)
    {table name : String} {ts : TableSchema α} {i : IndexSchema α} {get : α → Option Uuid}
    (hts : t.schema.table? table = some ts) (hi : (name, i) ∈ ts.indexes)
    (hover : i.indexer = .single (IdentifierIndex.field get)) :
    let s : Engine α := performAll {} actions
    let held (u : Uuid) (p : Key) (o : α) : Prop :=
      get o = some u ∧ t.forest.value? table name (u.bytes ++ p) = some o
    (∀ o k, i.Derives o k ↔ ∃ u, get o = some u ∧ u.bytes = k) ∧
      IdentifierIndex.Reads i.indexer.args ∧
      (i.carriesPrimary = true → ∀ index args q, t.schema.resolve table index args = .ok q →
        q.name = name → ∃ objects, s.find id .all table index args = some (.ok objects) ∧
          (∀ o, o ∈ objects ↔ ∃ u p, held u p o ∧
            (q.key <+: u.bytes ∨ ∃ more, more ≠ [] ∧ q.key = u.bytes ++ more ∧ more <+: p)) ∧
          (q.key.length ≤ 16 → ∀ o, o ∈ objects ↔ ∃ u p, held u p o ∧ q.key <+: u.bytes)) := by
  intro s held
  have hs : s.Sound := Sound.empty.performAll actions
  have ho : t.Orderly := orderly_performAll hnd ht
  have hreads : IdentifierIndex.Reads i.indexer.args := by
    rw [hover]
    exact IdentifierIndex.reads get
  refine ⟨fun o k => IdentifierIndex.derives_iff hover, hreads, ?_⟩
  intro hcarries index args q hq hqname
  subst hqname
  rcases hs.exists_tree ht hactive hq with ⟨tree, htree, hw, hfind⟩
  have hc := ho.consistent table ts hts
  have hlisted (o : α) : o ∈ (q.all tree).objects ↔ ∃ u p, held u p o ∧
      (q.key <+: u.bytes ∨ ∃ more, more ≠ [] ∧ q.key = u.bytes ++ more ∧ more <+: p) := by
    rw [Query.mem_objects_all hw]
    constructor
    · -- a key of the index is an identifier with a primary key behind
      rintro ⟨k, hstem, hk⟩
      rw [← Forest.value?_eq htree] at hk
      rcases hc.owned q.name i hi k o hk with ⟨p, _, hst⟩
      rcases (IndexSchema.stores_iff_append hcarries).1 hst with ⟨d, hd, rfl⟩
      rcases (IdentifierIndex.derives_iff hover).1 hd with ⟨u, hu, rfl⟩
      exact ⟨u, p, ⟨hu, hk⟩, Key.isPrefix_append_iff.1 hstem⟩
    · rintro ⟨u, p, ⟨_, hk⟩, hkey⟩
      refine ⟨u.bytes ++ p, Key.isPrefix_append_iff.2 hkey, ?_⟩
      rwa [← Forest.value?_eq htree]
  refine ⟨(q.all tree).objects, hfind .all, hlisted, fun hshort o => ?_⟩
  rw [hlisted]
  -- a key that goes on behind an identifier is longer than this
  refine exists_congr fun u => exists_congr fun p => and_congr_right fun _ => or_iff_left ?_
  rintro ⟨more, hne, hkey, _⟩
  have hmore := List.length_pos_iff.2 hne
  rw [hkey, List.length_append, u.length_bytes] at hshort
  omega

/-- The text of an identifier finds the ships of its owner, whatever the case of its digits. -/
theorem identifiers_found_ships :
    let owner : Uuid := .ofNat 0xab
    let ship : Ship := { code := "abc", owner := some owner }
    let other : Ship := { code := "xyz", owner := some (.ofNat 0xac) }
    let actions : List (Action Ship) :=
      [.create Ship.schema {}, .requestWrite 0, .acquireWrite 0,
        .write 0 (.insert Ship.ships ship), .write 0 (.insert Ship.ships other)]
    let s : Engine Ship := performAll {} actions
    let args := [Arg.text "00000000-0000-0000-0000-0000000000AB"]
    let q : Query Ship := ⟨"owner", Ship.byOwner, owner.bytes, false⟩
    (∀ schema settings, .create schema settings ∈ actions → schema.paths.Nodup) ∧
      ∃ t, s.txns[0]? = some t ∧ t.state = .active ∧
        t.schema.table? Ship.ships = some Ship.table ∧
        t.schema.resolve Ship.ships "owner" args = .ok q ∧ q.key.length ≤ 16 ∧
        IdentifierIndex.Reads Ship.byOwner.indexer.args ∧
        s.find 0 .all Ship.ships "owner" args = some (.ok [ship]) ∧
        ∀ o, o ∈ [ship] ↔ ∃ u p, (o.owner = some u ∧
          t.forest.value? Ship.ships "owner" (u.bytes ++ p) = some o) ∧ q.key <+: u.bytes := by
  intro owner ship other actions s args q
  have hnd (schema : Schema Ship) (settings : Settings) (h : .create schema settings ∈ actions) :
      schema.paths.Nodup := by
    rw [Action.schema_of_mem (by simp) h]
    decide +kernel
  have hopen : s.txns[0]?.map Txn.state = some .active := by decide +kernel
  rcases Option.map_eq_some_iff.1 hopen with ⟨t, ht, hactive⟩
  have hschema : t.schema = Ship.schema := schema_of_create (by decide +kernel) (by simp) ht
  have hts : t.schema.table? Ship.ships = some Ship.table := by
    rw [hschema]
    rfl
  have hq : t.schema.resolve Ship.ships "owner" args = .ok q := by
    rw [hschema]
    rfl
  have hi : ("owner", Ship.byOwner) ∈ Ship.table.indexes := by simp [Ship.table]
  have hlisted : s.find 0 .all Ship.ships "owner" args = some (.ok [ship]) := by decide +kernel
  rcases identifiers_found hnd ht hactive hts hi rfl with ⟨_, hreads, hfinds⟩
  rcases hfinds rfl "owner" args q hq rfl with ⟨objects, hobjects, _, hshort⟩
  obtain rfl : [ship] = objects :=
    Except.ok.inj (Option.some.inj (hlisted.symm.trans hobjects))
  have hlength : q.key.length ≤ 16 := by decide
  exact ⟨hnd, t, ht, hactive, hts, hq, hlength, hreads, hlisted, hshort hlength⟩

/-- Text of the same length, with digits where its hyphens would be, is read as two bytes more than
an identifier has. It finds a ship by how its code starts, as bytes do that are given for a stem. -/
theorem identifiers_run_on :
    let owner : Uuid := .ofNat 7
    let ship : Ship := { code := "abc", owner := some owner }
    let actions : List (Action Ship) :=
      [.create Ship.schema {}, .requestWrite 0, .acquireWrite 0,
        .write 0 (.insert Ship.ships ship)]
    let find (index : String) (arg : Arg) :=
      (performAll {} actions : Engine Ship).find 0 .all Ship.ships index [arg]
    Ship.byOwner.indexer.args.key [.text "000000000000000000000000000000076162"] =
        .ok (owner.bytes ++ Key.ofText "ab") ∧
      find "owner" (.text "000000000000000000000000000000076162") = some (.ok [ship]) ∧
      find "owner" (.text "000000000000000000000000000000077879") = some (.ok []) ∧
      find "owner_prefix" (.bytes (owner.bytes ++ Key.ofText "abc")) = some (.ok [ship]) := by
  decide +kernel

end SnapStore.Engine
