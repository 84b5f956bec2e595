import SnapStore.Proofs.Engine.Ends
import SnapStore.Proofs.Index.Folding
import SnapStore.Sample.Ship

/-! # Stems of texts in a run

A query for the stem of a text finds the objects with texts that start with it. In an index that
folds case it misses a text if folding turns the last capital sigma of the argument into a final
sigma, which the text as a whole does not have.

Main statement: `stems_find_texts`.
-/

namespace SnapStore.Engine

variable {α : Type} {actions : List (Action α)} {id : Nat} {t : Txn α}

/-- Take any transaction of any run that has not ended, and an index of a table over texts, of which
an object may hold one or several, with case folded or not. A query for the stem of a text succeeds.
Now let an object hold a text that goes on from this one. Its key and its stored key start with the
stem, unless case is folded and a final sigma is lost. Whenever they do, the query lists every
object that stands under such a stored key. -/
theorem stems_find_texts (ht : (performAll {} actions).txns[id]? = some t)
    (hactive : t.state = .active) {table name : String} {ts : TableSchema α} {i : IndexSchema α}
    (hts : t.schema.table? table = some ts) (hi : Catalog.find? ts.indexes name = some i)
    (hname : Catalog.find? ts.indexes (name ++ stemSuffix) = none) {fold : Bool}
    {texts : α → List String} (hover : i.indexer.IsOverTexts fold texts) (stem : String) :
    let s : Engine α := performAll {} actions
    ∃ bytes objects, i.indexer.args.stem? [.text stem] = some (.ok bytes) ∧
      s.find id .all table (name ++ stemSuffix) [.text stem] = some (.ok objects) ∧
      ∀ o rest, stem ++ rest ∈ texts o → stem ++ rest ≠ "" → ∃ derived, i.Derives o derived ∧
        derived = TextIndex.key fold (stem ++ rest) ∧
        (bytes <+: derived ↔ (fold && Lowercase.losesFinal stem rest) = false) ∧
        ∀ primary, t.forest.value? table name (i.storedKey derived primary) = some o →
          (bytes <+: i.storedKey derived primary ↔
            (fold && Lowercase.losesFinal stem rest) = false) ∧
          ((fold && Lowercase.losesFinal stem rest) = false → o ∈ objects) := by
  intro s
  have hs : s.Sound := Sound.empty.performAll actions
  have hq := Schema.resolve_stem hts hi hname (List.cons_ne_nil _ []) (hover.stem?_text stem)
  rcases hs.exists_tree ht hactive hq with ⟨tree, htree, hw, hfind⟩
  refine ⟨_, _, hover.stem?_text stem, hfind .all, fun o rest hmem hne => ?_⟩
  rcases hover.exists_keys o with ⟨keys, hkeys, hiff⟩
  refine ⟨_, ⟨keys, hkeys, (hiff _).2 ⟨_, hmem, hne, rfl⟩⟩, rfl, ?_, fun primary hentry => ?_⟩
  · simpa using TextIndex.stem_isPrefix_iff fold stem rest []
  · -- a stored key may carry the primary key behind
    have hstored : TextIndex.stem fold stem <+:
        i.storedKey (TextIndex.key fold (stem ++ rest)) primary ↔
          (fold && Lowercase.losesFinal stem rest) = false := by
      rw [IndexSchema.storedKey]
      split
      · exact TextIndex.stem_isPrefix_iff fold stem rest primary
      · simpa using TextIndex.stem_isPrefix_iff fold stem rest []
    refine ⟨hstored, fun hkeeps => (Query.mem_objects_all hw).2 ⟨_, hstored.2 hkeeps, ?_⟩⟩
    rwa [← Forest.value?_eq htree]

/-- The first letters of a name find the ship, whose name is in capitals. -/
theorem stems_find_texts_ships :
    let ship : Ship := { code := "a", name := "ΟΔΥΣΣΕΥΣ" }
    let actions : List (Action Ship) :=
      [.create Ship.schema {}, .requestWrite 0, .acquireWrite 0,
        .write 0 (.insert Ship.ships ship)]
    let s : Engine Ship := performAll {} actions
    ∃ t objects, s.txns[0]? = some t ∧ t.state = .active ∧
      t.schema.table? Ship.ships = some Ship.table ∧
      Catalog.find? Ship.table.indexes "name" = some Ship.byName ∧
      Catalog.find? Ship.table.indexes ("name" ++ stemSuffix) = none ∧
      Ship.byName.indexer.IsOverTexts true (fun x => (some x.name).toList) ∧
      Ship.byName.indexer.args.stem? [.text "ΟΔΥ"] = some (.ok (Key.ofText "οδυ")) ∧
      Key.ofText "οδυ" <+: TextIndex.key true "ΟΔΥΣΣΕΥΣ" ∧
      s.find 0 .all Ship.ships ("name" ++ stemSuffix) [.text "ΟΔΥ"] = some (.ok objects) ∧
      ship ∈ objects := by
  intro ship actions s
  have hopen : s.txns[0]?.map Txn.state = some .active := by decide +kernel
  rcases Option.map_eq_some_iff.1 hopen with ⟨t, ht, hactive⟩
  have hts : t.schema.table? Ship.ships = some Ship.table := by
    have hschema : t.schema = Ship.schema := schema_of_create (by decide +kernel) (by simp) ht
    rw [hschema]
    rfl
  have hentry : t.forest.value? Ship.ships "name"
      (Ship.byName.storedKey (TextIndex.key true "ΟΔΥΣΣΕΥΣ") (Key.ofText "a" ++ [0])) =
        some ship := by
    have hheld : (s.txns[0]?.map fun t => t.forest.value? Ship.ships "name"
        (Ship.byName.storedKey (TextIndex.key true "ΟΔΥΣΣΕΥΣ") (Key.ofText "a" ++ [0]))) =
          some (some ship) := by decide +kernel
    rw [ht] at hheld
    exact Option.some.inj hheld
  have hkeeps : (true && Lowercase.losesFinal "ΟΔΥ" "ΣΣΕΥΣ") = false := by decide +kernel
  have hstem : Ship.byName.indexer.args.stem? [.text "ΟΔΥ"] = some (.ok (Key.ofText "οδυ")) := by
    decide +kernel
  have hi : Catalog.find? Ship.table.indexes "name" = some Ship.byName := rfl
  have hname : Catalog.find? Ship.table.indexes ("name" ++ stemSuffix) = none := rfl
  have hover : Ship.byName.indexer.IsOverTexts true fun x => (some x.name).toList := .single _
  rcases stems_find_texts ht hactive hts hi hname hover "ΟΔΥ" with
    ⟨bytes, objects, hbytes, hfind, hfinds⟩
  obtain rfl : Key.ofText "οδυ" = bytes :=
    Except.ok.inj (Option.some.inj (hstem.symm.trans hbytes))
  rcases hfinds ship "ΣΣΕΥΣ" (by simp [ship]) (by decide) with ⟨_, _, rfl, hderived, hrow⟩
  exact ⟨t, objects, ht, hactive, hts, hi, hname, hover, hbytes, hderived.2 hkeeps, hfind,
    (hrow _ hentry).2 hkeeps⟩

/-- One letter more is a sigma, which is a final one in the argument and not in the name. The query
finds nothing. -/
theorem stems_miss_final_sigma :
    let ship : Ship := { code := "a", name := "ΟΔΥΣΣΕΥΣ" }
    let actions : List (Action Ship) :=
      [.create Ship.schema {}, .requestWrite 0, .acquireWrite 0,
        .write 0 (.insert Ship.ships ship)]
    let find (stem : String) := (performAll {} actions : Engine Ship).find 0 .all Ship.ships
      ("name" ++ stemSuffix) [.text stem]
    ship.name = "ΟΔΥΣ" ++ "ΣΕΥΣ" ∧ Lowercase.losesFinal "ΟΔΥΣ" "ΣΕΥΣ" = true ∧
      ¬ TextIndex.stem true "ΟΔΥΣ" <+: TextIndex.key true ship.name ∧
      find "ΟΔΥ" = some (.ok [ship]) ∧ find "ΟΔΥΣ" = some (.ok []) := by
  decide +kernel

end SnapStore.Engine
