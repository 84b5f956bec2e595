import SnapStore.Proofs.Transaction.Bulk

/-! # What the indexes of a table hold

The primary index of a table is the map from primary keys to stored objects: an insertion
sets one key of it, a removal takes keys out. The other indexes hold nothing but keys of
stored objects. They hold all of these keys as long as no two stored objects share one.

Main statements: `Takes.consistent` and `Loses.consistent` (nothing stale is left), and
`Takes.complete` and `Loses.complete` (an index without shared keys misses nothing).
-/

namespace SnapStore

variable {α : Type}

namespace Forest

/-- The index holds every stored object under each of its stored keys. -/
def Complete (F : Forest α) (table name : String) (i : IndexSchema α) : Prop :=
  ∀ p o k, F.value? table primaryName p = some o → i.Stores o p k → F.value? table name k = some o

/-- No two stored objects with different primary keys have a stored key in common. -/
def Clean (F : Forest α) (table : String) (i : IndexSchema α) : Prop :=
  ∀ p o p' o' k, F.value? table primaryName p = some o → F.value? table primaryName p' = some o' →
    i.Stores o p k → i.Stores o' p' k → p = p'

/-- No two stored objects of a table share a stored key in any index. -/
def Apart (F : Forest α) (s : Schema α) : Prop :=
  ∀ table ts name i, s.table? table = some ts → (name, i) ∈ ts.indexes → F.Clean table i

/-- Two forests whose indexes of a table hold the same are both consistent or neither. -/
theorem Consistent.congr {F F' : Forest α} {table : String} {ts : TableSchema α}
    (h : F.Consistent table ts) (hid : ∃ id, ts.primary? = some id)
    (heq : ∀ name i, (name, i) ∈ ts.indexes → ∀ k, F'.value? table name k = F.value? table name k) :
    F'.Consistent table ts := by
  rcases hid with ⟨id, hid⟩
  have hprimary := heq primaryName id (TableSchema.mem_primary hid)
  constructor
  · intro p o hp
    exact h.primaryKey p o (hprimary p ▸ hp)
  · intro p o hp
    exact h.accepts p o (hprimary p ▸ hp)
  · intro name i hi k o hk
    rcases h.owned name i hi k o (heq name i hi k ▸ hk) with ⟨p, hp, hst⟩
    exact ⟨p, (hprimary p).trans hp, hst⟩

end Forest

namespace Txn

variable {t t' : Txn α} {table : String} {ts : TableSchema α}

/-- In an orderly transaction the primary index has an object under its primary key. -/
theorem Orderly.stores_id_iff (h : t.Orderly) (ht : t.schema.table? table = some ts)
    {id : IndexSchema α} (hid : (primaryName, id) ∈ ts.indexes) {o : α} {p q k : Key}
    (hp : ts.primaryKey table o = .ok p) : id.Stores o q k ↔ k = p := by
  rcases Schema.exists_primary h.valid ht with ⟨id', hid', hunique, hsingle⟩
  obtain rfl : id = id' := by
    have hkeys := Schema.nodup_keys h.nodup ht
    have hfound := (Catalog.find?_eq_some_iff hkeys).2 hid
    exact Option.some.inj (hfound.symm.trans hid')
  rw [stores_primary_iff table hid' hunique hsingle, hp, Except.ok.injEq]
  exact eq_comm

theorem Orderly.exists_id (h : t.Orderly) (ht : t.schema.table? table = some ts) :
    ∃ id, ts.primary? = some id := by
  rcases Schema.exists_primary h.valid ht with ⟨id, hid, _⟩
  exact ⟨id, hid⟩

/-! ## Storing an object -/

section Takes

variable {p : Key} {o : α}

/-- The primary index holds the new object, and other objects as before. -/
theorem Takes.value?_primary (h : t.Orderly) (ht : t.schema.table? table = some ts)
    (hp : ts.primaryKey table o = .ok p) (htakes : t.Takes t' table ts p o) (p' : Key) :
    t'.forest.value? table primaryName p' =
      if p' = p then some o else t.forest.value? table primaryName p' := by
  rcases h.exists_id ht with ⟨id, hid⟩
  have hmem := TableSchema.mem_primary hid
  refine Option.ext fun x => ?_
  rw [htakes.entries primaryName id hmem p' x, h.stores_id_iff ht hmem hp]
  split
  · rename_i heq
    simp [heq, eq_comm]
  · rename_i hne
    simp only [hne, false_and, false_or, not_false_eq_true, true_and]
    refine and_iff_left fun old hold => ?_
    rwa [h.stores_id_iff ht hmem ((h.consistent table ts ht).primaryKey p old hold)]

/-- What an index holds after an insertion is the new object, or belongs to an object that
was not replaced. -/
theorem Takes.consistent (h : t.Orderly) (ht : t.schema.table? table = some ts)
    (hp : ts.primaryKey table o = .ok p) (htakes : t.Takes t' table ts p o) :
    t'.forest.Consistent table ts := by
  have hc := h.consistent table ts ht
  have hstock := htakes.value?_primary h ht hp
  constructor
  · intro p' x hx
    rw [hstock] at hx
    split at hx
    · rename_i heq
      obtain rfl := Option.some.inj hx
      rwa [heq]
    · exact hc.primaryKey p' x hx
  · intro p' x hx
    rw [hstock] at hx
    split at hx
    · obtain rfl := Option.some.inj hx
      exact htakes.accepts
    · exact hc.accepts p' x hx
  · intro name i hi k x hx
    rcases (htakes.entries name i hi k x).1 hx with ⟨hst, rfl⟩ | ⟨_, hold, hfree⟩
    · exact ⟨p, by rw [hstock, if_pos rfl], hst⟩
    · rcases hc.owned name i hi k x hold with ⟨p', hp', hst⟩
      -- the entries of the replaced object were taken out
      have hne : p' ≠ p := by
        rintro rfl
        exact hfree x hp' hst
      exact ⟨p', by rw [hstock, if_neg hne, hp'], hst⟩

/-- An index without shared keys misses nothing after an insertion if it missed nothing
before. -/
theorem Takes.complete (h : t.Orderly) (ht : t.schema.table? table = some ts)
    (hp : ts.primaryKey table o = .ok p) (htakes : t.Takes t' table ts p o) {name : String}
    {i : IndexSchema α} (hi : (name, i) ∈ ts.indexes) (hbefore : t.forest.Clean table i)
    (hafter : t'.forest.Clean table i) (hc : t.forest.Complete table name i) :
    t'.forest.Complete table name i := by
  have hstock := htakes.value?_primary h ht hp
  intro p' x k hx hst
  rw [htakes.entries name i hi k x]
  by_cases heq : p' = p
  · subst heq
    rw [hstock, if_pos rfl] at hx
    obtain rfl := Option.some.inj hx
    exact .inl ⟨hst, rfl⟩
  · -- an object that stays shares no key with the new one, nor with the one it replaces
    have hnew : ¬ i.Stores o p k := fun hst' =>
      heq (hafter p' x p o k hx (by rw [hstock, if_pos rfl]) hst hst')
    rw [hstock, if_neg heq] at hx
    have hold (old : α) (hold : t.forest.value? table primaryName p = some old) :
        ¬ i.Stores old p k := fun hst' => heq (hbefore p' x p old k hx hold hst hst')
    exact .inr ⟨hnew, hc p' x k hx hst, hold⟩

end Takes

/-! ## Removing objects -/

section Loses

variable {gone : List (Key × α)}

/-- The primary index holds the objects that were not removed. -/
theorem Loses.value?_primary (h : t.Orderly) (ht : t.schema.table? table = some ts)
    (hgone : ∀ p o, (p, o) ∈ gone → t.forest.value? table primaryName p = some o)
    (hloses : t.Loses t' table ts gone none) (p : Key) (x : α) :
    t'.forest.value? table primaryName p = some x ↔
      t.forest.value? table primaryName p = some x ∧ (p, x) ∉ gone := by
  rcases h.exists_id ht with ⟨id, hid⟩
  have hmem := TableSchema.mem_primary hid
  rw [hloses.entries primaryName id hmem p x]
  refine and_congr_right fun hx => ?_
  constructor
  · intro hall hm
    rcases hall (p, x) hm
      ((h.stores_id_iff ht hmem ((h.consistent table ts ht).primaryKey p x hx)).2 rfl)
        with ⟨stem, hnone, _⟩
    simp at hnone
  · intro hnot y hy hst
    have hy' := hgone y.1 y.2 hy
    obtain rfl := (h.stores_id_iff ht hmem ((h.consistent table ts ht).primaryKey _ _ hy')).1 hst
    rw [hx] at hy'
    obtain rfl : x = y.2 := Option.some.inj hy'
    exact absurd hy hnot

/-- What an index holds after a removal belongs to an object that was not removed. -/
theorem Loses.consistent (h : t.Orderly) (ht : t.schema.table? table = some ts)
    (hgone : ∀ p o, (p, o) ∈ gone → t.forest.value? table primaryName p = some o)
    (hloses : t.Loses t' table ts gone none) : t'.forest.Consistent table ts := by
  have hc := h.consistent table ts ht
  have hstock := hloses.value?_primary h ht hgone
  constructor
  · intro p x hx
    exact hc.primaryKey p x ((hstock p x).1 hx).1
  · intro p x hx
    exact hc.accepts p x ((hstock p x).1 hx).1
  · intro name i hi k x hx
    rcases (hloses.entries name i hi k x).1 hx with ⟨hold, hall⟩
    rcases hc.owned name i hi k x hold with ⟨p, hp, hst⟩
    refine ⟨p, (hstock p x).2 ⟨hp, fun hm => ?_⟩, hst⟩
    rcases hall (p, x) hm hst with ⟨stem, hnone, _⟩
    simp at hnone

/-- An index without shared keys misses nothing after a removal if it missed nothing
before. -/
theorem Loses.complete (h : t.Orderly) (ht : t.schema.table? table = some ts)
    (hgone : ∀ p o, (p, o) ∈ gone → t.forest.value? table primaryName p = some o)
    (hloses : t.Loses t' table ts gone none) {name : String} {i : IndexSchema α}
    (hi : (name, i) ∈ ts.indexes) (hbefore : t.forest.Clean table i)
    (hc : t.forest.Complete table name i) : t'.forest.Complete table name i := by
  intro p x k hx hst
  rcases (hloses.value?_primary h ht hgone p x).1 hx with ⟨hold, hnot⟩
  refine (hloses.entries name i hi k x).2 ⟨hc p x k hold hst, fun y hy hst' => ?_⟩
  have hy' := hgone y.1 y.2 hy
  -- a removed object with this key would be the one that stays
  obtain rfl := hbefore p x y.1 y.2 k hold hy' hst hst'
  rw [hold] at hy'
  obtain rfl : x = y.2 := Option.some.inj hy'
  exact absurd hy hnot

end Loses

end Txn

end SnapStore
