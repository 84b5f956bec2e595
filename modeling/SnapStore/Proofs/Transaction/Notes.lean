import SnapStore.Proofs.Transaction.Ledger

/-! # Change logs as net differences

A change log that has been kept since some moment holds the difference between the objects
stored then and those stored now, for the primary keys that were touched in between, each in
its first place. A write notes each primary key that it is about, with what stands there
before and after it.

Main statements: `ChangeLog.foldl_record`, `TxnM.notes_write` and `Logs.write`.
-/

namespace SnapStore

variable {α : Type}

/-! ## Lists without repeats -/

theorem nodup_eraseDups {β : Type} [BEq β] [LawfulBEq β] :
    ∀ xs : List β, xs.eraseDups.Nodup
  | [] => List.nodup_nil
  | x :: xs => by
    rw [List.eraseDups_cons, List.nodup_cons]
    refine ⟨fun hx => ?_, nodup_eraseDups (xs.filter fun y => !y == x)⟩
    simp at hx
  termination_by xs => xs.length
  decreasing_by exact Nat.lt_succ_of_le (List.length_filter_le _ _)

theorem eraseDups_concat {β : Type} [BEq β] [LawfulBEq β] [DecidableEq β] (xs : List β) (x : β) :
    (xs ++ [x]).eraseDups = if x ∈ xs then xs.eraseDups else xs.eraseDups ++ [x] := by
  rw [List.eraseDups_append]
  split
  · rename_i hx
    simp [List.removeAll, hx]
  · rename_i hx
    simp [List.removeAll, hx, List.eraseDups_cons]

/-! ## The difference of two ledgers -/

/-- What happened from one ledger to another to the object under a primary key of a table. -/
def Ledger.change (L L' : Ledger α) (place : String × Key) : Change α :=
  ⟨place.1, place.2, L place.1 place.2, L' place.1 place.2⟩

/-- The changes from one ledger to another under the given primary keys, each once and in the
order of their first mention. A key with no object in either ledger has none. -/
def Ledger.net (L L' : Ledger α) (places : List (String × Key)) : List (Change α) :=
  (places.eraseDups.filter fun x => (L x.1 x.2).isSome || (L' x.1 x.2).isSome).map (L.change L')

/-- There is one change for each key. -/
theorem Ledger.nodup_net (L L' : Ledger α) (places : List (String × Key)) :
    ((L.net L' places).map fun c => (c.table, c.key)).Nodup := by
  rw [net, List.map_map]
  have hid : (fun c : Change α => (c.table, c.key)) ∘ L.change L' = id := rfl
  rw [hid, List.map_id]
  exact (nodup_eraseDups places).filter _

/-- A change that is none of these is under a key with no object before or after. -/
theorem Change.count_eq_one {c : Change α} (h : c.before.isSome || c.after.isSome) :
    [c.isCreated, c.isUpdated, c.isDeleted].count true = 1 := by
  rcases c with ⟨table, key, before, after⟩
  cases before <;> cases after <;> first | rfl | simp at h

/-- The log of the changes from one ledger to another under the given primary keys. -/
def ChangeLog.between (L L' : Ledger α) (places : List (String × Key)) : ChangeLog α :=
  ⟨places.eraseDups.map (L.change L')⟩

namespace ChangeLog

variable {L L' L'' : Ledger α} {places : List (String × Key)}

theorem changes_between : (between L L' places).changes = L.net L' places := by
  rw [changes, between, Ledger.net, List.filter_map]
  rfl

theorem between_congr
    (h : ∀ place ∈ places, L'' place.1 place.2 = L' place.1 place.2) :
    between L L'' places = between L L' places := by
  unfold between
  congr 1
  refine List.map_congr_left fun place hplace => ?_
  rw [Ledger.change, h place (List.mem_eraseDups.1 hplace), Ledger.change]

/-- A note of a key changes its entry, or adds one that begins with what stands there. -/
theorem touch_map {table : String} {key : Key} {before : Option α} (hnd : places.Nodup)
    (hothers : ∀ place ∈ places, place ≠ (table, key) → L'' place.1 place.2 = L' place.1 place.2)
    (hnew : (table, key) ∉ places → before = L table key) :
    touch table key before (L'' table key) (places.map (L.change L')) =
      (if (table, key) ∈ places then places else places ++ [(table, key)]).map (L.change L'') := by
  induction places with
  | nil => simp [touch, Ledger.change, hnew]
  | cons x xs ih =>
    rw [List.nodup_cons] at hnd
    have hrest (place : String × Key) (hplace : place ∈ xs) :=
      hothers place (List.mem_cons_of_mem x hplace)
    rw [List.map_cons, touch]
    by_cases hx : x = (table, key)
    · -- the other entries are about other keys
      subst hx
      have htail : xs.map (L.change L') = xs.map (L.change L'') := by
        refine List.map_congr_left fun place hplace => ?_
        rw [Ledger.change, Ledger.change, hrest place hplace]
        rintro rfl
        exact hnd.1 hplace
      simp [Change.concerns, Ledger.change, htail]
    · have hconcerns : (L.change L' x).concerns table key = false := by
        rw [Bool.eq_false_iff, Ne, Change.concerns_iff]
        exact fun h => hx (Prod.ext h.1 h.2)
      have hhead : L.change L' x = L.change L'' x := by
        rw [Ledger.change, Ledger.change, hothers x List.mem_cons_self hx]
      have htail := ih hnd.2 hrest fun hout => hnew (by simp [Ne.symm hx, hout])
      rw [hconcerns, htail, hhead]
      by_cases hin : (table, key) ∈ xs
      · simp [hin]
      · simp [hin, Ne.symm hx]

/-- A note of one key carries a difference on to a ledger that differs in that key only. -/
theorem record_between {table : String} {key : Key} {before : Option α}
    (hothers : ∀ place ∈ places, place ≠ (table, key) → L'' place.1 place.2 = L' place.1 place.2)
    (hnew : (table, key) ∉ places → before = L table key) :
    (between L L' places).record table key before (L'' table key) =
      between L L'' (places ++ [(table, key)]) := by
  rw [record, between, touch_map (nodup_eraseDups places), between, eraseDups_concat]
  · simp only [List.mem_eraseDups]
  · exact fun place hplace => hothers place (List.mem_eraseDups.1 hplace)
  · exact fun hout => hnew fun hin => hout (List.mem_eraseDups.2 hin)

/-- Notes of several keys of a table carry a difference on to a ledger that differs in these
keys only. Of a key that was touched before, only what stands there afterwards matters. -/
theorem foldl_record {table : String} (before : Key → Option α) (keys : List Key)
    (hothers : ∀ place ∈ places, place ∉ keys.map (table, ·) →
      L'' place.1 place.2 = L' place.1 place.2)
    (hnew : ∀ key ∈ keys, (table, key) ∉ places → before key = L table key) :
    keys.foldl (fun log key => log.record table key (before key) (L'' table key))
        (between L L' places) =
      between L L'' (places ++ keys.map (table, ·)) := by
  induction keys generalizing L' places with
  | nil =>
    rw [List.map_nil, List.append_nil, List.foldl_nil]
    exact (between_congr fun place hplace => hothers place hplace (by simp)).symm
  | cons key keys ih =>
    -- after the first note the log leads to the ledger with that one key changed
    let L₁ : Ledger α := L'.set table key (L'' table key)
    have hset : L₁ table key = L'' table key := by simp [L₁, Ledger.set]
    have hkept (place : String × Key) (hne : place ≠ (table, key)) :
        L₁ place.1 place.2 = L' place.1 place.2 := by
      have hne' : ¬ (place.1 = table ∧ place.2 = key) := fun h => hne (Prod.ext h.1 h.2)
      simp [L₁, Ledger.set, hne']
    have hfirst : (between L L' places).record table key (before key) (L₁ table key) =
        between L L₁ (places ++ [(table, key)]) :=
      record_between (fun place _ hne => hkept place hne) (hnew key List.mem_cons_self)
    rw [hset] at hfirst
    rw [List.foldl_cons, hfirst, ih, List.map_cons, List.append_assoc, List.singleton_append]
    · intro place hplace hout
      by_cases heq : place = (table, key)
      · subst heq
        exact hset.symm
      · rw [hkept place heq]
        refine hothers place ?_ (by simp [heq, hout])
        simpa [heq] using hplace
    · intro key' hkey' hout
      refine hnew key' (List.mem_cons_of_mem key hkey') fun hin => hout ?_
      exact List.mem_append_left _ hin

end ChangeLog

/-! ## What a write is about -/

/-- The ledger of what is stored. -/
def Forest.stock (F : Forest α) : Ledger α := fun table p =>
  F.value? table primaryName p

/-- The primary keys that a write is about: that of the given object, or those of the objects
that the query lists, each once. -/
def Txn.touches (t : Txn α) : Write α → List Key
  | .insert table object | .delete table object => (t.schema.primaryKey? table object).toList
  | .deleteStem table index args | .deleteAll table index args =>
    match t.lookup table index args with
    | .ok (q, tree) => ((q.all tree).objects.filterMap (t.schema.primaryKey? table)).eraseDups
    | .error _ => []

/-- Objects without repeats of a primary key are listed under their primary keys, in the order
of the first object with each. -/
theorem TableSchema.distinct_keys {s : Schema α} {ts : TableSchema α} {table : String}
    (ht : s.table? table = some ts) :
    ∀ {objects : List α} {seen : List Key} {gone : List (Key × α)},
      ts.distinct table seen objects = .ok gone →
      gone.map Prod.fst =
        ((objects.filterMap (s.primaryKey? table)).filter (!seen.contains ·)).eraseDups
  | [], seen, gone, h => by
    obtain rfl : [] = gone := by simpa [distinct] using h
    rfl
  | o :: rest, seen, gone, h => by
    rw [distinct, bind_eq_ok_iff] at h
    rcases h with ⟨p, hp, h⟩
    rw [List.filterMap_cons_some (Schema.primaryKey?_eq ht hp)]
    split at h
    · rename_i hseen
      rw [distinct_keys ht h, List.filter_cons_of_neg (by simpa using hseen)]
    · rename_i hnew
      rw [bind_eq_ok_iff] at h
      rcases h with ⟨more, hmore, hgone⟩
      obtain rfl : (p, o) :: more = gone := Except.ok.inj hgone
      rw [List.filter_cons_of_pos (by simpa using hnew), List.eraseDups_cons, List.map_cons,
        distinct_keys ht hmore, List.filter_filter]
      congr 3
      funext p'
      by_cases heq : p' = p <;> simp [heq]

namespace Txn

variable {t t' : Txn α} {w : Write α}

/-- The write changed the objects under the primary keys that it is about and no others, and
noted for each of them what stood there before and after. -/
structure Notes (t t' : Txn α) (w : Write α) : Prop where
  evolves : t.Evolves t'
  declared : ∃ ts, t.schema.table? w.table = some ts
  log : t'.changes = t.changes.map fun log => (t.touches w).foldl (fun log p =>
    log.record w.table p (t.forest.stock w.table p) (t'.forest.stock w.table p)) log
  others : ∀ table ts p, t.schema.table? table = some ts → (table = w.table → p ∉ t.touches w) →
    t'.forest.stock table p = t.forest.stock table p

theorem Lists.touches {table index : String} {args : List Arg} {ts : TableSchema α} {q : Query α}
    {gone : List (Key × α)} (h : t.Lists table index args ts q gone)
    (ht : t.schema.table? table = some ts) :
    t.touches (.deleteAll table index args) = gone.map Prod.fst := by
  rcases h with ⟨tree, hlookup, hgone⟩
  simp [Txn.touches, hlookup, TableSchema.distinct_keys ht hgone]

section

variable {ts : TableSchema α}

/-- Whatever a change of one table leaves alone outside its primary index, the primary indexes
of other tables stay as they are. -/
theorem Orderly.stock_others (h : t.Orderly) {table : String}
    (hothers : ∀ table' ts' name' i', t.schema.table? table' = some ts' →
      (name', i') ∈ ts'.indexes → table' ≠ table →
      ∀ k, t'.forest.value? table' name' k = t.forest.value? table' name' k) {table' : String}
    {ts' : TableSchema α} (ht' : t.schema.table? table' = some ts') (hne : table' ≠ table)
    (p : Key) : t'.forest.stock table' p = t.forest.stock table' p := by
  rcases h.exists_id ht' with ⟨id, hid⟩
  exact hothers table' ts' primaryName id ht' (TableSchema.mem_primary hid) hne p

theorem Takes.notes (h : t.Orderly) {table : String} {p : Key} {object : α}
    (ht : t.schema.table? table = some ts) (hp : ts.primaryKey table object = .ok p)
    (htakes : t.Takes t' table ts p object) : t.Notes t' (.insert table object) := by
  have htouches : t.touches (.insert table object) = [p] := by
    rw [touches, Schema.primaryKey?_eq ht hp]
    rfl
  have hstock (p' : Key) : t'.forest.stock table p' =
      if p' = p then some object else t.forest.stock table p' := htakes.value?_primary h ht hp p'
  refine ⟨htakes.evolves, ⟨ts, ht⟩, ?_, fun table' ts' p' ht' hout => ?_⟩
  · rw [htouches, htakes.log]
    simp only [Write.table, List.foldl_cons, List.foldl_nil, hstock, if_true]
    rfl
  · by_cases heq : table' = table
    · subst heq
      have hne : p' ≠ p := by simpa [htouches, Write.table] using hout
      rw [hstock, if_neg hne]
    · exact h.stock_others htakes.others ht' heq p'

theorem Loses.notes (h : t.Orderly) {gone : List (Key × α)}
    (ht : t.schema.table? w.table = some ts) (htouches : t.touches w = gone.map Prod.fst)
    (hgone : ∀ p o, (p, o) ∈ gone → t.forest.stock w.table p = some o)
    (hloses : t.Loses t' w.table ts gone none) : t.Notes t' w := by
  have hstock (p : Key) (x : α) : t'.forest.stock w.table p = some x ↔
      t.forest.stock w.table p = some x ∧ (p, x) ∉ gone := hloses.value?_primary h ht hgone p x
  refine ⟨hloses.evolves, ⟨ts, ht⟩, ?_, fun table' ts' p' ht' hout => ?_⟩
  · rw [htouches, hloses.log]
    congr 1
    funext log
    rw [List.foldl_map]
    refine List.foldl_ext _ _ _ fun log y hy => ?_
    have hold := hgone y.1 y.2 hy
    have hnone : t'.forest.stock w.table y.1 = none := by
      rw [Option.eq_none_iff_forall_ne_some]
      intro x hx
      rcases (hstock y.1 x).1 hx with ⟨hx', hnot⟩
      obtain rfl : y.2 = x := Option.some.inj (hold.symm.trans hx')
      exact hnot hy
    rw [hold, hnone]
  · by_cases heq : table' = w.table
    · subst heq
      refine Option.ext fun x => ?_
      rw [hstock]
      refine and_iff_left fun hm => hout rfl ?_
      rw [htouches]
      exact List.mem_map_of_mem hm
    · exact h.stock_others hloses.others ht' heq p'

end

end Txn

/-- A write fails and changes nothing, or it notes what it does. -/
theorem TxnM.notes_write {t : Txn α} (h : t.Orderly) (w : Write α) (stats : Stats) :
    (∃ e, (write w).run ⟨t, stats⟩ = .error e ⟨t, stats⟩) ∨
      ∃ t' stats', t.Notes t' w ∧ (write w).run ⟨t, stats⟩ = .ok () ⟨t', stats'⟩ := by
  cases w with
  | insert table object =>
    rcases run_insert h table object stats with
      ⟨e, _, hrun⟩ | ⟨ts, p, t', _, ht, hp, htakes, hrun⟩
    · exact .inl ⟨e, hrun⟩
    · exact .inr ⟨t', _, htakes.notes h ht hp, hrun⟩
  | delete table object =>
    rcases run_delete h table object stats with
      ⟨e, _, hrun⟩ | ⟨ts, p, old, t', _, ht, hp, hold, hloses, hrun⟩
    · exact .inl ⟨e, hrun⟩
    · have htouches : t.touches (.delete table object) = [(p, old)].map Prod.fst := by
        rw [Txn.touches, Schema.primaryKey?_eq ht hp]
        rfl
      have hgone (p' : Key) (o : α) (hm : (p', o) ∈ [(p, old)]) :
          t.forest.stock table p' = some o := by
        obtain ⟨rfl, rfl⟩ : p' = p ∧ o = old := by simpa using hm
        exact hold
      have hnotes : t.Notes t' (.delete table object) :=
        Txn.Loses.notes h ht htouches hgone hloses
      exact .inr ⟨t', _, hnotes, hrun⟩
  | deleteStem table index args =>
    rw [write, run_bind]
    rcases run_deleteStem h table index args stats with
      ⟨e, _, hrun⟩ | ⟨ts, q, gone, t', _, ht, _, hf, hlists, hloses, hrun⟩
    · exact .inl ⟨e, by rw [hrun]⟩
    · have hnotes : t.Notes t' (.deleteStem table index args) :=
        Txn.Loses.notes h ht (hlists.touches ht) (fun p o hm => ((hf p o).1 hm).1) hloses
      exact .inr ⟨t', _, hnotes, by rw [hrun]; rfl⟩
  | deleteAll table index args =>
    rw [write, run_bind]
    rcases run_deleteAll h table index args stats with
      ⟨e, _, hrun⟩ | ⟨ts, q, gone, t', _, ht, _, hf, hlists, hloses, hrun⟩
    · exact .inl ⟨e, by rw [hrun]⟩
    · have hnotes : t.Notes t' (.deleteAll table index args) :=
        Txn.Loses.notes h ht (hlists.touches ht) (fun p o hm => ((hf p o).1 hm).1) hloses
      exact .inr ⟨t', _, hnotes, by rw [hrun]; rfl⟩

/-! ## What a log holds -/

/-- The change log of the transaction holds the difference between a ledger and what is stored
now, under the given primary keys. Under all others nothing has changed. -/
structure Txn.Logs (t : Txn α) (L : Ledger α) (places : List (String × Key)) : Prop where
  changes : t.changes = some (.between L t.forest.stock places)
  declared : ∀ place ∈ places, ∃ ts, t.schema.table? place.1 = some ts
  same : ∀ table ts p, t.schema.table? table = some ts → (table, p) ∉ places →
    t.forest.stock table p = L table p

namespace Txn.Logs

variable {t t' : Txn α} {w : Write α} {L : Ledger α} {places : List (String × Key)}

/-- A log without entries begins at what is stored now. -/
theorem start (hlog : t.changes = some {}) : t.Logs t.forest.stock [] :=
  ⟨hlog, nofun, fun _ _ _ _ _ => rfl⟩

/-- A write that succeeds carries the difference on to what is stored after it. -/
theorem write (h : t.Logs L places) (hnotes : t.Notes t' w) :
    t'.Logs L (places ++ (t.touches w).map (w.table, ·)) := by
  have hschema := hnotes.evolves.schema_eq
  rcases hnotes.declared with ⟨ts, ht⟩
  refine ⟨?_, fun place hplace => ?_, fun table ts p ht hout => ?_⟩
  · rw [hnotes.log, h.changes, Option.map_some]
    congr 1
    refine ChangeLog.foldl_record _ _ (fun place hplace hout => ?_) fun p _ hout => ?_
    · rcases h.declared place hplace with ⟨ts', ht'⟩
      refine hnotes.others place.1 ts' place.2 ht' fun heq hin => hout ?_
      exact List.mem_map.2 ⟨place.2, hin, Prod.ext heq.symm rfl⟩
    · exact h.same w.table ts p ht hout
  · rw [hschema]
    rcases List.mem_append.1 hplace with hplace | hplace
    · exact h.declared place hplace
    · rcases List.mem_map.1 hplace with ⟨p, _, rfl⟩
      exact ⟨ts, ht⟩
  · rw [hschema] at ht
    rw [List.mem_append, not_or] at hout
    have hkept := hnotes.others table ts p ht fun heq hin =>
      hout.2 (List.mem_map.2 ⟨p, hin, by rw [heq]⟩)
    exact hkept.trans (h.same table ts p ht hout.1)

/-- What sees the same, and has the same log, holds the same difference. -/
theorem congr (h : t.Logs L places) (hchanges : t'.changes = t.changes)
    (hforest : t'.forest = t.forest) (hschema : t'.schema = t.schema) : t'.Logs L places := by
  refine ⟨?_, ?_, ?_⟩
  · rw [hchanges, hforest]
    exact h.changes
  · rw [hschema]
    exact h.declared
  · rw [hschema, hforest]
    exact h.same

end Txn.Logs

end SnapStore
