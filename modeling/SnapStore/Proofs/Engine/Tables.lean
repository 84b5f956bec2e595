import SnapStore.Proofs.Paths
import SnapStore.Proofs.Engine.Step
import SnapStore.Proofs.Engine.Wakeup
import SnapStore.Sample.Page

/-! # Tables side by side

The trees of all indexes of a store stand in one root, under the paths of the indexes. So what
is written to a table concerns another one exactly if two of their indexes have the same path,
which is if the names clash. Tables without a clash are independent: whatever is written to the
one, committed or not, every query of the other one has the same answer as before.

Main statements: `Sound.spares_performAll` (what a transaction sees of the other table),
`Holds.performAll` (what a store holds of it) and `tables_apart`. What a clash leads to is
shown by `table_invaded`.
-/

namespace SnapStore

variable {α : Type}

/-! ## Tables apart -/

/-- The tables are different ones, and no index of the one clashes with an index of the other
one. -/
structure Schema.Apart (s : Schema α) (table other : String) : Prop where
  ne : table ≠ other
  no_clash : ∀ ts ts', s.table? table = some ts → s.table? other = some ts' →
    ∀ name ∈ ts.indexes.keys, ∀ name' ∈ ts'.indexes.keys, ¬ Clash table name other name'

namespace Schema.Apart

variable {s : Schema α} {table other : String}

/-- Tables whose names have no points are apart. -/
theorem of_no_point (hne : table ≠ other) (h : '.' ∉ table.toList) (h' : '.' ∉ other.toList) :
    s.Apart table other :=
  ⟨hne, fun _ _ _ _ _ _ _ _ => not_clash_of_no_point h h'⟩

/-- Tables that are apart have no path in common. -/
theorem not_mem_pathsOf (h : s.Apart table other) {path : Key} (hp : path ∈ s.pathsOf other) :
    path ∉ s.pathsOf table := by
  intro hp'
  unfold pathsOf at hp hp'
  split at hp
  · rename_i ts' hts'
    split at hp'
    · rename_i ts hts
      rcases List.mem_map.1 hp with ⟨name', hname', rfl⟩
      rcases List.mem_map.1 hp' with ⟨name, hname, hpath⟩
      rcases indexPath_eq_iff.1 hpath with ⟨hsame, _⟩ | hclash
      · exact h.ne hsame
      · exact h.no_clash ts ts' hts hts' name hname name' hname' hclash
    · cases hp'
  · cases hp

end Schema.Apart

/-- What a query of a table answers depends on the trees at the paths of this table only. -/
theorem Scan.within_congr {schema : Schema α} {F F' : Forest α} {table : String}
    (h : ∀ path ∈ schema.pathsOf table, F path = F' path) (scan : Scan) (index : String)
    (args : List Arg) :
    scan.within schema F table index args = scan.within schema F' table index args := by
  unfold Scan.within
  cases hq : schema.resolve table index args with
  | error e => rfl
  | ok q =>
    rcases Schema.resolve_spec hq with ⟨ts, hts, hmem⟩
    have hpath := Schema.mem_pathsOf hts (List.mem_map_of_mem (f := Prod.fst) hmem)
    simp only [h _ hpath]

/-! ## What a transaction sees of another table -/

/-- `t'` is `t` later on. Under the schema it sees of the table `other` what `t` saw. -/
structure Txn.Spares (schema : Schema α) (other : String) (t t' : Txn α) : Prop where
  forest : t.schema = schema → ∀ path ∈ schema.pathsOf other, t'.forest path = t.forest path
  store : t'.store = t.store
  write : t'.write = t.write
  schema : t'.schema = t.schema

namespace Txn.Spares

variable {schema : Schema α} {other : String} {t t' t'' : Txn α}

theorem refl (schema : Schema α) (other : String) (t : Txn α) : t.Spares schema other t :=
  ⟨fun _ _ _ => rfl, rfl, rfl, rfl⟩

theorem trans (h : t.Spares schema other t') (h' : t'.Spares schema other t'') :
    t.Spares schema other t'' where
  forest := fun hs path hp => (h'.forest (h.schema.trans hs) path hp).trans (h.forest hs path hp)
  store := h'.store.trans h.store
  write := h'.write.trans h.write
  schema := h'.schema.trans h.schema

/-- A write to a table that is apart spares the other one, whether it succeeds or fails. -/
theorem of_write {w : Write α} (h : schema.Apart w.table other) (t : Txn α) (stats : Stats) :
    t.Spares schema other ((TxnM.write w).leaves ⟨t, stats⟩).txn := by
  have hforest (hs : t.schema = schema) (path : Key) (hp : path ∈ schema.pathsOf other) :
      ((TxnM.write w).leaves ⟨t, stats⟩).txn.forest path = t.forest path :=
    TxnM.forest_write w ⟨t, stats⟩ (hs ▸ h.not_mem_pathsOf hp)
  rcases (TxnM.keeps_write w ⟨t, stats⟩).frame with ⟨handles, changes, hleaves⟩
  exact ⟨hforest, by rw [hleaves], by rw [hleaves], by rw [hleaves]⟩

end Txn.Spares

namespace Engine

variable {s : Engine α} {schema : Schema α} {other : String}

namespace Sound

variable {id : Nat} {t t' : Txn α}

/-- An action that writes to no table but those apart leaves a transaction that has not ended
with what it saw of the other table. -/
theorem spares_perform (hs : s.Sound) {a : Action α}
    (ha : ∀ id w, a = .write id w → schema.Apart w.table other) (ht : s.txns[id]? = some t)
    (ht' : (s.perform a).txns[id]? = some t') (hactive : t'.state = .active) :
    t.state = .active ∧ t.Spares schema other t' := by
  have hlt : id < s.txns.length := (List.getElem?_eq_some_iff.1 ht).1
  cases hs.txnStep ht' with
  | reader _ hid _ _ => exact absurd hid (Nat.ne_of_lt hlt)
  | writer _ hid _ _ => exact absurd hid (Nat.ne_of_lt hlt)
  | snapshot _ hid _ _ _ => exact absurd hid (Nat.ne_of_lt hlt)
  | wrote hwrite ht₁ hst heq =>
    rename_i w t₁ st
    obtain rfl := Option.some.inj (ht.symm.trans ht₁)
    subst heq
    refine ⟨?_, .of_write (ha id w hwrite) t st.stats⟩
    rcases (TxnM.keeps_write w ⟨t, st.stats⟩).frame with ⟨handles, changes, hleaves⟩
    rw [hleaves] at hactive
    exact hactive
  | stays ht₁ heq _ _ =>
    obtain rfl := Option.some.inj (ht.symm.trans ht₁)
    subst heq
    exact ⟨hactive, fun _ _ _ => rfl, rfl, rfl, rfl⟩
  | ended _ _ hended =>
    rw [hended] at hactive
    cases hactive

/-- So does a run of such actions. -/
theorem spares_performAll (hs : s.Sound) {actions : List (Action α)}
    (hwrites : ∀ id w, .write id w ∈ actions → schema.Apart w.table other)
    (ht : s.txns[id]? = some t) (ht' : (s.performAll actions).txns[id]? = some t')
    (hactive : t'.state = .active) : t.state = .active ∧ t.Spares schema other t' := by
  induction actions generalizing s t with
  | nil =>
    obtain rfl : t = t' := Option.some.inj (ht.symm.trans ht')
    exact ⟨hactive, .refl schema other t⟩
  | cons a actions ih =>
    have hlt : id < (s.perform a).txns.length :=
      Nat.lt_of_lt_of_le (List.getElem?_eq_some_iff.1 ht).1 (hs.extends_perform a).length
    have ht₁ := List.getElem?_eq_getElem hlt
    rcases ih (hs.perform a) (fun id w hw => hwrites id w (List.mem_cons_of_mem a hw)) ht₁ ht' with
      ⟨hactive₁, hrest⟩
    rcases hs.spares_perform (fun id w hw => hwrites id w (hw ▸ List.mem_cons_self)) ht ht₁
      hactive₁ with ⟨hactive₀, hfirst⟩
    exact ⟨hactive₀, hfirst.trans hrest⟩

end Sound

/-! ## What a store holds of another table -/

/-- The store and its active writer hold of the table `other` what the forest `F` holds. -/
structure Holds (s : Engine α) (store : Nat) (schema : Schema α) (other : String)
    (F : Forest α) : Prop where
  root : ∃ st, s.stores[store]? = some st ∧ st.schema = schema ∧
    ∀ path ∈ schema.pathsOf other, st.root.get? path = F path
  writer : ∀ (id : Nat) (t : Txn α), s.txns[id]? = some t → t.store = store →
    t.isWriting = true → ∀ path ∈ schema.pathsOf other, t.forest path = F path

namespace Holds

variable {store : Nat} {F : Forest α} {a : Action α}

theorem root_perform (h : s.Holds store schema other F) (hs : s.Sound) (a : Action α) :
    ∃ st, (s.perform a).stores[store]? = some st ∧ st.schema = schema ∧
      ∀ path ∈ schema.pathsOf other, st.root.get? path = F path := by
  rcases h.root with ⟨st, hst, hschema, hroot⟩
  have hlt : store < s.stores.length := (List.getElem?_eq_some_iff.1 hst).1
  rcases (hs.extends_perform a).stores store st hst with ⟨st', hst', hlead⟩
  refine ⟨st', hst', hlead.schema.trans hschema, ?_⟩
  cases hs.storeStep hst' with
  | created _ hn _ => exact absurd hn (Nat.ne_of_lt hlt)
  | copied _ hn _ _ => exact absurd hn (Nat.ne_of_lt hlt)
  | stays hst₁ hstays _ =>
    obtain rfl := Option.some.inj (hst.symm.trans hst₁)
    rw [hstays.root]
    exact hroot
  | published hst₁ hc hstore _ _ hroot' =>
    -- the new root holds what the active writer saw
    rcases hs.txns _ _ hc.txn with ⟨_, _, hf⟩
    rw [hroot', hf.sound.get?_published]
    exact h.writer _ _ hc.txn hstore hc.writing

theorem writer_perform (h : s.Holds store schema other F) (hs : s.Sound)
    (ha : ∀ id w, a = .write id w → schema.Apart w.table other) {id : Nat} {t' : Txn α}
    (ht' : (s.perform a).txns[id]? = some t') (hstore : t'.store = store)
    (hw : t'.isWriting = true) {path : Key} (hp : path ∈ schema.pathsOf other) :
    t'.forest path = F path := by
  rcases h.root with ⟨st, hst, hschema, hroot⟩
  have hwriting := Txn.isWriting_iff.1 hw
  cases ht : s.txns[id]? with
  | some t =>
    rcases hs.txns id t ht with ⟨st₁, hst₁, hf⟩
    rcases hs.spares_perform ha ht ht' hwriting.2 with ⟨hactive, hspares⟩
    have hstore₁ : t.store = store := hspares.store.symm.trans hstore
    obtain rfl : st = st₁ := Option.some.inj (hst.symm.trans (hstore₁ ▸ hst₁))
    have hw₁ := Txn.isWriting_iff.2 ⟨hspares.write ▸ hwriting.1, hactive⟩
    exact (hspares.forest (hf.schema.trans hschema) path hp).trans
      (h.writer id t ht hstore₁ hw₁ path hp)
  | none =>
    cases hs.txnStep ht' with
    | reader _ _ _ heq => simp [heq, Store.reader] at hwriting
    | writer _ _ hst₁ heq =>
      -- a new writer sees the root of its store
      subst heq
      obtain rfl : _ = store := hstore
      obtain rfl := Option.some.inj (hst.symm.trans hst₁)
      rw [Txn.forest_of_handles rfl]
      exact hroot path hp
    | snapshot _ _ _ _ hviews => simp [hviews.write] at hwriting
    | wrote _ ht₁ _ _ => simp [ht] at ht₁
    | stays ht₁ _ _ _ => simp [ht] at ht₁
    | ended ht₁ _ _ => simp [ht] at ht₁

/-- An action that writes to no table but those apart leaves what a store holds of the other
table. -/
theorem perform (h : s.Holds store schema other F) (hs : s.Sound)
    (ha : ∀ id w, a = .write id w → schema.Apart w.table other) :
    (s.perform a).Holds store schema other F :=
  ⟨h.root_perform hs a, fun _ _ ht' hstore hw _ hp => h.writer_perform hs ha ht' hstore hw hp⟩

/-- So does a run of such actions. -/
theorem performAll (h : s.Holds store schema other F) (hs : s.Sound) {actions : List (Action α)}
    (hwrites : ∀ id w, .write id w ∈ actions → schema.Apart w.table other) :
    (s.performAll actions).Holds store schema other F := by
  induction actions generalizing s with
  | nil => exact h
  | cons a actions ih =>
    refine ih (h.perform hs fun id w hw => ?_) (hs.perform a) fun id w hw => ?_
    · exact hwrites id w (hw ▸ List.mem_cons_self)
    · exact hwrites id w (List.mem_cons_of_mem a hw)

end Holds

/-- What the store holds of a table, a new read transaction answers. -/
theorem Holds.askNow_eq {store : Nat} {F : Forest α} (h : s.Holds store schema other F)
    (hs : s.Sound) (scan : Scan) (index : String) (args : List Arg) :
    s.askNow store scan other index args = some (scan.within schema F other index args) := by
  rcases h.root with ⟨st, hst, rfl, hroot⟩
  rw [hs.askNow_eq hst, Scan.over_eq, Scan.within_congr hroot]

/-! ## Independent tables -/

/-- No open writer of the store has changed the table. -/
def Settled (s : Engine α) (store : Nat) (table : String) : Prop :=
  ∀ (id : Nat) (t : Txn α), s.txns[id]? = some t → t.store = store → t.isWriting = true →
    ∀ path ∈ t.schema.pathsOf table, t.forest path = t.root.get? path

theorem Settled.holds {store : Nat} {st : Store α} (h : s.Settled store other) (hs : s.Sound)
    (hst : s.stores[store]? = some st) : s.Holds store st.schema other st.root.get? := by
  refine ⟨⟨st, hst, rfl, fun _ _ => rfl⟩, fun id t ht hstore hw path hp => ?_⟩
  rcases hs.txns id t ht with ⟨st', hst', hf⟩
  obtain rfl : st = st' := Option.some.inj (hst.symm.trans (hstore ▸ hst'))
  rw [h id t ht hstore hw path (hf.schema ▸ hp), (hf.writes hw).2]

/-- Tables are independent if no indexes of theirs clash. Whatever is written to tables that are
apart from the table `other`, and whether it is committed or not: every query of the table
`other` has the same answer as before, in a new read transaction and in all those that were open
before. Indexes of different tables have the same path exactly if they clash. -/
theorem tables_apart {before actions : List (Action α)} {store : Nat} {st : Store α}
    {other : String} (hst : (performAll {} before).stores[store]? = some st)
    (hwrites : ∀ id w, .write id w ∈ actions → st.schema.Apart w.table other) :
    let s := performAll {} before
    let s' := performAll {} (before ++ actions)
    (∀ table name name', indexPath table name = indexPath other name' ↔
        (table = other ∧ name = name') ∨ Clash table name other name') ∧
      (s.Settled store other → ∀ scan index args,
        s'.askNow store scan other index args = s.askNow store scan other index args) ∧
      ∀ id t t', s.txns[id]? = some t → t.store = store → s'.txns[id]? = some t' →
        t'.state = .active → ∀ scan index args,
          s'.ask id scan other index args = s.ask id scan other index args := by
  intro s s'
  have hs : s.Sound := Sound.empty.performAll before
  have hs' : s'.Sound := Sound.empty.performAll (before ++ actions)
  have hlater : s' = s.performAll actions := performAll_append {} before actions
  refine ⟨fun _ _ _ => indexPath_eq_iff, fun hsettled scan index args => ?_, ?_⟩
  · have hholds := hsettled.holds hs hst
    have hholds' : s'.Holds store st.schema other st.root.get? :=
      hlater ▸ hholds.performAll hs hwrites
    rw [hholds.askNow_eq hs, hholds'.askNow_eq hs']
  · intro id t t' ht hstore ht' hactive' scan index args
    rcases hs.spares_performAll hwrites ht (hlater ▸ ht') hactive' with ⟨hactive, hspares⟩
    rcases hs.txns id t ht with ⟨st', hst', hf⟩
    obtain rfl : st = st' := Option.some.inj (hst.symm.trans (hstore ▸ hst'))
    have hforest := hspares.forest hf.schema
    rw [hs.ask_eq ht hactive, hs'.ask_eq ht' hactive', hspares.schema, hf.schema,
      Scan.within_congr hforest]

/-- A writer fills and empties the table of pages and commits. The table of drafts still has its
one page, for the reader that was open before and for new ones. -/
theorem tables_apart_pages :
    let before : List (Action Page) :=
      [.create Page.desk {}, .requestWrite 0, .acquireWrite 0,
        .write 0 (.insert Page.drafts { path := "/a", slug := "one" }), .commit 0, .openRead 0]
    let actions : List (Action Page) :=
      [.requestWrite 0, .acquireWrite 0,
        .write 2 (.insert Page.pages { path := "/a", slug := "two" }),
        .write 2 (.deleteAll Page.pages primaryName []), .commit 2]
    let s := performAll {} before
    let s' := performAll {} (before ++ actions)
    (∃ st, s.stores[0]? = some st ∧
        ∀ id w, .write id w ∈ actions → st.schema.Apart w.table Page.drafts) ∧
      s.Settled 0 Page.drafts ∧
      (∀ scan index args,
        s'.askNow 0 scan Page.drafts index args = s.askNow 0 scan Page.drafts index args) ∧
      (∀ scan index args,
        s'.ask 1 scan Page.drafts index args = s.ask 1 scan Page.drafts index args) ∧
      (s.ask 1 .all Page.drafts "slug" []).map (Except.map Prod.snd) =
        some (.ok [{ path := "/a", slug := "one" }]) := by
  intro before actions s s'
  have hsome : s.stores[0]?.isSome = true := by decide +kernel
  rcases Option.isSome_iff_exists.1 hsome with ⟨st, hst⟩
  have hwrites (id : Nat) (w : Write Page) (hw : .write id w ∈ actions) :
      st.schema.Apart w.table Page.drafts := by
    have htable : w.table = Page.pages := by
      simp only [actions, List.mem_cons, List.not_mem_nil, reduceCtorEq, or_false, false_or,
        Action.write.injEq] at hw
      rcases hw with ⟨_, rfl⟩ | ⟨_, rfl⟩ <;> rfl
    rw [htable]
    exact .of_no_point (by decide) (by decide) (by decide)
  have hidle : s.txns.all (fun t => !t.isWriting) = true := by decide +kernel
  have hsettled : s.Settled 0 Page.drafts := by
    intro id t ht _ hw
    have hnot := List.all_eq_true.1 hidle t (List.mem_of_getElem? ht)
    simp [hw] at hnot
  have hreader : s.txns[1]?.map Txn.store = some 0 := by decide +kernel
  have hreader' : s'.txns[1]?.map Txn.state = some .active := by decide +kernel
  rcases Option.map_eq_some_iff.1 hreader with ⟨t, ht, hstore⟩
  rcases Option.map_eq_some_iff.1 hreader' with ⟨t', ht', hactive⟩
  rcases tables_apart hst hwrites with ⟨_, hnow, hopen⟩
  exact ⟨⟨st, hst, hwrites⟩, hsettled, hnow hsettled, hopen 1 t t' ht hstore ht' hactive,
    by decide +kernel⟩

/-- A table named like the front of an index takes over its tree: the table `a` has an index
`b.c`, and the table `a.b` an index `c`. The schema is accepted, and nobody writes to the table
`a.b`, but once a page is inserted into the table `a`, a query of the other table finds it. -/
theorem table_invaded :
    let title (name : String) : String × IndexSchema Page :=
      (name, { Page.byTitle with name := name })
    let schema : Schema Page :=
      ⟨[("a", { name := "a", indexes := [title "b.c", (primaryName, Page.byPath)] }),
        ("a.b", { name := "a.b", indexes := [title "c", (primaryName, Page.byPath)] })]⟩
    let before : List (Action Page) := [.create schema {}, .requestWrite 0, .acquireWrite 0]
    let after := before ++ [.write 0 (.insert "a" { path := "/a", title := "one" })]
    let found (actions : List (Action Page)) :=
      ((performAll {} actions).ask 0 .all "a.b" "c" []).map (Except.map Prod.snd)
    let foundNow (actions : List (Action Page)) :=
      ((performAll {} actions).askNow 0 .all "a.b" "c" []).map (Except.map Prod.snd)
    schema.validate = .ok () ∧ found before = some (.ok []) ∧
      found after = some (.ok [{ path := "/a", title := "one" }]) ∧
      foundNow (before ++ [.commit 0]) = some (.ok []) ∧
      foundNow (after ++ [.commit 0]) = some (.ok [{ path := "/a", title := "one" }]) := by
  decide +kernel

end Engine

end SnapStore
