import SnapStore.Proofs.Engine.History
import SnapStore.Proofs.Engine.Wakeup
import SnapStore.Proofs.Radix.Bounds
import SnapStore.Sample.Page

/-! # No entry dangles

Different objects may derive the same stored key of an index. Then one entry takes the place of
another, or is removed with it, and the index misses an object. Whatever entries it has are
about objects that are stored now, though, and stand under stored keys of these. So no query
finds an object that was replaced or deleted.

Main statement: `entries_current`.
-/

namespace SnapStore

variable {α : Type}

/-! ## What a query can find -/

/-- Whatever a query finds is the value of an entry. -/
theorem Scan.exists_leaf {scan : Scan} {q : Query α} {tree : Tree α} (h : tree.Wf) {o : α}
    (ho : o ∈ (scan.answer q tree).2) : ∃ leaf ∈ tree.leaves, leaf.value = o := by
  have hget {k : Key} (hk : tree.get? k = some o) : ∃ leaf ∈ tree.leaves, leaf.value = o := by
    rcases h.get?_eq_some_iff.1 hk with ⟨leaf, hleaf, _, hvalue⟩
    exact ⟨leaf, hleaf, hvalue⟩
  have hseek {leaf : Leaf α} (hleaf : leaf ∈ (tree.seek q.key).2) (hvalue : leaf.value = o) :
      ∃ leaf ∈ tree.leaves, leaf.value = o :=
    ⟨leaf, (h.mem_seek.1 hleaf).1, hvalue⟩
  have hseekDown {leaf : Leaf α} (hleaf : leaf ∈ (tree.seekDown q.key).2)
      (hvalue : leaf.value = o) : ∃ leaf ∈ tree.leaves, leaf.value = o := by
    rw [tree.seekDown_eq, List.mem_reverse] at hleaf
    exact hseek hleaf hvalue
  cases scan with
  | first =>
    simp only [answer, Query.first] at ho
    split at ho
    · rw [tree.watch_snd, Option.mem_toList] at ho
      exact hget ho
    · rw [Option.mem_toList] at ho
      rcases Option.map_eq_some_iff.1 ho with ⟨leaf, hhead, hvalue⟩
      exact hseek (List.mem_of_head? hhead) hvalue
  | last =>
    simp only [answer, Query.last] at ho
    split at ho
    · rw [tree.watch_snd, Option.mem_toList] at ho
      exact hget ho
    · rw [Option.mem_toList] at ho
      rcases Option.map_eq_some_iff.1 ho with ⟨leaf, hhead, hvalue⟩
      exact hseekDown (List.mem_of_head? hhead) hvalue
  | all =>
    rcases List.mem_map.1 ho with ⟨leaf, hleaf, hvalue⟩
    exact hseek hleaf hvalue
  | allDown =>
    rcases List.mem_map.1 ho with ⟨leaf, hleaf, hvalue⟩
    exact hseekDown hleaf hvalue
  | atLeast =>
    rcases List.mem_map.1 ho with ⟨leaf, hleaf, hvalue⟩
    rw [h.atLeast_eq] at hleaf
    exact ⟨leaf, (List.mem_filter.1 hleaf).1, hvalue⟩
  | atMost =>
    have hdown {leaf : Leaf α} (hleaf : leaf ∈ tree.leavesDown) (hvalue : leaf.value = o) :
        ∃ leaf ∈ tree.leaves, leaf.value = o := by
      rw [tree.leavesDown_eq, List.mem_reverse] at hleaf
      exact ⟨leaf, hleaf, hvalue⟩
    have hmost {leaf : Leaf α} (hleaf : leaf ∈ tree.atMost q.key) (hvalue : leaf.value = o) :
        ∃ leaf ∈ tree.leaves, leaf.value = o := by
      rw [h.atMost_eq] at hleaf
      exact hdown (List.mem_filter.1 hleaf).1 hvalue
    rcases List.mem_map.1 ho with ⟨leaf, hleaf, hvalue⟩
    split at hleaf
    · exact hdown hleaf hvalue
    · split at hleaf
      · rcases List.mem_append.1 hleaf with hleaf | hleaf
        · exact hseekDown hleaf hvalue
        · exact hmost hleaf hvalue
      · exact hmost hleaf hvalue

/-! ## What is stored now -/

/-- The table stores this very object now, under its primary key. -/
def Forest.Holds (F : Forest α) (table : String) (ts : TableSchema α) (p : Key) (o : α) : Prop :=
  ts.primaryKey table o = .ok p ∧ F.value? table primaryName p = some o

/-- Each index of each table has a tree, and each entry of it is about an object that is stored
now, and stands under one of the stored keys of this object. -/
def Forest.Current (F : Forest α) (s : Schema α) : Prop :=
  ∀ table ts name i, s.table? table = some ts → (name, i) ∈ ts.indexes →
    ∃ tree, F (indexPath table name) = some tree ∧ ∀ leaf ∈ tree.leaves,
      ∃ p keys, F.Holds table ts p leaf.value ∧
        i.storedKeys table name leaf.value p = .ok keys ∧ leaf.key ∈ keys

namespace Forest

variable {F : Forest α} {s : Schema α}

/-- Where all indexes are in order, their entries are about what is stored now. -/
theorem Tidy.current (h : F.Tidy s) (hwf : F.Wf s) : F.Current s := by
  intro table ts name i ht hi
  rcases hwf.exists_tree (Schema.mem_paths ht hi) with ⟨tree, htree, hw⟩
  refine ⟨tree, htree, fun leaf hleaf => ?_⟩
  have hentry : F.value? table name leaf.key = some leaf.value := by
    rw [Forest.value?_eq htree]
    exact hw.get?_leaf hleaf
  have hc := h.consistent table ts ht
  rcases hc.owned name i hi leaf.key leaf.value hentry with ⟨p, hp, hst⟩
  have haccepts : i.Accepts leaf.value := hc.accepts p leaf.value hp name i hi
  obtain ⟨keys, hkeys⟩ : ∃ keys, i.storedKeys table name leaf.value p = .ok keys :=
    IndexSchema.exists_storedKeys haccepts
  have hmem : leaf.key ∈ keys := ((IndexSchema.mem_storedKeys hkeys).2 leaf.key).2 hst
  exact ⟨p, keys, ⟨hc.primaryKey p leaf.value hp, hp⟩, hkeys, hmem⟩

/-- Where all entries are about what is stored now, no query finds anything else. -/
theorem Current.answers (h : F.Current s) (hwf : F.Wf s) {scan : Scan} {table index : String}
    {args : List Arg} {channel : Channel} {objects : List α}
    (hanswer : scan.within s F table index args = .ok (channel, objects)) :
    ∃ ts, s.table? table = some ts ∧ ∀ o ∈ objects, ∃ p, F.Holds table ts p o := by
  rw [Scan.within] at hanswer
  cases hq : s.resolve table index args with
  | error e =>
    rw [hq] at hanswer
    cases hanswer
  | ok q =>
    rcases Schema.resolve_spec hq with ⟨ts, ht, hi⟩
    rcases h table ts q.name q.index ht hi with ⟨tree, htree, hleaves⟩
    simp only [hq, htree] at hanswer
    refine ⟨ts, ht, fun o ho => ?_⟩
    have hlisted : o ∈ (scan.answer q tree).2 := by
      rw [Except.ok.inj hanswer]
      exact ho
    rcases Scan.exists_leaf (hwf.tree _ tree htree) hlisted with ⟨leaf, hleaf, rfl⟩
    rcases hleaves leaf hleaf with ⟨p, _, hholds, _⟩
    exact ⟨p, hholds⟩

end Forest

namespace Engine

/-- No entry dangles. Whatever a run over stores whose index paths differ has led to, and
whatever stored keys its objects have shared: in each store and in each transaction, each entry
of each index is about the very object that is stored now under its primary key, and stands
under one of the stored keys of this object. So a query in a transaction finds objects that are
stored now, and nothing else. -/
theorem entries_current {actions : List (Action α)}
    (hnd : ∀ schema settings, .create schema settings ∈ actions → schema.paths.Nodup) :
    let s : Engine α := performAll {} actions
    (∀ (n : Nat) (st : Store α), s.stores[n]? = some st →
      Forest.Current st.root.get? st.schema) ∧
    ∀ (id : Nat) (t : Txn α), s.txns[id]? = some t → t.forest.Current t.schema ∧
      ∀ scan table index args channel objects,
        s.ask id scan table index args = some (.ok (channel, objects)) →
        ∃ ts, t.schema.table? table = some ts ∧
          ∀ o ∈ objects, ∃ p, t.forest.Holds table ts p o := by
  intro s
  have hs : s.Sound := Sound.empty.performAll actions
  have hengine : (Chronicle.performAll {} actions : Chronicle α).engine = s :=
    Chronicle.engine_performAll {} actions
  constructor
  · intro n st hst
    have hshows : (Chronicle.performAll {} actions).Shows st.schema st.root.get?
        ((Chronicle.performAll {} actions).kept n) :=
      .inl ⟨n, st, hengine ▸ hst, rfl, rfl, rfl⟩
    exact (hshows.tidy hnd).current (hs.stores n st hst).trees
  · intro id t ht
    have hshows : (Chronicle.performAll {} actions).Shows t.schema t.forest
        ((Chronicle.performAll {} actions).seen id) :=
      .inr ⟨id, t, hengine ▸ ht, rfl, rfl, rfl⟩
    rcases hs.txns id t ht with ⟨st, _, hf⟩
    have hwf : t.forest.Wf t.schema := hf.sound.wf_forest
    have hcurrent : t.forest.Current t.schema := (hshows.tidy hnd).current hwf
    refine ⟨hcurrent, fun scan table index args channel objects hask => ?_⟩
    have hactive := active_of_ask ht hask
    rw [hs.ask_eq ht hactive] at hask
    exact hcurrent.answers hwf (Option.some.inj hask)

/-- Two pages share a slug. The first one is shadowed and gets deleted, which takes the entry of
the second one with it, and a third page brings the slug back. -/
theorem entries_current_pages :
    let put (path title : String) : Action Page :=
      .write 0 (.insert Page.pages { path := path, slug := "same", title := title })
    let actions := [.create Page.schema {}, .requestWrite 0, .acquireWrite 0, put "/a" "one",
      put "/b" "two", .write 0 (.delete Page.pages { path := "/a" }), put "/c" "three",
      put "/b" "four", .commit 0, .openRead 0]
    let s : Engine Page := performAll {} actions
    (∀ schema settings, .create schema settings ∈ actions → schema.paths.Nodup) ∧
      (∀ (n : Nat) (st : Store Page), s.stores[n]? = some st →
        Forest.Current st.root.get? st.schema) ∧
      ∀ (id : Nat) (t : Txn Page), s.txns[id]? = some t → t.forest.Current t.schema ∧
        ∀ scan table index args channel objects,
          s.ask id scan table index args = some (.ok (channel, objects)) →
          ∃ ts, t.schema.table? table = some ts ∧
            ∀ o ∈ objects, ∃ p, t.forest.Holds table ts p o := by
  intro put actions s
  have hnd (schema : Schema Page) (settings : Settings) (h : .create schema settings ∈ actions) :
      schema.paths.Nodup := by
    simp only [actions, put, List.mem_cons, List.not_mem_nil, reduceCtorEq, or_false,
      Action.create.injEq] at h
    rw [h.1]
    decide +kernel
  exact ⟨hnd, entries_current hnd⟩

/-- The slug is found with the page that was stored last under it. A page that was stored
before is shadowed, and found by its path only. -/
example :
    let put (path title : String) : Action Page :=
      .write 0 (.insert Page.pages { path := path, slug := "same", title := title })
    let s : Engine Page := performAll {} [.create Page.schema {}, .requestWrite 0,
      .acquireWrite 0, put "/a" "one", put "/b" "two"]
    let titles (index arg : String) : Option (Except Error (List String)) :=
      (s.ask 0 .all Page.pages index [.text arg]).map (·.map fun x => x.2.map Page.title)
    titles "slug" "same" = some (.ok ["two"]) ∧ titles primaryName "/a" = some (.ok ["one"]) := by
  decide +kernel

end Engine

end SnapStore
