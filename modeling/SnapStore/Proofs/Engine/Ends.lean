import SnapStore.Proofs.Engine.Current
import SnapStore.Proofs.Engine.Matches
import SnapStore.Proofs.Engine.Tenure
import SnapStore.Proofs.Index.Facets

/-! # The two ends of a list

A query for one object takes a short cut. Where its key addresses at most one entry, it looks the
key up, and does not seek the entries whose stored keys start with it. Both come to the same unless
a stored key goes on behind the key of the query. For texts without zero characters this cannot
happen, since the zero byte that closes their keys stands nowhere else.

Main statement: `Chronicle.first_last_of_lists`.
-/

namespace SnapStore

variable {α : Type}

/-! ## What a query finds -/

namespace Engine

/-- The objects that a query in a transaction finds. -/
def find (s : Engine α) (id : Nat) (scan : Scan) (table index : String) (args : List Arg) :
    Option (Except Error (List α)) :=
  (s.ask id scan table index args).map (·.map Prod.snd)

variable {s : Engine α} {id : Nat} {t : Txn α} {scan scan' : Scan} {table index : String}
  {args : List Arg} {q : Query α} {e : Error}

/-- A query that is understood reads the tree of its index. -/
theorem Sound.exists_tree (hs : s.Sound) (ht : s.txns[id]? = some t) (hactive : t.state = .active)
    (hq : t.schema.resolve table index args = .ok q) :
    ∃ tree, t.forest (indexPath table q.name) = some tree ∧ tree.Wf ∧
      ∀ scan, s.find id scan table index args = some (.ok (scan.answer q tree).2) := by
  rcases hs.txns id t ht with ⟨_, _, hf⟩
  rcases Schema.resolve_spec hq with ⟨ts, hts, hi⟩
  rcases hf.sound.wf_forest.exists_tree (Schema.mem_paths hts hi) with ⟨tree, htree, hw⟩
  refine ⟨tree, htree, hw, fun scan => ?_⟩
  rw [find, hs.ask_eq ht hactive, Scan.within, hq]
  simp only [htree]
  rfl

/-- Queries of all sorts fail alike. -/
theorem find_error_of_find_error (h : s.find id scan table index args = some (.error e)) :
    s.find id scan' table index args = some (.error e) := by
  simp only [find, ask, run] at h ⊢
  cases ht : s.txns[id]? with
  | none => simp [ht] at h
  | some t =>
    cases hst : s.stores[t.store]? with
    | none => simp [ht, hst] at h
    | some st =>
      rcases scan.run_eq table index args t st.stats with ⟨stats, hrun⟩
      rcases scan'.run_eq table index args t st.stats with ⟨stats', hrun'⟩
      cases hlookup : t.lookup table index args with
      | error cause =>
        simp only [ht, hst, hrun, hrun', hlookup] at h ⊢
        exact h
      | ok x => simp [ht, hst, hrun, hlookup, Except.map] at h

/-- Only a query that is understood finds anything. -/
theorem Sound.exists_query (hs : s.Sound) (ht : s.txns[id]? = some t) {objects : List α}
    (h : s.find id scan table index args = some (.ok objects)) :
    t.state = .active ∧ ∃ q, t.schema.resolve table index args = .ok q := by
  rcases Option.map_eq_some_iff.1 h with ⟨answer, hask, hanswer⟩
  rcases map_eq_ok_iff.1 hanswer with ⟨found, rfl, _⟩
  have hactive := active_of_ask ht hask
  rw [hs.ask_eq ht hactive, Scan.within] at hask
  cases hq : t.schema.resolve table index args with
  | error e => simp [hq] at hask
  | ok q => exact ⟨hactive, q, rfl⟩

end Engine

/-! ## Keys of queries -/

@[simp] theorem stemBase?_append (base : String) : stemBase? (base ++ stemSuffix) = some base := by
  simp [stemBase?]

namespace Schema

/-- A query that does not ask for stems looks for the key that its index gives the arguments. -/
theorem key_of_resolve {s : Schema α} {table index : String} {args : List Arg} {q : Query α}
    (h : s.resolve table index args = .ok q) (hkey : q.byStem = false) (hargs : args ≠ []) :
    q.index.indexer.args.key args = .ok q.key := by
  unfold resolve at h
  cases ht : s.table? table with
  | none => simp [ht] at h
  | some ts =>
    simp only [ht] at h
    split at h
    · cases h
    · rcases map_eq_ok_iff.1 h with ⟨key, hkeyOf, rfl⟩
      rw [keyOf, if_neg (by simpa using hargs), if_neg (by simpa using hkey)] at hkeyOf
      exact mapError_eq_ok_iff.1 hkeyOf

/-- The whole name of an index asks for the keys of its arguments. -/
theorem resolve_name {s : Schema α} (hnd : s.paths.Nodup) {table name : String}
    {ts : TableSchema α} {i : IndexSchema α} (ht : s.table? table = some ts)
    (hi : (name, i) ∈ ts.indexes) {args : List Arg} {k : Key} (hargs : args ≠ [])
    (hk : i.indexer.args.key args = .ok k) :
    s.resolve table name args = .ok ⟨name, i, k, false⟩ := by
  have hfind : Catalog.find? ts.indexes name = some i :=
    (Catalog.find?_eq_some_iff (nodup_keys hnd ht)).2 hi
  have hasked : indexAsked ts.indexes name = (name, false) := by
    unfold indexAsked
    split
    · rw [hfind]
      rfl
    · rfl
  have hkeyOf : keyOf name i false args = .ok k := by
    rw [keyOf, if_neg (by simpa using hargs), if_neg Bool.false_ne_true]
    exact mapError_eq_ok_iff.2 hk
  simp only [resolve, ht, hasked, hfind, hkeyOf]
  rfl

/-- The name of an index with the suffix for stems asks for the stems of its arguments, unless an
index has the whole name. -/
theorem resolve_stem {s : Schema α} {table name : String} {ts : TableSchema α} {i : IndexSchema α}
    (ht : s.table? table = some ts) (hi : Catalog.find? ts.indexes name = some i)
    (hname : Catalog.find? ts.indexes (name ++ stemSuffix) = none) {args : List Arg} {k : Key}
    (hargs : args ≠ []) (hk : i.indexer.args.stem? args = some (.ok k)) :
    s.resolve table (name ++ stemSuffix) args = .ok ⟨name, i, k, true⟩ := by
  have hasked : indexAsked ts.indexes (name ++ stemSuffix) = (name, true) := by
    simp [indexAsked, hname]
  have hkeyOf : keyOf name i true args = .ok k := by
    rw [keyOf, if_neg (by simpa using hargs), if_pos rfl, hk]
    rfl
  simp only [resolve, ht, hasked, hi, hkeyOf]
  rfl

end Schema

/-! ## Short cuts -/

namespace Query

/-- A stored key goes on behind the key of the query. -/
def IsContinued (q : Query α) (tree : Tree α) : Prop :=
  ∃ l ∈ tree.leaves, q.key <+: l.key ∧ l.key ≠ q.key

variable {q : Query α} {tree : Tree α}

theorem objects_all (q : Query α) (tree : Tree α) :
    (q.all tree).objects = (tree.seek q.key).2.map Leaf.value := rfl

theorem objects_allDown (q : Query α) (tree : Tree α) :
    (q.allDown tree).objects = (tree.seekDown q.key).2.map Leaf.value := rfl

theorem first_of_not_isExact (h : ¬ q.isExact = true) :
    (q.first tree).2 = (q.all tree).objects.head? := by
  rw [first, if_neg h, objects_all]
  exact List.head?_map.symm

theorem last_of_not_isExact (h : ¬ q.isExact = true) :
    (q.last tree).2 = (q.allDown tree).objects.head? := by
  rw [last, if_neg h, objects_allDown]
  exact List.head?_map.symm

/-- The entry under the key of the query comes first of all that it finds. -/
theorem head?_all (hw : tree.Wf) {o : α} (h : tree.get? q.key = some o) :
    (q.all tree).objects.head? = some o := by
  rcases hw.get?_eq_some_iff.1 h with ⟨l, hl, hkey, rfl⟩
  have hmem : l ∈ (tree.seek q.key).2 := hw.mem_seek.2 ⟨hl, hkey ▸ List.prefix_rfl⟩
  have hascends : (tree.seek q.key).2.Pairwise (·.key < ·.key) := by
    rw [hw.seek_eq]
    exact hw.pairwise_leaves.filter _
  cases hfound : (tree.seek q.key).2 with
  | nil => simp [hfound] at hmem
  | cons m rest =>
    have hm : m ∈ (tree.seek q.key).2 := hfound ▸ List.mem_cons_self
    have hle : l.key ≤ m.key := hkey ▸ List.IsPrefix.le (hw.mem_seek.1 hm).2
    rw [hfound] at hmem hascends
    rcases List.mem_cons.1 hmem with rfl | hrest
    · rw [objects_all, hfound]
      rfl
    · exact absurd (List.rel_of_pairwise_cons hascends hrest) (List.not_lt.2 hle)

/-- The short cut finds the first object unless a stored key goes on behind the key of the query
while nothing is stored under this key. -/
theorem first_eq_iff (hw : tree.Wf) : (q.first tree).2 = (q.all tree).objects.head? ↔
    (q.isExact = true → q.IsContinued tree → (tree.get? q.key).isSome = true) := by
  by_cases hexact : q.isExact = true
  · rw [first, if_pos hexact, Tree.watch_snd]
    cases hget : tree.get? q.key with
    | some o => simp [head?_all hw hget]
    | none =>
      have hkey (l : Leaf α) (hl : l ∈ tree.leaves) : l.key ≠ q.key := by
        intro heq
        rw [← heq, hw.get?_leaf hl] at hget
        cases hget
      constructor
      · rintro hhead _ ⟨l, hl, hpre, _⟩
        have hmem : l ∈ (tree.seek q.key).2 := hw.mem_seek.2 ⟨hl, hpre⟩
        have hnil : (tree.seek q.key).2 = [] :=
          List.map_eq_nil_iff.1 (List.head?_eq_none_iff.1 hhead.symm)
        rw [hnil] at hmem
        cases hmem
      · intro hno
        refine (List.head?_eq_none_iff.2 (List.map_eq_nil_iff.2 ?_)).symm
        refine List.eq_nil_iff_forall_not_mem.2 fun l hmem => ?_
        rcases hw.mem_seek.1 hmem with ⟨hl, hpre⟩
        cases hno hexact ⟨l, hl, hpre, hkey l hl⟩
  · exact ⟨fun _ h => absurd h hexact, fun _ => first_of_not_isExact hexact⟩

/-- The short cut finds the last object if no stored key goes on behind the key of the query. -/
theorem last_eq (hw : tree.Wf) (h : q.isExact = true → ¬ q.IsContinued tree) :
    (q.last tree).2 = (q.allDown tree).objects.head? := by
  by_cases hexact : q.isExact = true
  · rw [last, if_pos hexact, Tree.watch_snd]
    have hmem (l : Leaf α) : l ∈ (tree.seekDown q.key).2 ↔ l ∈ tree.leaves ∧ l.key = q.key := by
      rw [tree.seekDown_eq, List.mem_reverse, hw.mem_seek]
      refine and_congr_right fun hl => ⟨fun hpre => ?_, fun heq => heq ▸ List.prefix_rfl⟩
      exact Classical.byContradiction fun hne => h hexact ⟨l, hl, hpre, hne⟩
    rw [objects_allDown]
    cases hfound : (tree.seekDown q.key).2 with
    | nil =>
      cases hget : tree.get? q.key with
      | none => rfl
      | some o =>
        rcases hw.get?_eq_some_iff.1 hget with ⟨l, hl, hkey, _⟩
        have hl' := (hmem l).2 ⟨hl, hkey⟩
        rw [hfound] at hl'
        cases hl'
    | cons l rest =>
      rcases (hmem l).1 (hfound ▸ List.mem_cons_self) with ⟨hl, hkey⟩
      rw [← hkey, hw.get?_leaf hl]
      rfl
  · exact last_of_not_isExact hexact

/-- Where no two entries hold the same object, the short cut misses the last object if a stored key
goes on behind the key of the query. -/
theorem last_ne (hw : tree.Wf)
    (hone : ∀ l ∈ tree.leaves, ∀ m ∈ tree.leaves, l.value = m.value → l.key = m.key)
    (hexact : q.isExact = true) (hcontinued : q.IsContinued tree) :
    (q.last tree).2 ≠ (q.allDown tree).objects.head? := by
  rcases hcontinued with ⟨c, hc, hpre, hne⟩
  have hmem (l : Leaf α) : l ∈ (tree.seekDown q.key).2 ↔ l ∈ tree.leaves ∧ q.key <+: l.key := by
    rw [tree.seekDown_eq, List.mem_reverse, hw.mem_seek]
  have hdescends : (tree.seekDown q.key).2.Pairwise fun l m => m.key < l.key := by
    rw [tree.seekDown_eq, List.pairwise_reverse, hw.seek_eq]
    exact hw.pairwise_leaves.filter _
  have habove : q.key < c.key := Std.lt_of_le_of_ne (List.IsPrefix.le hpre) (Ne.symm hne)
  rw [last, if_pos hexact, Tree.watch_snd, objects_allDown]
  cases hfound : (tree.seekDown q.key).2 with
  | nil =>
    have hc' := (hmem c).2 ⟨hc, hpre⟩
    rw [hfound] at hc'
    cases hc'
  | cons l rest =>
    intro hlast
    have hl := ((hmem l).1 (hfound ▸ List.mem_cons_self)).1
    have hle : c.key ≤ l.key := by
      have hc' := (hmem c).2 ⟨hc, hpre⟩
      rw [hfound] at hc' hdescends
      rcases List.mem_cons.1 hc' with rfl | hrest
      · exact List.le_refl _
      · exact List.le_of_lt (List.rel_of_pairwise_cons hdescends hrest)
    -- the entry under the key itself holds another object
    rcases hw.get?_eq_some_iff.1 hlast with ⟨m, hm, hkey, hvalue⟩
    have hsame : m.key = l.key := hone m hm l hl hvalue
    rw [← hsame, hkey] at hle
    exact hle habove

/-- A short cut is for an index that is unique and over single keys. -/
theorem isExact_spec (h : q.isExact = true) :
    q.byStem = false ∧ q.key ≠ [] ∧ q.index.carriesPrimary = false ∧
      q.index.indexer.isSingle = true := by
  simp only [isExact, Bool.and_eq_true, Bool.not_eq_true', List.isEmpty_eq_false_iff] at h
  refine ⟨h.1.1, h.1.2, h.2, ?_⟩
  have hcarries := h.2
  simp only [IndexSchema.carriesPrimary, Bool.or_eq_false_iff, Bool.not_eq_false'] at hcarries
  exact hcarries.2

/-- The index of a short cut stores an object under the one key that it derives. -/
theorem keys_of_stores (hexact : q.isExact = true) {o : α} {p k : Key}
    (h : q.index.Stores o p k) : q.index.indexer.keys o = .ok [k] := by
  rcases isExact_spec hexact with ⟨_, _, hcarries, hsingle⟩
  exact ((IndexSchema.stores_iff_derives hcarries).1 h).keys_eq hsingle

end Query

/-- In an index that is unique and over single keys each entry stands under the one key of its
object. -/
theorem Forest.Consistent.derives_key {F : Forest α} {table : String} {ts : TableSchema α}
    (h : F.Consistent table ts) {q : Query α} (hi : (q.name, q.index) ∈ ts.indexes)
    (hexact : q.isExact = true) {tree : Tree α} (htree : F (indexPath table q.name) = some tree)
    (hw : tree.Wf) {l : Leaf α} (hl : l ∈ tree.leaves) :
    q.index.indexer.keys l.value = .ok [l.key] := by
  have hentry : F.value? table q.name l.key = some l.value := by
    rw [Forest.value?_eq htree]
    exact hw.get?_leaf hl
  rcases h.owned q.name q.index hi l.key l.value hentry with ⟨_, _, hst⟩
  exact Query.keys_of_stores hexact hst

/-- No two entries of such an index hold the same object. -/
theorem Forest.Consistent.key_eq_of_value_eq {F : Forest α} {table : String} {ts : TableSchema α}
    (h : F.Consistent table ts) {q : Query α} (hi : (q.name, q.index) ∈ ts.indexes)
    (hexact : q.isExact = true) {tree : Tree α} (htree : F (indexPath table q.name) = some tree)
    (hw : tree.Wf) {l : Leaf α} (hl : l ∈ tree.leaves) {m : Leaf α} (hm : m ∈ tree.leaves)
    (hvalue : l.value = m.value) : l.key = m.key := by
  have hlkey := h.derives_key hi hexact htree hw hl
  have hmkey := h.derives_key hi hexact htree hw hm
  rw [hvalue] at hlkey
  exact List.singleton_inj.1 (Except.ok.inj (hlkey.symm.trans hmkey))

/-- Nor does a stored key of it go on behind the key of a query, if the index is over facets and the
texts of the objects have no zero characters. -/
theorem Forest.Consistent.not_isContinued {F : Forest α} {table : String} {ts : TableSchema α}
    (h : F.Consistent table ts) {q : Query α} (hi : (q.name, q.index) ∈ ts.indexes)
    (hexact : q.isExact = true) {tree : Tree α} (htree : F (indexPath table q.name) = some tree)
    (hw : tree.Wf) {s : Schema α} {index : String} {args : List Arg}
    (hq : s.resolve table index args = .ok q) {facets : List (Facet α)}
    (hover : q.index.IsOver facets)
    (hplain : ∀ l ∈ tree.leaves, ∀ facet ∈ facets, facet.Plain l.value) :
    ¬ q.IsContinued tree := by
  rintro ⟨l, hl, hpre, hne⟩
  rcases Query.isExact_spec hexact with ⟨hstem, hkey, _, _⟩
  have hargs : args ≠ [] := by
    rintro rfl
    exact hkey (Schema.key_of_resolve_nil hq)
  have hlkey := h.derives_key hi hexact htree hw hl
  have hd : q.index.Derives l.value l.key := ⟨[l.key], hlkey, List.mem_singleton_self _⟩
  have hk := Schema.key_of_resolve hq hstem hargs
  exact hne (hover.eq_of_isPrefix hk hd (hplain l hl) hpre).symm

/-- What an index holds under a key is the value of an entry. -/
theorem Forest.mem_values {F : Forest α} {table name : String} {tree : Tree α}
    (htree : F (indexPath table name) = some tree) (hw : tree.Wf) {k : Key} {o : α}
    (h : F.value? table name k = some o) : o ∈ tree.leaves.map Leaf.value := by
  rw [Forest.value?_eq htree, hw.get?_eq_some_iff] at h
  rcases h with ⟨l, hl, _, rfl⟩
  exact List.mem_map_of_mem hl

/-- Where one store is made first and no other one later, its schema is the only one. -/
theorem Action.schema_of_mem {first schema : Schema α} {settings settings' : Settings}
    {rest : List (Action α)} (hrest : ∀ s c, .create s c ∉ rest)
    (h : .create schema settings ∈ .create first settings' :: rest) : schema = first := by
  rcases List.mem_cons.1 h with heq | hmem
  · exact (Action.create.inj heq).1
  · exact absurd hmem (hrest schema settings)

variable {actions : List (Action α)}

/-- Where all stores of a run have one schema, so has every transaction. -/
theorem Chronicle.schema_of_creates {schema : Schema α} (hnd : schema.paths.Nodup)
    (hcreate : ∀ s settings, .create s settings ∈ actions → s = schema) {id : Nat} {t : Txn α}
    (ht : (performAll {} actions).engine.txns[id]? = some t) : t.schema = schema := by
  have hshows : (performAll {} actions).Shows t.schema t.forest ((performAll {} actions).seen id) :=
    .inr ⟨id, t, ht, rfl, rfl, rfl⟩
  rcases (hshows.recorded fun s settings h => hcreate s settings h ▸ hnd).1 with ⟨settings, h⟩
  exact hcreate t.schema settings h

/-- The transactions of a run with one store have the schema of this. -/
theorem Engine.schema_of_create {schema : Schema α} {settings : Settings} {rest : List (Action α)}
    (hnd : schema.paths.Nodup) (hrest : ∀ s c, .create s c ∉ rest) {id : Nat} {t : Txn α}
    (ht : (performAll {} (.create schema settings :: rest)).txns[id]? = some t) :
    t.schema = schema := by
  have ht' : (Chronicle.performAll {} (.create schema settings :: rest)).engine.txns[id]? =
      some t := by
    rwa [Chronicle.engine_performAll]
  exact Chronicle.schema_of_creates hnd (fun s c h => Action.schema_of_mem hrest h) ht'

namespace Chronicle

/-- When the short cut of queries for one object is right. Take any transaction of any run. Queries
for one object fail with the same errors as those for all. Where `all` lists objects, `allDown`
lists them in the opposite order, and `first` finds the first of them exactly if no stored key goes
on behind the key of a query that takes the short cut, or something is stored under that key.
`last` finds the last of them if no stored key goes on there, and, over stores whose index paths
differ, only then. An index over facets without zero characters in their texts has no such keys. -/
theorem first_last_of_lists {id : Nat} {t : Txn α}
    (ht : (performAll {} actions).engine.txns[id]? = some t) (table index : String)
    (args : List Arg) :
    let find (scan : Scan) := (performAll {} actions).engine.find id scan table index args
    (∀ e, (find .first = some (.error e) ↔ find .all = some (.error e)) ∧
      (find .last = some (.error e) ↔ find .allDown = some (.error e))) ∧
    ∀ objects, find .all = some (.ok objects) → find .allDown = some (.ok objects.reverse) ∧
      ∃ q tree, t.schema.resolve table index args = .ok q ∧
        t.forest (indexPath table q.name) = some tree ∧
        (find .first = some (.ok objects.head?.toList) ↔
          (q.isExact = true → q.IsContinued tree → (tree.get? q.key).isSome = true)) ∧
        ((q.isExact = true → ¬ q.IsContinued tree) →
          find .last = some (.ok objects.getLast?.toList)) ∧
        ((∀ schema settings, .create schema settings ∈ actions → schema.paths.Nodup) →
          (find .last = some (.ok objects.getLast?.toList) →
            q.isExact = true → ¬ q.IsContinued tree) ∧
          ∀ facets, q.index.IsOver facets →
            (∀ l ∈ tree.leaves, ∀ facet ∈ facets, facet.Plain l.value) →
            q.isExact = true → ¬ q.IsContinued tree) := by
  intro find
  have hs : (performAll {} actions).engine.Sound := sound_performAll actions
  refine ⟨fun e => ⟨⟨?_, ?_⟩, ?_, ?_⟩, fun objects hall => ?_⟩
  · exact Engine.find_error_of_find_error
  · exact Engine.find_error_of_find_error
  · exact Engine.find_error_of_find_error
  · exact Engine.find_error_of_find_error
  rcases hs.exists_query ht hall with ⟨hactive, q, hq⟩
  rcases hs.exists_tree ht hactive hq with ⟨tree, htree, hw, hfind⟩
  obtain rfl : (q.all tree).objects = objects := Except.ok.inj (Option.some.inj
    ((hfind .all).symm.trans hall))
  have hdown : (q.allDown tree).objects = (q.all tree).objects.reverse := by
    rw [Query.objects_all, Query.objects_allDown, tree.seekDown_eq, List.map_reverse]
  have htoList {x y : Option α} : (some (.ok x.toList) : Option (Except Error (List α))) =
      some (.ok y.toList) ↔ x = y := by
    cases x <;> cases y <;> simp
  have hfirst : find .first = some (.ok (q.all tree).objects.head?.toList) ↔
      (q.first tree).2 = (q.all tree).objects.head? := by
    rw [show find .first = some (.ok (q.first tree).2.toList) from hfind .first, htoList]
  have hlast : find .last = some (.ok (q.all tree).objects.getLast?.toList) ↔
      (q.last tree).2 = (q.allDown tree).objects.head? := by
    rw [show find .last = some (.ok (q.last tree).2.toList) from hfind .last, htoList, hdown,
      List.head?_reverse]
  refine ⟨(hfind .allDown).trans (by rw [← hdown]; rfl), q, tree, hq, htree,
    hfirst.trans (Query.first_eq_iff hw), fun hno => hlast.2 (Query.last_eq hw hno), fun hnd => ?_⟩
  -- over stores whose index paths differ, the entries of the index are keys of their objects
  have hshows : (performAll {} actions).Shows t.schema t.forest ((performAll {} actions).seen id) :=
    .inr ⟨id, t, ht, rfl, rfl, rfl⟩
  rcases Schema.resolve_spec hq with ⟨ts, hts, hi⟩
  have hconsistent := (hshows.tidy hnd).consistent table ts hts
  refine ⟨fun hfound hexact hcontinued => ?_, fun facets hover hplain hexact => ?_⟩
  · have hone (l) (hl : l ∈ tree.leaves) (m) (hm : m ∈ tree.leaves) :=
      hconsistent.key_eq_of_value_eq hi hexact htree hw hl hm
    exact Query.last_ne hw hone hexact hcontinued (hlast.1 hfound)
  · exact hconsistent.not_isContinued hi hexact htree hw hq hover hplain

/-- One of two slugs begins the other one, and still the short cut finds just the page that `all`
and `allDown` list. -/
theorem first_last_of_lists_pages :
    let first : Page := { path := "/a", slug := "a" }
    let second : Page := { path := "/b", slug := "ab" }
    let actions : List (Action Page) :=
      [.create Page.schema {}, .requestWrite 0, .acquireWrite 0,
        .write 0 (.insert Page.pages first), .write 0 (.insert Page.pages second)]
    let find (scan : Scan) :=
      (performAll {} actions).engine.find 0 scan Page.pages "slug" [.text "a"]
    ∃ t, (performAll {} actions).engine.txns[0]? = some t ∧
      find .all = some (.ok [first]) ∧ find .allDown = some (.ok [first]) ∧
      ∃ q tree, t.schema.resolve Page.pages "slug" [.text "a"] = .ok q ∧
        t.forest (indexPath Page.pages q.name) = some tree ∧ q.isExact = true ∧
        ¬ q.IsContinued tree ∧
        find .first = some (.ok [first]) ∧ find .last = some (.ok [first]) := by
  intro first second actions find
  have hcreate (schema : Schema Page) (settings : Settings)
      (h : .create schema settings ∈ actions) : schema = Page.schema :=
    Action.schema_of_mem (by simp) h
  have hpaths : Page.schema.paths.Nodup := by decide +kernel
  have hopen : (performAll {} actions).engine.txns[0]?.map (fun t =>
      (t.forest (indexPath Page.pages "slug")).map (·.leaves.map Leaf.value)) =
        some (some [first, second]) := by decide +kernel
  rcases Option.map_eq_some_iff.1 hopen with ⟨t, ht, hleaves⟩
  have hschema : t.schema = Page.schema := schema_of_creates hpaths hcreate ht
  have hall : find .all = some (.ok [first]) := by decide +kernel
  rcases (first_last_of_lists ht Page.pages "slug" [.text "a"]).2 [first] hall with
    ⟨hdown, q, tree, hq, htree, hfirst, hlast, hnodup⟩
  have hquery : Page.schema.resolve Page.pages "slug" [.text "a"] =
      .ok ⟨"slug", Page.bySlug, [97, 0], false⟩ := rfl
  obtain rfl := Except.ok.inj (hquery.symm.trans (hschema ▸ hq))
  have hplain : ∀ l ∈ tree.leaves, ∀ facet ∈ [Facet.text (some ·.slug) false],
      facet.Plain l.value := by
    intro l hl facet hfacet
    obtain rfl := List.mem_singleton.1 hfacet
    simp only [htree, Option.map_some, Option.some.injEq] at hleaves
    have hvalue : l.value ∈ [first, second] := hleaves ▸ List.mem_map_of_mem hl
    rintro s ⟨⟩
    rcases List.mem_pair.1 hvalue with h | h
    · rw [h]
      decide
    · rw [h]
      decide
  have hno := (hnodup fun s settings h => hcreate s settings h ▸ hpaths).2
    [.text (some ·.slug) false] (.single rfl) hplain
  exact ⟨t, ht, hall, hdown, _, tree, hq, htree, rfl, hno rfl,
    hfirst.2 fun hexact hcontinued => absurd hcontinued (hno hexact), hlast hno⟩

/-- A path with a zero character inside has a key that goes on behind the key of its front. Asked
for the front, `all` and `allDown` list the page, but `first` and `last` find nothing. -/
theorem first_last_missed :
    let page : Page := { path := "a\u0000b" }
    let actions : List (Action Page) :=
      [.create Page.schema {}, .requestWrite 0, .acquireWrite 0,
        .write 0 (.insert Page.pages page)]
    let find (scan : Scan) :=
      (performAll {} actions).engine.find 0 scan Page.pages primaryName [.text "a"]
    find .all = some (.ok [page]) ∧ find .allDown = some (.ok [page]) ∧
      find .first = some (.ok []) ∧ find .last = some (.ok []) := by
  decide +kernel

end Chronicle

end SnapStore
