import SnapStore.Proofs.Engine.Ends
import SnapStore.Sample.Station

/-! # Ranges of values

An index over numbers, or over texts in which case counts, keeps the objects in the order of their
values: the keys of values sort as the values do, with or without primary keys behind them. A bound
is the key of a value. All entries with this value lie above it, and a search downward, which would
miss those that carry a primary key, lists them first. An entry that carries an empty primary key
stands at the bound itself, so that a search downward lists it twice.

Main statements: `IndexSchema.Orders.exists_ranking` (the entries of an index are rows in the order
of values), `Ledger.Ranking.downFrom_eq_iff` (when a search downward lists each row once) and
`Chronicle.ranges_by_value`. What an empty primary key leads to is shown by
`range_overlaps_empty_primary`.
-/

namespace SnapStore

variable {α V : Type}

/-! ## Rows by value -/

/-- A stored object, with its primary key and a value that an index reads of it. -/
structure Ranked (V α : Type) where
  value : V
  primary : Key
  object : α

/-- The objects of a table in the ledger that have a value, by ascending values, and those of one
value by ascending primary keys. -/
structure Ledger.Ranking [LT V] (L : Ledger α) (table : String) (value? : α → Option V)
    (rows : List (Ranked V α)) : Prop where
  mem_iff : ∀ x, x ∈ rows ↔ L table x.primary = some x.object ∧ value? x.object = some x.value
  ascends : rows.Pairwise fun x y => x.value < y.value ∨ x.value = y.value ∧ x.primary < y.primary

namespace IndexSchema

/-- The index derives from an object the key of its value, if there is one. The keys of values of
a sort are ordered as the values are. -/
structure Orders [LT V] (i : IndexSchema α) (value? : α → Option V) (sort : V → Prop)
    (key : V → Key) : Prop where
  derives_iff : ∀ o d, i.Derives o d ↔ ∃ v, value? o = some v ∧ key v = d
  sorts : Key.Sorts sort key
  ne_nil : ∀ v, key v ≠ []

/-- What follows the derived key in a stored key. -/
def rest (i : IndexSchema α) (primary : Key) : Key :=
  if i.carriesPrimary then primary else []

theorem storedKey_eq (i : IndexSchema α) (d p : Key) : i.storedKey d p = d ++ i.rest p := by
  cases hcarries : i.carriesPrimary <;> simp [storedKey, rest, hcarries]

/-- The key under which the index stores a row. -/
def rowKey (i : IndexSchema α) (key : V → Key) (x : Ranked V α) : Key :=
  key x.value ++ i.rest x.primary

/-- The rows that a search downward from the value `v` lists. Where stored keys carry a primary key,
the row of this value with the empty one is listed twice. -/
def downFrom [LE V] [DecidableLE V] [DecidableEq V] (i : IndexSchema α) (v : V)
    (rows : List (Ranked V α)) : List (Ranked V α) :=
  (rows.filter (·.value ≤ v)).reverse.flatMap fun x =>
    if i.carriesPrimary = true ∧ x.value = v ∧ x.primary = [] then [x, x] else [x]

variable [LE V] [LT V] [Std.IsLinearOrder V] [Std.LawfulOrderLT V] {i : IndexSchema α}
  {value? : α → Option V} {sort : V → Prop} {key : V → Key} {L : Ledger α} {table : String}

/-- The items of an index that orders values are rows in the order of values. -/
theorem Orders.exists_ranking [Inhabited V] (h : i.Orders value? sort key)
    (hsort : ∀ p o v, L table p = some o → value? o = some v → sort v) {items : List (Item α)}
    (hitems : L.Items table i items) : ∃ rows, L.Ranking table value? rows ∧
      items.map (fun x => (x.key i, x.object)) = rows.map fun x => (i.rowKey key x, x.object) := by
  have hvalue (x : Item α) (hx : x ∈ items) : ∃ v, value? x.object = some v ∧ key v = x.derived :=
    (h.derives_iff _ _).1 ((hitems.mem_iff x).1 hx).2
  choose! v hv hkey using hvalue
  let row (x : Item α) : Ranked V α := ⟨v x, x.primary, x.object⟩
  have hrow (x : Item α) (hx : x ∈ items) : x.key i = i.rowKey key (row x) := by
    rw [Item.key, storedKey_eq, ← hkey x hx]
    rfl
  refine ⟨items.map row, ⟨fun y => ?_, ?_⟩, ?_⟩
  · rw [List.mem_map]
    constructor
    · rintro ⟨x, hx, rfl⟩
      exact ⟨((hitems.mem_iff x).1 hx).1, hv x hx⟩
    · rintro ⟨hstored, hy⟩
      have hmem : ⟨y.primary, y.object, key y.value⟩ ∈ items :=
        (hitems.mem_iff _).2 ⟨hstored, (h.derives_iff _ _).2 ⟨y.value, hy, rfl⟩⟩
      have hsame : v ⟨y.primary, y.object, key y.value⟩ = y.value :=
        Option.some.inj ((hv _ hmem).symm.trans hy)
      refine ⟨_, hmem, ?_⟩
      simp only [row, hsame]
  · rw [List.pairwise_map]
    refine hitems.ascends.imp_of_mem fun {x y} hx hy hlt => ?_
    have hxsort := hsort _ _ _ ((hitems.mem_iff x).1 hx).1 (hv x hx)
    have hysort := hsort _ _ _ ((hitems.mem_iff y).1 hy).1 (hv y hy)
    rw [hrow x hx, hrow y hy, rowKey, rowKey, h.sorts.append_lt_append_iff hxsort hysort] at hlt
    refine hlt.imp_right fun ⟨heq, hrest⟩ => ⟨heq, ?_⟩
    unfold rest at hrest
    split at hrest
    · exact hrest
    · exact absurd hrest (List.lt_irrefl [])
  · rw [List.map_map]
    refine List.map_congr_left fun x hx => ?_
    rw [hrow x hx]
    rfl

end IndexSchema

/-- Of the entries of an index, those whose keys pass a test are the rows whose keys do. -/
theorem Tree.filter_leaves {tree : Tree α} {i : IndexSchema α} {key : V → Key}
    {rows : List (Ranked V α)}
    (hentries : tree.entries = rows.map fun x => (i.rowKey key x, x.object)) (test : Key → Bool) :
    (tree.leaves.filter fun l => test l.key).map Leaf.value =
      (rows.filter fun x => test (i.rowKey key x)).map Ranked.object :=
  calc
    (tree.leaves.filter fun l => test l.key).map Leaf.value
      = (tree.entries.filter fun x => test x.1).map Prod.snd := by
        rw [Tree.entries, List.filter_map, List.map_map]
        rfl
    _ = (rows.filter fun x => test (i.rowKey key x)).map Ranked.object := by
        rw [hentries, List.filter_map, List.map_map]
        rfl

/-! ## Bounds -/

section bounds

variable [LE V] [LT V] [Std.IsLinearOrder V] [Std.LawfulOrderLT V] {L : Ledger α} {table : String}
  {value? : α → Option V} {rows : List (Ranked V α)}

/-- Rows up to a value are those below it and those of the value itself. -/
theorem Ledger.Ranking.filter_le [DecidableLE V] [DecidableLT V] [DecidableEq V]
    (h : L.Ranking table value? rows) (v : V) :
    rows.filter (·.value ≤ v) = rows.filter (·.value < v) ++ rows.filter (·.value = v) := by
  have hascends := h.ascends
  clear h
  induction rows with
  | nil => rfl
  | cons x rows ih =>
    rcases List.pairwise_cons.1 hascends with ⟨hx, hrows⟩
    rcases Std.lt_trichotomy x.value v with hlt | heq | hlt
    · have hne : x.value ≠ v := Std.ne_of_lt hlt
      simp [hlt, Std.le_of_lt hlt, hne, ih hrows]
    · -- no row behind has a smaller value
      have hnone : rows.filter (·.value < v) = [] := by
        refine List.filter_eq_nil_iff.2 fun y hy hlt => ?_
        have hlt := of_decide_eq_true hlt
        rw [← heq] at hlt
        rcases hx y hy with hup | ⟨hsame, _⟩
        · exact Std.lt_irrefl (Std.lt_trans hup hlt)
        · exact Std.lt_irrefl (hsame ▸ hlt)
      rw [hnone, List.nil_append] at ih
      simp [heq, Std.lt_irrefl, hnone, ih hrows]
    · have hle : ¬ x.value ≤ v := Std.not_le.2 hlt
      have hnlt : ¬ x.value < v := Std.not_lt.2 (Std.le_of_lt hlt)
      have hne : x.value ≠ v := (Std.ne_of_lt hlt).symm
      simp [hle, hnlt, hne, ih hrows]

/-- Rows that are below a value, or of the value itself and pass a test. -/
theorem Ledger.Ranking.filter_lt_or [DecidableLE V] [DecidableLT V] [DecidableEq V]
    (h : L.Ranking table value? rows) (v : V) (test : Ranked V α → Prop) [DecidablePred test] :
    rows.filter (fun x => x.value < v ∨ x.value = v ∧ test x) =
      rows.filter (·.value < v) ++ (rows.filter (·.value = v)).filter test :=
  calc
    rows.filter (fun x => x.value < v ∨ x.value = v ∧ test x)
      = (rows.filter (·.value ≤ v)).filter (fun x => x.value < v ∨ test x) := by
        rw [List.filter_filter]
        refine List.filter_congr fun x _ => ?_
        rw [← Bool.decide_and, decide_eq_decide, Std.le_iff_lt_or_eq]
        constructor
        · rintro (hlt | ⟨heq, htest⟩)
          · exact ⟨.inl hlt, .inl hlt⟩
          · exact ⟨.inr htest, .inr heq⟩
        · rintro ⟨hlt | htest, hlt | heq⟩
          · exact .inl hlt
          · exact .inl hlt
          · exact .inl hlt
          · exact .inr ⟨heq, htest⟩
    _ = rows.filter (·.value < v) ++ (rows.filter (·.value = v)).filter test := by
        rw [h.filter_le v, List.filter_append]
        congr 1
        · refine List.filter_eq_self.2 fun x hx => decide_eq_true (.inl ?_)
          simpa using (List.mem_filter.1 hx).2
        · refine List.filter_congr fun x hx => ?_
          have heq : x.value = v := by simpa using (List.mem_filter.1 hx).2
          simp [heq, Std.lt_irrefl]

omit [LE V] [LT V] [Std.IsLinearOrder V] [Std.LawfulOrderLT V] in
/-- Among rows with ascending primary keys only the first one can have an empty one. Repeating it
at once, or behind all rows in descending order, is the same. -/
theorem flatMap_twice {rows : List (Ranked V α)}
    (h : rows.Pairwise fun x y => x.primary < y.primary) :
    (rows.reverse.flatMap fun x => if x.primary = [] then [x, x] else [x]) =
      rows.reverse ++ (rows.filter (·.primary = [])).reverse := by
  cases rows with
  | nil => rfl
  | cons x rows =>
    have hrest (y : Ranked V α) (hy : y ∈ rows) : y.primary ≠ [] := by
      intro hnil
      have hlt := List.rel_of_pairwise_cons h hy
      rw [hnil] at hlt
      exact List.not_lt_nil _ hlt
    have hnone : rows.filter (·.primary = []) = [] :=
      List.filter_eq_nil_iff.2 fun y hy => by simpa using hrest y hy
    have honce : (rows.reverse.flatMap fun x => if x.primary = [] then [x, x] else [x]) =
        rows.reverse := by
      refine (List.flatMap_congr fun y hy => ?_).trans (List.flatMap_singleton' _)
      exact if_neg (hrest y (List.mem_reverse.1 hy))
    rw [List.reverse_cons, List.flatMap_append, honce, List.flatMap_singleton]
    split <;> simp [*]

/-- The rows downward from a value are those of the value itself, the one with the empty primary
key once more, and those below it. -/
theorem Ledger.Ranking.downFrom_eq [DecidableLE V] [DecidableLT V] [DecidableEq V]
    (h : L.Ranking table value? rows) {i : IndexSchema α} (hcarries : i.carriesPrimary = true)
    (v : V) : i.downFrom v rows =
      (rows.filter (·.value = v)).reverse ++
        (((rows.filter (·.value = v)).filter (·.primary = [])).reverse ++
          (rows.filter (·.value < v)).reverse) := by
  have hsame : (rows.filter (·.value = v)).Pairwise fun x y => x.primary < y.primary := by
    refine (h.ascends.filter _).imp_of_mem fun {x y} hx hy hlt => ?_
    have hx : x.value = v := by simpa using (List.mem_filter.1 hx).2
    have hy : y.value = v := by simpa using (List.mem_filter.1 hy).2
    exact (hlt.resolve_left (by simp [hx, hy, Std.lt_irrefl])).2
  have hbelow : ((rows.filter (·.value < v)).reverse.flatMap fun x =>
      if i.carriesPrimary = true ∧ x.value = v ∧ x.primary = [] then [x, x] else [x]) =
        (rows.filter (·.value < v)).reverse := by
    refine (List.flatMap_congr fun x hx => if_neg ?_).trans (List.flatMap_singleton' _)
    have hlt : x.value < v := by simpa using (List.mem_filter.1 (List.mem_reverse.1 hx)).2
    exact fun hat => Std.ne_of_lt hlt hat.2.1
  have hat : ((rows.filter (·.value = v)).reverse.flatMap fun x =>
      if i.carriesPrimary = true ∧ x.value = v ∧ x.primary = [] then [x, x] else [x]) =
        (rows.filter (·.value = v)).reverse ++
          ((rows.filter (·.value = v)).filter (·.primary = [])).reverse := by
    rw [← flatMap_twice hsame]
    refine List.flatMap_congr fun x hx => ?_
    have heq : x.value = v := by simpa using (List.mem_filter.1 (List.mem_reverse.1 hx)).2
    simp [hcarries, heq]
  rw [IndexSchema.downFrom, h.filter_le v, List.reverse_append, List.flatMap_append, hbelow, hat,
    List.append_assoc]

/-- Downward from a value each row is listed once, exactly if none of the value itself has the empty
primary key, where stored keys carry one. -/
theorem Ledger.Ranking.downFrom_eq_iff [DecidableLE V] [DecidableLT V] [DecidableEq V]
    (h : L.Ranking table value? rows) (i : IndexSchema α) (v : V) :
    i.downFrom v rows = (rows.filter (·.value ≤ v)).reverse ↔
      (i.carriesPrimary = true → ∀ x ∈ rows, x.value = v → x.primary ≠ []) := by
  cases hcarries : i.carriesPrimary with
  | false => simp [IndexSchema.downFrom, hcarries]
  | true =>
    rw [h.downFrom_eq hcarries, h.filter_le v, List.reverse_append, List.append_cancel_left_eq,
      List.append_left_eq_self, List.reverse_eq_nil_iff, List.filter_eq_nil_iff]
    simp

/-- The tree that a query reads holds these rows, in an index that orders their values. -/
structure Query.Ranks (q : Query α) (tree : Tree α) (sort : V → Prop) (key : V → Key)
    (L : Ledger α) (table : String) (value? : α → Option V) (rows : List (Ranked V α)) : Prop where
  orders : q.index.Orders value? sort key
  ranking : L.Ranking table value? rows
  sort : ∀ x ∈ rows, sort x.value
  wf : tree.Wf
  entries : tree.entries = rows.map fun x => (q.index.rowKey key x, x.object)

namespace Query.Ranks

variable {q : Query α} {tree : Tree α} {sort : V → Prop} {key : V → Key} {v : V}

/-- From a value upward. -/
theorem atLeast_eq [DecidableLE V] (h : q.Ranks tree sort key L table value? rows) (hv : sort v)
    (hq : q.key = key v) :
    (q.atLeast tree).objects = (rows.filter (v ≤ ·.value)).map Ranked.object := by
  have hrows : rows.filter (fun x => q.key ≤ q.index.rowKey key x) =
      rows.filter (v ≤ ·.value) := by
    refine List.filter_congr fun x hx => ?_
    rw [decide_eq_decide, hq]
    exact h.orders.sorts.le_append_iff hv (h.sort x hx)
  rw [← hrows, ← Tree.filter_leaves h.entries (q.key ≤ ·), ← h.wf.atLeast_eq]
  rfl

/-- The key of a value finds the rows of the value. -/
theorem seek_eq [DecidableEq V] (h : q.Ranks tree sort key L table value? rows) (hv : sort v)
    (hq : q.key = key v) :
    (tree.seek q.key).2.map Leaf.value = (rows.filter (·.value = v)).map Ranked.object := by
  have hrows : rows.filter (fun x => (q.index.rowKey key x).startsWith q.key) =
      rows.filter (·.value = v) := by
    refine List.filter_congr fun x hx => ?_
    rw [Bool.eq_iff_iff, Key.startsWith_iff, decide_eq_true_iff, hq]
    exact h.orders.sorts.isPrefix_append_iff hv (h.sort x hx)
  rw [← hrows, ← Tree.filter_leaves h.entries (·.startsWith q.key), ← h.wf.seek_eq]

/-- The keys up to the key of a value are those of smaller values. Keys of the value itself are
among them only where nothing follows the derived key. -/
theorem map_atMost [DecidableLT V] [DecidableEq V]
    (h : q.Ranks tree sort key L table value? rows) (hv : sort v) (hq : q.key = key v) :
    (tree.atMost q.key).map Leaf.value = ((rows.filter fun x =>
      x.value < v ∨ x.value = v ∧ q.index.rest x.primary = []).map Ranked.object).reverse := by
  have hrows : rows.filter (fun x => q.index.rowKey key x ≤ q.key) =
      rows.filter fun x => x.value < v ∨ x.value = v ∧ q.index.rest x.primary = [] := by
    refine List.filter_congr fun x hx => ?_
    rw [decide_eq_decide, hq]
    exact h.orders.sorts.append_le_iff hv (h.sort x hx)
  rw [← hrows, ← Tree.filter_leaves h.entries (· ≤ q.key), h.wf.atMost_eq, tree.leavesDown_eq,
    List.filter_reverse, List.map_reverse]

/-- From a value downward. -/
theorem atMost_eq [DecidableLE V] [DecidableLT V] [DecidableEq V]
    (h : q.Ranks tree sort key L table value? rows) (hv : sort v) (hq : q.key = key v) :
    (q.atMost tree).objects = (q.index.downFrom v rows).map Ranked.object := by
  have hne : ¬ q.key.isEmpty = true := by
    rw [hq, List.isEmpty_iff]
    exact h.orders.ne_nil v
  have hmost := h.map_atMost hv hq
  simp only [atMost, if_neg hne]
  cases hcarries : q.index.carriesPrimary with
  | false =>
    have hrows : rows.filter (fun x => x.value < v ∨ x.value = v ∧ q.index.rest x.primary = []) =
        rows.filter (·.value ≤ v) := by
      refine List.filter_congr fun x _ => ?_
      simp [IndexSchema.rest, hcarries, Std.le_iff_lt_or_eq]
    have honce := (h.ranking.downFrom_eq_iff q.index v).2 (by simp [hcarries])
    rw [if_neg Bool.false_ne_true, hmost, hrows, honce, List.map_reverse]
  | true =>
    have hrest (x : Ranked V α) : q.index.rest x.primary = x.primary := if_pos hcarries
    simp only [hrest] at hmost
    -- the rows of the value itself come first, found by their stem
    rw [if_pos rfl, List.map_append, hmost, h.ranking.filter_lt_or v (·.primary = []),
      tree.seekDown_eq, List.map_reverse, h.seek_eq hv hq, h.ranking.downFrom_eq hcarries,
      ← List.map_reverse, ← List.map_reverse, List.reverse_append, List.map_append,
      List.map_append, List.map_append]

end Query.Ranks

end bounds

/-! ## Indexes over fields -/

namespace IndexSchema

variable {i : IndexSchema α}

theorem orders_signed {field : α → Option Int64}
    (hi : i.indexer = .single (NumberIndex.signed field)) :
    i.Orders field (fun _ => True) NumberIndex.signedKey := by
  refine ⟨fun o d => (derives_single hi).trans Facet.keyIn_signed, NumberIndex.sorts_signedKey, ?_⟩
  intro n hnil
  have hlength := NumberIndex.length_signedKey n
  rw [hnil] at hlength
  cases hlength

theorem orders_unsigned {field : α → Option UInt64}
    (hi : i.indexer = .single (NumberIndex.unsigned field)) :
    i.Orders field (fun _ => True) NumberIndex.unsignedKey := by
  refine ⟨fun o d => (derives_single hi).trans Facet.keyIn_unsigned,
    NumberIndex.sorts_unsignedKey, ?_⟩
  intro n hnil
  have hlength := NumberIndex.length_unsignedKey n
  rw [hnil] at hlength
  cases hlength

/-- Texts are ordered by their bytes. An empty text counts as none. -/
theorem orders_text {field : α → Option String}
    (hi : i.indexer = .single (TextIndex.single field)) :
    i.Orders (fun o => ((field o).filter (· ≠ "")).map Key.ofText) (fun bytes => 0 ∉ bytes)
      (· ++ [0]) := by
  refine ⟨fun o d => ?_, Key.sorts_closing, fun bytes => List.concat_ne_nil 0 bytes⟩
  rw [derives_single hi, TextIndex.ofObject_single]
  constructor
  · rintro ⟨s, hs, hne, rfl⟩
    exact ⟨Key.ofText s, by simp [hs, hne], rfl⟩
  · rintro ⟨_, hbytes, rfl⟩
    rcases Option.map_eq_some_iff.1 hbytes with ⟨s, hfilter, rfl⟩
    rcases Option.filter_eq_some_iff.1 hfilter with ⟨hs, hne⟩
    exact ⟨s, hs, by simpa using hne, rfl⟩

end IndexSchema

/-! ## In a transaction -/

/-- The queries of an index by one argument follow the order of values. There are rows, of the
objects in the ledger that have a value, such that for an argument that gives the value `v`
`atLeast` lists the rows from `v` upward, `all` those that are neither below nor above `v`, and
`atMost` those from `v` downward in the opposite order. It lists each of them once exactly if the
index is unique or no row of the value itself has the empty primary key. -/
def Engine.RangesOver [LE V] [LT V] [DecidableLE V] [DecidableEq V] (s : Engine α) (id : Nat)
    (L : Ledger α) (table name : String) (i : IndexSchema α) (value? : α → Option V)
    (gives : Arg → V → Prop) : Prop :=
  ∃ rows : List (Ranked V α), L.Ranking table value? rows ∧ ∀ arg v, gives arg v →
    s.find id .atLeast table name [arg] =
        some (.ok ((rows.filter (v ≤ ·.value)).map Ranked.object)) ∧
      s.find id .atMost table name [arg] =
        some (.ok ((i.downFrom v rows).map Ranked.object)) ∧
      s.find id .all table name [arg] =
        some (.ok ((rows.filter fun x => v ≤ x.value ∧ x.value ≤ v).map Ranked.object)) ∧
      (i.downFrom v rows = (rows.filter (·.value ≤ v)).reverse ↔
        i.unique = true ∨ ∀ x ∈ rows, x.value = v → x.primary ≠ [])

theorem Engine.RangesOver.imp [LE V] [LT V] [DecidableLE V] [DecidableEq V] {s : Engine α}
    {id : Nat} {L : Ledger α} {table name : String} {i : IndexSchema α} {value? : α → Option V}
    {gives gives' : Arg → V → Prop} (h : s.RangesOver id L table name i value? gives)
    (himp : ∀ arg v, gives' arg v → gives arg v) :
    s.RangesOver id L table name i value? gives' := by
  rcases h with ⟨rows, hranking, hfind⟩
  exact ⟨rows, hranking, fun arg v hgives => hfind arg v (himp arg v hgives)⟩

namespace Chronicle

variable {actions : List (Action α)}

/-- An index that orders values is searched by them. -/
theorem rangesOver [LE V] [LT V] [Std.IsLinearOrder V] [Std.LawfulOrderLT V] [DecidableLE V]
    [DecidableLT V] [DecidableEq V] [Inhabited V]
    (hnd : ∀ schema settings, .create schema settings ∈ actions → schema.paths.Nodup)
    (hapart : Throughout actions fun schema F _ => F.Apart schema) {id : Nat} {t : Txn α}
    (ht : (performAll {} actions).engine.txns[id]? = some t) (hactive : t.state = .active)
    {table name : String} {ts : TableSchema α} {i : IndexSchema α}
    (hts : t.schema.table? table = some ts) (hi : (name, i) ∈ ts.indexes)
    {value? : α → Option V} {sort : V → Prop} {key : V → Key}
    (horders : i.Orders value? sort key) (hsingle : i.indexer.isSingle = true)
    (hsort : ∀ p o v, Ledger.of t.schema ((performAll {} actions).seen id) table p = some o →
      value? o = some v → sort v) :
    (performAll {} actions).engine.RangesOver id
      (Ledger.of t.schema ((performAll {} actions).seen id)) table name i value?
      fun arg v => sort v ∧ i.indexer.args.key [arg] = .ok (key v) := by
  have hshows : (performAll {} actions).Shows t.schema t.forest ((performAll {} actions).seen id) :=
    .inr ⟨id, t, ht, rfl, rfl, rfl⟩
  have hs : (performAll {} actions).engine.Sound := sound_performAll actions
  have hvalid : t.schema.paths.Nodup := by
    rcases (hshows.recorded hnd).1 with ⟨settings, hmem⟩
    exact hnd t.schema settings hmem
  rcases hshows.wf.exists_tree (Schema.mem_paths hts hi) with ⟨tree, htree, hw⟩
  have hnow := hapart actions (List.prefix_refl _) _ _ _ hshows
  rcases (hshows.exact hnd hapart).exists_items (hshows.tidy hnd) hnow hts hi htree hw with
    ⟨items, hitems, hentries⟩
  rcases horders.exists_ranking hsort hitems with ⟨rows, hranking, hrows⟩
  refine ⟨rows, hranking, fun arg v ⟨hv, hkey⟩ => ?_⟩
  have hq : t.schema.resolve table name [arg] = .ok ⟨name, i, key v, false⟩ :=
    Schema.resolve_name hvalid hts hi (List.cons_ne_nil arg []) hkey
  have hranks : Query.Ranks ⟨name, i, key v, false⟩ tree sort key
      (Ledger.of t.schema ((performAll {} actions).seen id)) table value? rows := by
    refine ⟨horders, hranking, fun x hx => ?_, hw, hentries.trans hrows⟩
    rcases (hranking.mem_iff x).1 hx with ⟨hstored, hvalue⟩
    exact hsort _ _ _ hstored hvalue
  rcases hs.exists_tree ht hactive hq with ⟨tree', htree', _, hfind⟩
  obtain rfl : tree = tree' := Option.some.inj (htree.symm.trans htree')
  refine ⟨?_, ?_, ?_, ?_⟩
  · rw [hfind, ← hranks.atLeast_eq hv rfl]
    rfl
  · rw [hfind, ← hranks.atMost_eq hv rfl]
    rfl
  · have hboth : rows.filter (fun x => v ≤ x.value ∧ x.value ≤ v) = rows.filter (·.value = v) := by
      refine List.filter_congr fun x _ => ?_
      rw [decide_eq_decide]
      constructor
      · rintro ⟨hup, hdown⟩
        exact Std.le_antisymm hdown hup
      · rintro rfl
        exact ⟨Std.le_refl _, Std.le_refl _⟩
    rw [hfind, hboth, ← hranks.seek_eq hv rfl]
    rfl
  · -- over single keys, it is the indexes that are not unique whose keys carry a primary key
    rw [hranking.downFrom_eq_iff i v, IndexSchema.carriesPrimary, hsingle]
    cases i.unique <;> simp

/-- Ranges follow the order of values. Take any run over stores whose index paths differ, such that
at no time two objects stored in a store or in a transaction share a stored key, and an index of a
table, unique or not. In a transaction that has not ended, queries of an index over signed numbers,
over unsigned numbers, or over texts in which case counts, list the objects of the ledger by the
values they have, as long as the texts have no zero characters. Texts are compared by their bytes,
and an empty text is no value. Only an object under the empty primary key is listed twice, by a
search of an index that is not unique downward from its value. No object is stored under the empty
key if the primary index is over facets. -/
theorem ranges_by_value
    (hnd : ∀ schema settings, .create schema settings ∈ actions → schema.paths.Nodup)
    (hapart : Throughout actions fun schema F _ => F.Apart schema) {id : Nat} {t : Txn α}
    (ht : (performAll {} actions).engine.txns[id]? = some t) (hactive : t.state = .active)
    {table name : String} {ts : TableSchema α} {i : IndexSchema α}
    (hts : t.schema.table? table = some ts) (hi : (name, i) ∈ ts.indexes) :
    let s := (performAll {} actions).engine
    let L := Ledger.of t.schema ((performAll {} actions).seen id)
    (∀ field, i.indexer = .single (NumberIndex.signed field) →
      s.RangesOver id L table name i field fun arg n => NumberIndex.signedArg arg = .ok n) ∧
    (∀ field, i.indexer = .single (NumberIndex.unsigned field) →
      s.RangesOver id L table name i field fun arg n => NumberIndex.unsignedArg arg = .ok n) ∧
    (∀ field, i.indexer = .single (TextIndex.single field) →
      (∀ p o text, L table p = some o → field o = some text → '\u0000' ∉ text.toList) →
      s.RangesOver id L table name i (fun o => ((field o).filter (· ≠ "")).map Key.ofText)
        fun arg bytes => ∃ text, arg = .text text ∧ '\u0000' ∉ text.toList ∧
          Key.ofText text = bytes) ∧
    ∀ primary facets, ts.primary? = some primary → primary.IsOver facets → L table [] = none := by
  intro s L
  have hsingle {m : SingleIndexer α} (hm : i.indexer = .single m) : i.indexer.isSingle = true := by
    rw [hm]
    rfl
  refine ⟨fun field hm => ?_, fun field hm => ?_, fun field hm hplain => ?_,
    fun primary facets hprimary hover => ?_⟩
  · refine (rangesOver hnd hapart ht hactive hts hi (IndexSchema.orders_signed hm) (hsingle hm)
      fun _ _ _ _ _ => trivial).imp fun arg n harg => ⟨trivial, ?_⟩
    rw [hm]
    exact NumberIndex.key_signed.2 ⟨n, harg, rfl⟩
  · refine (rangesOver hnd hapart ht hactive hts hi (IndexSchema.orders_unsigned hm) (hsingle hm)
      fun _ _ _ _ _ => trivial).imp fun arg n harg => ⟨trivial, ?_⟩
    rw [hm]
    exact NumberIndex.key_unsigned.2 ⟨n, harg, rfl⟩
  · refine (rangesOver hnd hapart ht hactive hts hi (IndexSchema.orders_text hm) (hsingle hm)
      fun p o bytes hstored hbytes => ?_).imp ?_
    · rcases Option.map_eq_some_iff.1 hbytes with ⟨text, hfilter, rfl⟩
      have htext := (Option.filter_eq_some_iff.1 hfilter).1
      exact Key.zero_not_mem_ofText (hplain p o text hstored htext)
    · rintro _ _ ⟨text, rfl, hzero, rfl⟩
      refine ⟨Key.zero_not_mem_ofText hzero, ?_⟩
      rw [hm]
      exact TextIndex.key_args.2 ⟨text, rfl, rfl⟩
  · -- the ledger holds what the primary index holds
    have hshows : (performAll {} actions).Shows t.schema t.forest
        ((performAll {} actions).seen id) := .inr ⟨id, t, ht, rfl, rfl, rfl⟩
    have hstock := (hshows.exact hnd hapart).stock table ts hts []
    cases hstored : L table [] with
    | none => rfl
    | some o =>
      have hkey := ((hshows.tidy hnd).consistent table ts hts).primaryKey [] o
        (hstock.trans hstored)
      exact absurd hkey (hover.primaryKey_ne_nil table hprimary)

/-- Stations below and above the sea, two of them on one level. Both bounds at this level include
them, by their codes. -/
theorem ranges_by_value_stations :
    let low : Station := { code := "c", level := -3 }
    let mid : Station := { code := "a", level := 7 }
    let also : Station := { code := "b", level := 7 }
    let high : Station := { code := "d", level := 8 }
    let actions : List (Action Station) :=
      [.create Station.schema {}, .requestWrite 0, .acquireWrite 0,
        .write 0 (.insert Station.stations high), .write 0 (.insert Station.stations also),
        .write 0 (.insert Station.stations low), .write 0 (.insert Station.stations mid)]
    let s := (performAll {} actions).engine
    let find (scan : Scan) := s.find 0 scan Station.stations "level" [.uint 7]
    (∀ schema settings, .create schema settings ∈ actions → schema.paths.Nodup) ∧
      (Throughout actions fun schema F _ => F.Apart schema) ∧
      ∃ t, s.txns[0]? = some t ∧ t.state = .active ∧
        t.schema.table? Station.stations = some Station.table ∧
        ("level", Station.byLevel) ∈ Station.table.indexes ∧
        ∃ rows, (Ledger.of t.schema ((performAll {} actions).seen 0)).Ranking Station.stations
            (fun o : Station => some o.level) rows ∧
          (rows.filter (7 ≤ ·.value)).map Ranked.object = [mid, also, high] ∧
          find .atLeast = some (.ok [mid, also, high]) ∧
          (rows.filter (·.value ≤ 7)).reverse.map Ranked.object = [also, mid, low] ∧
          find .atMost = some (.ok [also, mid, low]) ∧ find .all = some (.ok [mid, also]) := by
  intro low mid also high actions s find
  have hcreate (schema : Schema Station) (settings : Settings)
      (h : .create schema settings ∈ actions) : schema = Station.schema :=
    Action.schema_of_mem (by simp) h
  have hpaths : Station.schema.paths.Nodup := by decide +kernel
  have hnd (schema : Schema Station) (settings : Settings)
      (h : .create schema settings ∈ actions) : schema.paths.Nodup :=
    hcreate schema settings h ▸ hpaths
  have hinsert {table : String} {id : Nat} {o : Station}
      (h : .write id (.insert table o) ∈ actions) :
      table = Station.stations ∧ o ∈ [high, also, low, mid] := by
    simp only [actions, List.mem_cons, List.not_mem_nil, reduceCtorEq, or_false, false_or,
      Action.write.injEq, Write.insert.injEq] at h ⊢
    rcases h with ⟨_, ht, rfl⟩ | ⟨_, ht, rfl⟩ | ⟨_, ht, rfl⟩ | ⟨_, ht, rfl⟩ <;> simp [ht]
  have hapart : Throughout actions fun schema F _ => F.Apart schema := by
    refine throughout_apart hnd fun schema settings hmem table id o id' o' ho ho' hne => ?_
    obtain rfl := hcreate schema settings hmem
    obtain ⟨rfl, hstation⟩ := hinsert ho
    have hplaces : ∀ o ∈ [high, also, low, mid], ∀ o' ∈ [high, also, low, mid], o ≠ o' →
        ∀ place ∈ Station.schema.places Station.stations o,
          place ∉ Station.schema.places Station.stations o' := by decide +kernel
    exact hplaces o hstation o' (hinsert ho').2 fun heq => hne (heq ▸ rfl)
  have hopen : s.txns[0]?.map Txn.state = some .active := by decide +kernel
  rcases Option.map_eq_some_iff.1 hopen with ⟨t, ht, hactive⟩
  have hts : t.schema.table? Station.stations = some Station.table := by
    rw [schema_of_creates hpaths hcreate ht]
    rfl
  have hi : ("level", Station.byLevel) ∈ Station.table.indexes :=
    .tail _ (.tail _ (.tail _ (.head _)))
  rcases ranges_by_value hnd hapart ht hactive hts hi with ⟨hsigned, _, _, hempty⟩
  have hnone := hempty Station.byCode [.text (some ·.code) false] rfl (.single rfl)
  rcases hsigned _ rfl with ⟨rows, hranking, hfind⟩
  rcases hfind (.uint 7) 7 rfl with ⟨hup, hdown, _, honce⟩
  have hanswers : find .atLeast = some (.ok [mid, also, high]) ∧
      find .atMost = some (.ok [also, mid, low]) ∧ find .all = some (.ok [mid, also]) := by
    decide +kernel
  rcases hanswers with ⟨hatLeast, hatMost, hall⟩
  refine ⟨hnd, hapart, t, ht, hactive, hts, hi, rows, hranking, ?_, hatLeast, ?_, hatMost, hall⟩
  · exact Except.ok.inj (Option.some.inj (hup.symm.trans hatLeast))
  · rw [honce.2 (.inr fun x hx _ hnil => ?_)] at hdown
    · exact Except.ok.inj (Option.some.inj (hdown.symm.trans hatMost))
    · have hstored := ((hranking.mem_iff x).1 hx).1
      rw [hnil, hnone] at hstored
      cases hstored

/-- The codes of stations are kept as they are, so that the empty one is the empty key. The only
station has this code. A search downward from its level lists it twice. -/
theorem range_overlaps_empty_primary :
    let bare (arg : Arg) : Except Misfit Key := (TextIndex.ofArg arg).map Key.ofText
    let codes : SingleIndexer Station :=
      { ArgKeys.ofSingleWithStem bare bare with
        ofObject := fun o => .ok (some (Key.ofText o.code)) }
    let schema : Schema Station :=
      ⟨[(Station.stations, { name := Station.stations, indexes :=
        [(primaryName, { Station.byCode with indexer := .single codes }),
          ("level", Station.byLevel)] })]⟩
    let station : Station := { code := "", level := 7 }
    let actions : List (Action Station) :=
      [.create schema {}, .requestWrite 0, .acquireWrite 0,
        .write 0 (.insert Station.stations station)]
    let s := (performAll {} actions).engine
    let find (scan : Scan) := s.find 0 scan Station.stations "level" [.int 7]
    (∀ schema settings, .create schema settings ∈ actions → schema.paths.Nodup) ∧
      (Throughout actions fun schema F _ => F.Apart schema) ∧
      find .atLeast = some (.ok [station]) ∧ find .all = some (.ok [station]) ∧
      find .atMost = some (.ok [station, station]) := by
  intro bare codes schema station actions s find
  have hpaths : schema.paths.Nodup := by decide +kernel
  have hnd (schema' : Schema Station) (settings : Settings)
      (h : .create schema' settings ∈ actions) : schema'.paths.Nodup := by
    obtain rfl : schema' = schema := Action.schema_of_mem (by simp) h
    exact hpaths
  have hinsert {table : String} {id : Nat} {o : Station}
      (h : .write id (.insert table o) ∈ actions) :
      id = 0 ∧ table = Station.stations ∧ o = station := by
    simpa [actions] using h
  have hapart : Throughout actions fun schema F _ => F.Apart schema := by
    refine throughout_apart hnd fun schema settings hmem table id o id' o' ho ho' hne => ?_
    exact absurd (by rw [(hinsert ho).2.2, (hinsert ho').2.2]) hne
  exact ⟨hnd, hapart, by decide +kernel, by decide +kernel, by decide +kernel⟩

end Chronicle

end SnapStore
