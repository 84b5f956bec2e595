import SnapStore.Proofs.Engine.Ends
import SnapStore.Proofs.Engine.Rows
import SnapStore.Sample.Station

/-! # The two halves of an index

The key of a query splits an index. A search upward lists the entries from the key on. A search
downward lists those up to the key, and where stored keys carry a primary key, before them also
those that start with the key. An entry that stands at the key itself would belong to both parts of
such a search, and is listed twice. It has a derived key that ends inside the key of the query, and
a primary key that makes up for the rest.

Main statements: `Query.pairwise_below_iff` (when a search downward repeats nothing) and
`Chronicle.halves_cover`.
-/

namespace SnapStore

variable {α : Type}

namespace Query

/-- The entries that a search upward lists. -/
def above (q : Query α) (tree : Tree α) : List (Leaf α) :=
  tree.atLeast q.key

/-- The entries that a search downward lists. -/
def below (q : Query α) (tree : Tree α) : List (Leaf α) :=
  if q.key.isEmpty then tree.leavesDown
  else if q.index.carriesPrimary then (tree.seekDown q.key).2 ++ tree.atMost q.key
  else tree.atMost q.key

/-- Whether a search downward lists an entry with this key. -/
def Reaches (q : Query α) (k : Key) : Prop :=
  k ≤ q.key ∨ q.index.carriesPrimary = true ∧ q.key <+: k

/-- Whether the key of the query stands for this key: it starts it where stored keys carry a primary
key, and it is this key elsewhere. -/
def Meets (q : Query α) (k : Key) : Prop :=
  if q.index.carriesPrimary = true then q.key <+: k else k = q.key

variable {q : Query α} {tree : Tree α} {l : Leaf α}

/-! ## Upward -/

theorem mem_above (hw : tree.Wf) : l ∈ q.above tree ↔ l ∈ tree.leaves ∧ q.key ≤ l.key := by
  rw [above, hw.atLeast_eq, List.mem_filter, decide_eq_true_iff]

theorem pairwise_above (hw : tree.Wf) : (q.above tree).Pairwise (·.key < ·.key) := by
  rw [above, hw.atLeast_eq]
  exact hw.pairwise_leaves.filter _

/-! ## Downward -/

theorem mem_atMost (hw : tree.Wf) : l ∈ tree.atMost q.key ↔ l ∈ tree.leaves ∧ l.key ≤ q.key := by
  rw [hw.atMost_eq, tree.leavesDown_eq, List.mem_filter, List.mem_reverse, decide_eq_true_iff]

theorem mem_seekDown (hw : tree.Wf) :
    l ∈ (tree.seekDown q.key).2 ↔ l ∈ tree.leaves ∧ q.key <+: l.key := by
  rw [tree.seekDown_eq, List.mem_reverse, hw.mem_seek]

theorem mem_below (hw : tree.Wf) (hne : q.key ≠ []) :
    l ∈ q.below tree ↔ l ∈ tree.leaves ∧ q.Reaches l.key := by
  rw [below, if_neg (by simpa using hne), Reaches]
  cases q.index.carriesPrimary with
  | false => simp [mem_atMost hw]
  | true =>
    rw [if_pos rfl, List.mem_append, mem_seekDown hw, mem_atMost hw, ← and_or_left]
    simp only [true_and, or_comm]

/-- Both parts of a search downward descend. -/
theorem pairwise_parts (hw : tree.Wf) :
    ((tree.seekDown q.key).2.Pairwise fun l m => m.key < l.key) ∧
      (tree.atMost q.key).Pairwise fun l m => m.key < l.key := by
  constructor
  · rw [tree.seekDown_eq, List.pairwise_reverse, hw.seek_eq]
    exact hw.pairwise_leaves.filter _
  · rw [hw.atMost_eq, tree.leavesDown_eq]
    exact (List.pairwise_reverse.2 hw.pairwise_leaves).filter _

/-- The first part of a search downward stands above the second one, but for an entry at the key
of the query. -/
theorem lt_or_eq_of_parts (hw : tree.Wf) {m : Leaf α} (hl : l ∈ (tree.seekDown q.key).2)
    (hm : m ∈ tree.atMost q.key) : m.key < l.key ∨ m.key = q.key ∧ l.key = q.key := by
  have hupper : q.key ≤ l.key := List.IsPrefix.le ((mem_seekDown hw).1 hl).2
  have hlower : m.key ≤ q.key := ((mem_atMost hw).1 hm).2
  rcases Std.le_iff_lt_or_eq.1 hlower with hlt | heq
  · exact .inl (Std.lt_of_lt_of_le hlt hupper)
  · rcases Std.le_iff_lt_or_eq.1 hupper with hlt | heq'
    · exact .inl (heq ▸ hlt)
    · exact .inr ⟨heq, heq'.symm⟩

/-- A search downward never goes up again. -/
theorem pairwise_below (hw : tree.Wf) (hne : q.key ≠ []) :
    (q.below tree).Pairwise fun l m => m.key ≤ l.key := by
  rcases pairwise_parts (q := q) hw with ⟨hupper, hlower⟩
  have hweak {l m : Leaf α} (h : m.key < l.key) : m.key ≤ l.key := List.le_of_lt h
  rw [below, if_neg (by simpa using hne)]
  split
  · refine List.pairwise_append.2 ⟨hupper.imp hweak, hlower.imp hweak, fun l hl m hm => ?_⟩
    rcases lt_or_eq_of_parts hw hl hm with hlt | ⟨hmkey, hlkey⟩
    · exact hweak hlt
    · rw [hmkey, hlkey]
      exact List.le_refl _
  · exact hlower.imp hweak

/-- Besides the key of the query, a search downward repeats nothing. -/
theorem pairwise_filter_below (hw : tree.Wf) (hne : q.key ≠ []) :
    ((q.below tree).filter (·.key ≠ q.key)).Pairwise fun l m => m.key < l.key := by
  rcases pairwise_parts (q := q) hw with ⟨hupper, hlower⟩
  rw [below, if_neg (by simpa using hne)]
  split
  · rw [List.filter_append]
    refine List.pairwise_append.2 ⟨hupper.filter _, hlower.filter _, fun l hl m hm => ?_⟩
    rcases List.mem_filter.1 hl with ⟨hl, hlkey⟩
    rcases lt_or_eq_of_parts hw hl (List.mem_filter.1 hm).1 with hlt | ⟨_, heq⟩
    · exact hlt
    · exact absurd heq (of_decide_eq_true hlkey)
  · exact hlower.filter _

/-- A search downward repeats nothing at all exactly if no entry stands at the key of the query, in
an index whose stored keys carry a primary key. -/
theorem pairwise_below_iff (hw : tree.Wf) (hne : q.key ≠ []) :
    (q.below tree).Pairwise (fun l m => m.key < l.key) ↔
      (q.index.carriesPrimary = true → tree.get? q.key = none) := by
  rcases pairwise_parts (q := q) hw with ⟨hupper, hlower⟩
  rw [below, if_neg (by simpa using hne)]
  cases q.index.carriesPrimary with
  | false => simp [hlower]
  | true =>
    simp only [if_true, true_implies, List.pairwise_append, hupper, hlower, true_and]
    constructor
    · intro hcross
      cases hget : tree.get? q.key with
      | none => rfl
      | some o =>
        rcases hw.get?_eq_some_iff.1 hget with ⟨l, hl, hkey, _⟩
        have hfirst : l ∈ (tree.seekDown q.key).2 :=
          (mem_seekDown hw).2 ⟨hl, hkey ▸ List.prefix_rfl⟩
        have hsecond : l ∈ tree.atMost q.key := (mem_atMost hw).2 ⟨hl, hkey ▸ List.le_refl _⟩
        exact absurd (hcross l hfirst l hsecond) (List.lt_irrefl _)
    · intro hnone l hl m hm
      rcases lt_or_eq_of_parts hw hl hm with hlt | ⟨_, heq⟩
      · exact hlt
      · rw [← heq, hw.get?_leaf ((mem_seekDown hw).1 hl).1] at hnone
        cases hnone

/-! ## Both -/

theorem mem_above_or_mem_below (hw : tree.Wf) (hne : q.key ≠ []) (hl : l ∈ tree.leaves) :
    l ∈ q.above tree ∨ l ∈ q.below tree := by
  rw [mem_above hw, mem_below hw hne]
  rcases Std.le_total (a := q.key) (b := l.key) with hup | hdown
  · exact .inl ⟨hl, hup⟩
  · exact .inr ⟨hl, .inl hdown⟩

theorem mem_above_and_mem_below (hw : tree.Wf) (hne : q.key ≠ []) (hl : l ∈ tree.leaves) :
    l ∈ q.above tree ∧ l ∈ q.below tree ↔ q.Meets l.key := by
  simp only [mem_above hw, mem_below hw hne, hl, true_and, Reaches, Meets]
  cases q.index.carriesPrimary with
  | false =>
    simp only [Bool.false_eq_true, false_and, or_false, if_false]
    constructor
    · rintro ⟨hup, hdown⟩
      exact Std.le_antisymm hdown hup
    · intro heq
      exact heq ▸ ⟨List.le_refl _, List.le_refl _⟩
  | true =>
    simp only [true_and, if_true]
    constructor
    · rintro ⟨hup, hdown | hpre⟩
      · exact Std.le_antisymm hdown hup ▸ List.prefix_rfl
      · exact hpre
    · intro hpre
      exact ⟨List.IsPrefix.le hpre, .inr hpre⟩

/-- How the entries of an index are shared out between what a search upward lists and what a search
downward lists, from the key of a query that is not empty. -/
structure Splits (q : Query α) (tree : Tree α) (above below : List (Leaf α)) : Prop where
  mem_above : ∀ l, l ∈ above ↔ l ∈ tree.leaves ∧ q.key ≤ l.key
  ascends : above.Pairwise (·.key < ·.key)
  mem_below : ∀ l, l ∈ below ↔ l ∈ tree.leaves ∧ q.Reaches l.key
  descends : below.Pairwise fun l m => m.key ≤ l.key
  /-- Besides the key of the query nothing is repeated. -/
  once : (below.filter (·.key ≠ q.key)).Pairwise fun l m => m.key < l.key
  /-- Nothing at all is repeated exactly if no entry of an index whose stored keys carry a primary
  key stands at the key of the query. -/
  once_iff : below.Pairwise (fun l m => m.key < l.key) ↔
    (q.index.carriesPrimary = true → tree.get? q.key = none)
  covers : ∀ l ∈ tree.leaves, l ∈ above ∨ l ∈ below
  shared_iff : ∀ l ∈ tree.leaves, l ∈ above ∧ l ∈ below ↔ q.Meets l.key

theorem splits (hw : tree.Wf) (hne : q.key ≠ []) :
    q.Splits tree (q.above tree) (q.below tree) where
  mem_above _ := Query.mem_above hw
  ascends := pairwise_above hw
  mem_below _ := Query.mem_below hw hne
  descends := pairwise_below hw hne
  once := pairwise_filter_below hw hne
  once_iff := pairwise_below_iff hw hne
  covers _ hl := mem_above_or_mem_below hw hne hl
  shared_iff _ hl := mem_above_and_mem_below hw hne hl

/-- From the empty key both searches list the whole index. -/
theorem above_below_of_nil (hw : tree.Wf) (hnil : q.key = []) :
    q.above tree = tree.leaves ∧ q.below tree = tree.leaves.reverse := by
  constructor
  · rw [above, hw.atLeast_eq, hnil, List.filter_eq_self]
    exact fun l _ => decide_eq_true (List.nil_le l.key)
  · rw [below, hnil, if_pos List.isEmpty_nil, tree.leavesDown_eq]

end Query

/-- Where no primary key is empty and no derived key ends inside the key of a query, nothing stands
at that key in an index whose stored keys carry a primary key. -/
theorem Forest.Consistent.get?_key {F : Forest α} {table : String} {ts : TableSchema α}
    (h : F.Consistent table ts) {q : Query α} (hi : (q.name, q.index) ∈ ts.indexes)
    (hcarries : q.index.carriesPrimary = true) {tree : Tree α}
    (htree : F (indexPath table q.name) = some tree)
    (hends : ∀ p o d, F.value? table primaryName p = some o → q.index.Derives o d →
      p ≠ [] ∧ (d <+: q.key → d = q.key)) : tree.get? q.key = none := by
  cases hget : tree.get? q.key with
  | none => rfl
  | some o =>
    rw [← Forest.value?_eq htree] at hget
    rcases h.owned q.name q.index hi q.key o hget with ⟨p, hp, hst⟩
    rcases (IndexSchema.stores_iff_append hcarries).1 hst with ⟨d, hd, hkey⟩
    rcases hends p o d hp hd with ⟨hne, hend⟩
    have hd : d = d ++ p := (hend ⟨p, hkey.symm⟩).trans hkey
    exact absurd (List.append_right_eq_self.1 hd.symm) hne

namespace Chronicle

variable {actions : List (Action α)}

/-- The two bounds cover an index. Take a query that is understood, in any transaction of any run
that has not ended. `atLeast` lists the entries whose keys are not below the key of the query,
strictly ascending. `atMost` lists those whose keys are not above it, and where stored keys carry a
primary key also those that start with it, descending. With an empty key both list the whole index.
Else every entry is listed by one of them, and by both exactly if the key of the query stands for
its key. An entry at the key itself is listed twice by `atMost` where stored keys carry a primary
key; nothing else is repeated. Over stores whose index paths differ there is no such entry if no
primary key is empty and no derived key ends inside the key of the query. -/
theorem halves_cover {id : Nat} {t : Txn α}
    (ht : (performAll {} actions).engine.txns[id]? = some t) (hactive : t.state = .active)
    {table index : String} {args : List Arg} {q : Query α}
    (hq : t.schema.resolve table index args = .ok q) :
    let s := (performAll {} actions).engine
    ∃ tree above below, t.forest (indexPath table q.name) = some tree ∧
      s.find id .atLeast table index args = some (.ok (above.map Leaf.value)) ∧
      s.find id .atMost table index args = some (.ok (below.map Leaf.value)) ∧
      (q.key = [] → above = tree.leaves ∧ below = tree.leaves.reverse) ∧
      (q.key ≠ [] → q.Splits tree above below) ∧
      ((∀ schema settings, .create schema settings ∈ actions → schema.paths.Nodup) →
        (∀ p o d, t.forest.value? table primaryName p = some o → q.index.Derives o d →
          p ≠ [] ∧ (d <+: q.key → d = q.key)) →
        q.index.carriesPrimary = true → tree.get? q.key = none) := by
  intro s
  have hs : s.Sound := sound_performAll actions
  have hshows : (performAll {} actions).Shows t.schema t.forest ((performAll {} actions).seen id) :=
    .inr ⟨id, t, ht, rfl, rfl, rfl⟩
  rcases Schema.resolve_spec hq with ⟨ts, hts, hi⟩
  rcases hs.exists_tree ht hactive hq with ⟨tree, htree, hw, hfind⟩
  refine ⟨tree, q.above tree, q.below tree, htree, hfind .atLeast, hfind .atMost,
    Query.above_below_of_nil hw, Query.splits hw, fun hnd hends hcarries => ?_⟩
  exact ((hshows.tidy hnd).consistent table ts hts).get?_key hi hcarries htree hends

/-- Two stations on one level are listed by both bounds at this level, and the others by one. -/
theorem halves_cover_stations :
    let low : Station := { code := "c", level := -3 }
    let mid : Station := { code := "a", level := 7 }
    let also : Station := { code := "b", level := 7 }
    let high : Station := { code := "d", level := 8 }
    let actions : List (Action Station) :=
      [.create Station.schema {}, .requestWrite 0, .acquireWrite 0,
        .write 0 (.insert Station.stations high), .write 0 (.insert Station.stations also),
        .write 0 (.insert Station.stations low), .write 0 (.insert Station.stations mid)]
    let s := (performAll {} actions).engine
    let find (scan : Scan) := s.find 0 scan Station.stations "level" [.int 7]
    let q : Query Station := ⟨"level", Station.byLevel, [128, 0, 0, 0, 0, 0, 0, 7], false⟩
    ∃ t, s.txns[0]? = some t ∧ t.state = .active ∧
      t.schema.resolve Station.stations "level" [.int 7] = .ok q ∧
      ∃ tree above below, t.forest (indexPath Station.stations q.name) = some tree ∧
        q.Splits tree above below ∧
        above.map Leaf.value = [mid, also, high] ∧ find .atLeast = some (.ok [mid, also, high]) ∧
        below.map Leaf.value = [also, mid, low] ∧ find .atMost = some (.ok [also, mid, low]) := by
  intro low mid also high actions s find q
  have hcreate (schema : Schema Station) (settings : Settings)
      (h : .create schema settings ∈ actions) : schema = Station.schema :=
    Action.schema_of_mem (by simp) h
  have hopen : s.txns[0]?.map Txn.state = some .active := by decide +kernel
  rcases Option.map_eq_some_iff.1 hopen with ⟨t, ht, hactive⟩
  have hq : t.schema.resolve Station.stations "level" [.int 7] = .ok q := by
    rw [schema_of_creates (by decide +kernel) hcreate ht]
    rfl
  have hanswers : find .atLeast = some (.ok [mid, also, high]) ∧
      find .atMost = some (.ok [also, mid, low]) := by decide +kernel
  rcases hanswers with ⟨hup, hdown⟩
  rcases halves_cover ht hactive hq with
    ⟨tree, above, below, htree, habove, hbelow, _, hsplits, _⟩
  refine ⟨t, ht, hactive, hq, tree, above, below, htree, hsplits (List.cons_ne_nil _ _), ?_, hup,
    ?_, hdown⟩
  · exact Except.ok.inj (Option.some.inj (habove.symm.trans hup))
  · exact Except.ok.inj (Option.some.inj (hbelow.symm.trans hdown))

/-- The street of the station is unknown, and its code stands where the street would be. So its
entry stands at the key of the query, and a search downward lists it twice. -/
theorem halves_overlap :
    let station : Station := { code := "y", city := "x" }
    let actions : List (Action Station) :=
      [.create Station.schema {}, .requestWrite 0, .acquireWrite 0,
        .write 0 (.insert Station.stations station)]
    let find (scan : Scan) (args : List Arg) :=
      (performAll {} actions).engine.find 0 scan Station.stations "address" args
    find .all [] = some (.ok [station]) ∧
      find .atMost [.text "x", .text "y"] = some (.ok [station, station]) := by
  decide +kernel

end Chronicle

end SnapStore
