import SnapStore.Proofs.Radix.Idle

/-! # The scope of a seek

The channel that a seek gives belongs to the node that holds the keys with the stem. It fires when
that node is replaced, which is not to say that an entry with the stem has changed. The edge to the
node begins at its parent, and may do so well before the stem ends: the keys of the tree that go on
with the first byte of the edge all have the stem, but a new key may go the first part of the way
and split the edge. And the node goes when the last entry beside the edge does, for then the parent
is joined with it.

Main statements: `scope_eq` (the edge told by the keys of the tree alone), `node_gone_iff` (the
edits that let a node go) and `seek_fires_iff`.
-/

namespace SnapStore

universe u

variable {V : Type u}

namespace Node

variable {r r' : Key} {m : Node V}

theorem Stands.path_unique (h : m.Stands r) (h' : m.Stands r') : r = r' :=
  List.append_cancel_right (Node.path_unique m h.wf h'.wf h.full)

theorem length_edge (h : m.Stands r) : (m.edge r).length = r.length + 1 := by
  rcases h.exists_label with ⟨b, _, _, _, he⟩
  simp [he]

theorem dropLast_edge (h : m.Stands r) : (m.edge r).dropLast = r := by
  rcases h.exists_label with ⟨b, _, _, _, he⟩
  simp [he]

end Node

/-! ## The scope of a stem -/

namespace Tree

/-- All keys of the tree with the given front have the whole stem. -/
def leadsTo (t : Tree V) (stem front : Key) : Bool :=
  (t.leaves.filter (·.key.startsWith front)).all (·.key.startsWith stem)

/-- The shortest front of the stem, the empty one apart, whose keys in the tree all have the whole
stem. -/
def scope (t : Tree V) (stem : Key) : Key :=
  let fronts := (List.range stem.length).map fun n => stem.take (n + 1)
  (fronts.find? (t.leadsTo stem)).getD stem

@[simp] theorem scope_nil (t : Tree V) : t.scope [] = [] := rfl

theorem scope_isPrefix (t : Tree V) (stem : Key) : t.scope stem <+: stem := by
  rw [scope]
  cases hfind : List.find? _ _ with
  | none => exact List.prefix_rfl
  | some front =>
    rcases List.mem_map.1 (List.mem_of_find?_eq_some hfind) with ⟨n, _, rfl⟩
    exact List.take_prefix (n + 1) stem

variable {t : Tree V} {r stem front : Key} {m : Node V}

theorem leadsTo_iff :
    t.leadsTo stem front = true ↔ ∀ l ∈ t.leaves, front <+: l.key → stem <+: l.key := by
  simp only [leadsTo, List.all_eq_true, List.mem_filter, Key.startsWith_iff, and_imp]

/-- The edge to a node that stands somewhere has company, unless it is an edge of the root. -/
theorem exists_beside (h : t.Wf) (hm : (r, m) ∈ t.root.spots []) :
    r = [] ∨ ∃ l ∈ t.leaves, m.Beside r l := by
  rw [Node.spots_eq] at hm
  refine (Node.exists_beside t.root.edges (Node.wf_iff.1 h.root).2 hm).imp_right ?_
  rintro ⟨l, hl, hb⟩
  exact ⟨l, by rw [leaves, Node.leaves_eq]; exact List.mem_append_right _ hl, hb⟩

/-- All keys that go through the edge to a node go on through its chunk. -/
theorem leadsTo_edge (h : t.Wf) (hm : (r, m) ∈ t.root.spots []) (hend : stem <+: r ++ m.chunk) :
    t.leadsTo stem (m.edge r) = true := by
  have hstands := (Node.stands_of_spot t.root h.root hm).2
  refine leadsTo_iff.2 fun l hl hedge => hend.trans (Node.isPrefix_of_mem_leaves m hstands.wf ?_)
  rw [← Node.filter_spot t.root h.root hm]
  exact List.mem_filter.2 ⟨hl, Key.startsWith_iff.2 hedge⟩

/-- On the path to the parent of a node there are keys that do not go through the edge to it. -/
theorem not_leadsTo_of_isPrefix (h : t.Wf) (hm : (r, m) ∈ t.root.spots [])
    (hedge : m.edge r <+: stem) (hfront : front <+: r) (hne : front ≠ []) :
    t.leadsTo stem front = false := by
  rw [← Bool.not_eq_true, leadsTo_iff]
  intro hall
  rcases exists_beside h hm with rfl | ⟨l, hl, hpath, hbeside⟩
  · exact hne (List.prefix_nil.1 hfront)
  · exact hbeside (hedge.trans (hall l hl (hfront.trans hpath)))

/-- The edge to the node that holds the keys with a stem is the scope of the stem. -/
theorem scope_eq (h : t.Wf) (hm : (r, m) ∈ t.root.spots []) (hedge : m.edge r <+: stem)
    (hend : stem <+: r ++ m.chunk) : t.scope stem = m.edge r := by
  have hlength := Node.length_edge (Node.stands_of_spot t.root h.root hm).2
  have hshorter : r.length < stem.length := by
    have hle := hedge.length_le
    omega
  have hfront : stem.take (r.length + 1) = m.edge r := by
    rw [← hlength]
    exact (List.prefix_iff_eq_take.1 hedge).symm
  have hpath : stem.take r.length = r :=
    (List.prefix_iff_eq_take.1 ((Node.isPrefix_edge r m).trans hedge)).symm
  have hfind : (List.range stem.length).find? (fun n => t.leadsTo stem (stem.take (n + 1))) =
      some r.length := by
    rw [List.find?_range_eq_some]
    refine ⟨?_, List.mem_range.2 hshorter, fun n hn => ?_⟩
    · rw [hfront]
      exact leadsTo_edge h hm hend
    · -- a shorter front is on the path to the parent
      have hshort : stem.take (n + 1) <+: r := by
        rw [← hpath]
        exact List.take_prefix_take_left hn
      have hne : stem.take (n + 1) ≠ [] := by
        rw [← List.length_pos_iff, List.length_take]
        omega
      rw [not_leadsTo_of_isPrefix h hm hedge hshort hne]
      rfl
  rw [scope, List.find?_map, Function.comp_def, hfind]
  exact hfront

end Tree

/-! ## Where a node is disturbed -/

/-- A node that stands somewhere keeps its place as long as the tree has it. -/
theorem Tree.Wf.mem_spots {t : Tree V} (h : t.Wf) {r : Key} {m : Node V} (hm : m.Stands r)
    (hin : .node m ∈ t.root.owners) : (r, m) ∈ t.root.spots [] := by
  rcases (Node.node_mem_owners [] t.root).1 hin with rfl | ⟨r', hr'⟩
  · exact absurd h.chunk hm.chunk_ne_nil
  · rwa [hm.path_unique (Node.stands_of_spot t.root h.root hr').2]

namespace Draft

variable {d : Draft V} {b : Board} {e : Edit V} {r : Key} {m : Node V}

/-- An edit disturbs an edge if it alters a key that goes through it, or if it leaves no key that
has the edge but for its last byte and goes on otherwise. An edge of the root needs no such key. -/
def Disturbs (d : Draft V) (edge : Key) (e : Edit V) : Prop :=
  (∃ key, edge <+: key ∧ e.Alters d.tree key) ∨
    (1 < edge.length ∧
      ∀ key, (d.apply e).get? key ≠ none → edge.dropLast <+: key → edge <+: key)

theorem leaves_rootOf (d : Draft V) (n : Option (Node V)) :
    (d.rootOf n).leaves = Node.leavesOf n.toList := by
  cases n <;> simp [rootOf, Node.leaves, Node.leavesOf]

/-- The removal of a stem that takes a node takes entries, unless the stem is empty. -/
theorem exists_leaf_of_eraseStem (hw : d.tree.Wf) {stem : Key}
    {e' : Option (Node V) × List Channel} (he : d.tree.root.eraseStem d.stamp 0 stem = some e')
    (hne : stem ≠ []) : ∃ l ∈ d.tree.leaves, stem <+: l.key := by
  have hlisted : (d.tree.seek stem).2 ≠ [] := fun hnil => hne (stem_eq_nil_of_eraseStem hw he hnil)
  rcases List.exists_mem_of_ne_nil _ hlisted with ⟨l, hl⟩
  exact ⟨l, hw.mem_seek.1 hl⟩

section

variable (hw : d.tree.Wf) (hm : (r, m) ∈ d.tree.root.spots [])

include hw hm

theorem spot_apply_erase {key : Key}
    (hkeys : ∀ k, m.edge r <+: k → ¬ (Edit.erase key).Alters d.tree k)
    (hacc : r = [] ∨ ∃ l ∈ (d.apply (.erase key)).tree.leaves, m.Beside r l) :
    (r, m) ∈ (d.apply (.erase key)).tree.root.spots [] := by
  cases he : d.tree.root.erase d.stamp 0 key with
  | none => simpa [apply, erase_absent he] using hm
  | some e' =>
    have hafter : (d.apply (.erase key)).tree.root = d.rootOf e'.1 := by simp [apply, erase, he]
    rw [Tree.leaves, hafter, leaves_rootOf] at hacc
    have hget : d.tree.get? key ≠ none := by
      have hfound := mt (Node.erase_eq_none_iff d.stamp d.tree.root 0 key).2 (by simp [he])
      simpa [Tree.get?] using hfound
    have hout : ¬ m.edge r <+: key := fun hin => hkeys key hin ⟨rfl, hget⟩
    rcases Node.spot_erase_root d.stamp hw.chunk hw.root he hm hout hacc with ⟨n, hn, hin⟩
    rwa [hafter, hn]

theorem spot_apply_eraseStem {stem : Key}
    (hkeys : ∀ k, m.edge r <+: k → ¬ (Edit.eraseStem stem).Alters d.tree k)
    (hacc : r = [] ∨ ∃ l ∈ (d.apply (.eraseStem stem)).tree.leaves, m.Beside r l) :
    (r, m) ∈ (d.apply (.eraseStem stem)).tree.root.spots [] := by
  have hstands := (Node.stands_of_spot d.tree.root hw.root hm).2
  cases he : d.tree.root.eraseStem d.stamp 0 stem with
  | none => simpa [apply, eraseStem, he] using hm
  | some e' =>
    have hafter : (d.apply (.eraseStem stem)).tree.root = d.rootOf e'.1 := by
      simp [apply, eraseStem, he]
    rw [Tree.leaves, hafter, leaves_rootOf] at hacc
    have hkeep {l : Leaf V} (hl : l ∈ d.tree.leaves) (hstem : stem <+: l.key) :
        ¬ m.edge r <+: l.key := fun hin =>
      hkeys l.key hin ⟨hstem, hw.get?_ne_none_iff.2 ⟨l, hl, rfl⟩⟩
    -- with a longer stem, some of the removed keys go through the edge
    have hout : ¬ m.edge r <+: stem := by
      intro hin
      have hne : stem ≠ [] := by
        rintro rfl
        have hle := hin.length_le
        rw [Node.length_edge hstands] at hle
        exact Nat.not_succ_le_zero _ hle
      rcases exists_leaf_of_eraseStem hw he hne with ⟨l, hl, hstem⟩
      exact hkeep hl hstem (hin.trans hstem)
    -- with a shorter one, all keys of the node are removed
    have hbefore : ¬ stem <+: m.edge r := by
      intro hstem
      rcases hstands.exists_leaf with ⟨l, hl⟩
      have hedge := hstands.edge_isPrefix_key hl
      rw [← Node.filter_spot d.tree.root hw.root hm] at hl
      exact hkeep (List.mem_filter.1 hl).1 (hstem.trans hedge) hedge
    rcases Node.spot_eraseStem_root d.stamp hw.chunk hw.root he hm hout hbefore hacc with
      ⟨n, hn, hin⟩
    rwa [hafter, hn]

/-- An edit leaves a node where it stands if it alters no key that goes through the edge, and
leaves the edge company. -/
theorem spot_apply (hkeys : ∀ key, m.edge r <+: key → ¬ e.Alters d.tree key)
    (hacc : r = [] ∨ ∃ l ∈ (d.apply e).tree.leaves, m.Beside r l) :
    (r, m) ∈ (d.apply e).tree.root.spots [] := by
  cases e with
  | insert key value =>
    have hout : ¬ m.edge r <+: key := fun hin => hkeys key hin rfl
    exact Node.spot_insert d.stamp key value d.tree.root 0 key rfl hout hm
  | erase key => exact spot_apply_erase hw hm hkeys hacc
  | eraseStem stem => exact spot_apply_eraseStem hw hm hkeys hacc

end

/-- An edit that does not disturb the edge to a node alters no key that goes through it, and leaves
it company. -/
theorem not_disturbs_iff (hw : d.tree.Wf) (hm : m.Stands r) : ¬ d.Disturbs (m.edge r) e ↔
    (∀ key, m.edge r <+: key → ¬ e.Alters d.tree key) ∧
      (r = [] ∨ ∃ l ∈ (d.apply e).tree.leaves, m.Beside r l) := by
  have hlength : 1 < (m.edge r).length ↔ r ≠ [] := by
    rw [Node.length_edge hm, ← List.length_pos_iff]
    omega
  have hbeside : (∃ l ∈ (d.apply e).tree.leaves, m.Beside r l) ↔
      ∃ key, (d.apply e).get? key ≠ none ∧ r <+: key ∧ ¬ m.edge r <+: key := by
    constructor
    · rintro ⟨l, hl, hb⟩
      exact ⟨l.key, (wf_apply hw e).get?_ne_none_iff.2 ⟨l, hl, rfl⟩, hb⟩
    · rintro ⟨key, hget, hb⟩
      rcases (wf_apply hw e).get?_ne_none_iff.1 hget with ⟨l, hl, rfl⟩
      exact ⟨l, hl, hb⟩
  rw [hbeside, Disturbs, not_or, hlength, Node.dropLast_edge hm]
  refine and_congr (by simp) ?_
  by_cases hr : r = [] <;> simp [hr]

/-- A node stays if and only if the edit does not disturb the edge to it. -/
theorem node_stays_iff (hl : d.Live b) (hw : d.tree.Wf) (hm : m.Stands r)
    (hin : .node m ∈ d.tree.root.owners) :
    .node m ∈ (d.apply e).tree.root.owners ↔ ¬ d.Disturbs (m.edge r) e := by
  have hspot := hw.mem_spots hm hin
  rw [not_disturbs_iff hw hm]
  constructor
  · intro hin'
    have hw' := wf_apply hw e
    have hspot' := hw'.mem_spots hm hin'
    refine ⟨fun key hedge halters => ?_, Tree.exists_beside hw' hspot'⟩
    -- the leaves of the node are the same before and after the edit
    rcases exists_leaf_of_alters hl hw halters with ⟨l, rfl, hdiffer⟩
    have hbefore := Node.filter_spot _ hw.root hspot
    rw [← Node.filter_spot _ hw'.root hspot'] at hbefore
    have hmem : l ∈ d.tree.leaves ↔ l ∈ (d.apply e).tree.leaves := by
      have hiff := iff_of_eq (congrArg (l ∈ ·) hbefore)
      rw [Tree.leaves, Tree.leaves]
      simpa [List.mem_filter, Key.startsWith_iff, hedge] using hiff
    exact hdiffer hmem.symm
  · rintro ⟨hkeys, hacc⟩
    exact (Node.node_mem_owners [] _).2 (.inr ⟨r, spot_apply hw hspot hkeys hacc⟩)

/-- The root stays if and only if the edit alters nothing, as long as there are entries. -/
theorem root_stays_iff (hl : d.Live b) (hw : d.tree.Wf) (hne : d.tree.leaves ≠ []) :
    .node d.tree.root ∈ (d.apply e).tree.root.owners ↔ ∀ key, ¬ e.Alters d.tree key := by
  constructor
  · intro hin key halters
    rcases (Node.node_mem_owners [] _).1 hin with hroot | ⟨r, hr⟩
    · rcases exists_leaf_of_alters hl hw halters with ⟨l, rfl, hdiffer⟩
      rw [Tree.leaves, Tree.leaves, ← hroot] at hdiffer
      exact hdiffer Iff.rfl
    · have hstands := (Node.stands_of_spot _ (wf_apply hw e).root hr).2
      exact absurd hw.chunk hstands.chunk_ne_nil
  · intro hno
    have hidle : d.Idle e := (idle_iff hw).2 hno
    have hstem : e ≠ .eraseStem [] := by
      rintro rfl
      exact hne hidle.leaves_eq_nil
    rw [hidle.apply_eq hw hstem]
    exact (Node.node_mem_owners [] _).2 (.inl rfl)

/-! ## The channel of a seek -/

/-- A seek of a stem that some key has gives the channel of the root, or that of a node on whose
edge the stem ends. -/
theorem seek_fst {t : Tree V} (hw : t.Wf) {stem key : Key} (hstem : stem <+: key)
    (hkey : t.get? key ≠ none) : (stem = [] ∧ (t.seek stem).1 = t.channel) ∨
      ∃ r m, (r, m) ∈ t.root.spots [] ∧ (t.seek stem).1 = m.channel ∧ t.scope stem = m.edge r := by
  cases hs : (t.root.seek stem).2 with
  | none =>
    have hnil : (t.seek stem).2 = [] := by rw [Tree.seek_eq_root, hs, Option.elim_none]
    exact absurd (hw.seek_eq_nil_iff.1 hnil key hstem) hkey
  | some m =>
    rw [Tree.seek_eq_root]
    rcases Node.spot_of_seek t.root stem hw.root hs with
      ⟨hchannel, ⟨rfl, rfl⟩ | ⟨r, hr, hedge, hend⟩⟩
    · exact .inl ⟨rfl, hchannel⟩
    · exact .inr ⟨r, m, hr, hchannel, Tree.scope_eq hw hr hedge hend⟩

/-- When the channel of a seek fires. Let a draft with a stamp of its own edit a version that has a
key with the stem. Its commit fires the channel that a seek of the stem gave if and only if one of
the edits disturbed the scope of the stem: it altered a key that starts with the scope, or it left
no key that has the scope but for its last byte and goes on otherwise. The scope is a front of the
stem, so that all keys with the stem count, and others too where it is shorter. -/
theorem seek_fires_iff {origin : Draft V} (h : origin.Reached b) {s : Stamp}
    (hs : ∀ c ∈ origin.tree.channels, ¬ s.Claims c) {stem key : Key} (hstem : stem <+: key)
    (hkey : origin.tree.get? key ≠ none) (edits : List (Edit V)) (board : Board) :
    let t := origin.tree
    t.scope stem <+: stem ∧
      ((((t.edit s).applyAll edits).commit board).2.isFired (t.seek stem).1 = true ↔
        board.isFired (t.seek stem).1 = true ∨ ∃ before e after, edits = before ++ e :: after ∧
          ((t.edit s).applyAll before).Disturbs (t.scope stem) e) := by
  intro t
  have hw : t.Wf := h.wf
  refine ⟨t.scope_isPrefix stem, ?_⟩
  rcases seek_fst hw hstem hkey with ⟨rfl, hchannel⟩ | ⟨r, m, hm, hchannel, hscope⟩
  · -- the root stays as long as the draft alters nothing
    have hroot : .node t.root ∈ t.root.owners := (Node.node_mem_owners [] t.root).2 (.inl rfl)
    have hstep {d : Draft V} (hl : d.Live {}) (hw' : d.tree.Wf)
        (hin : .node t.root ∈ d.tree.root.owners) (e : Edit V) :
        .node t.root ∉ (d.apply e).tree.root.owners ↔ d.Disturbs [] e := by
      have hsame : t.root = d.tree.root := by
        rcases (Node.node_mem_owners [] _).1 hin with hsame | ⟨r, hr⟩
        · exact hsame
        · exact absurd hw.chunk (Node.stands_of_spot _ hw'.root hr).2.chunk_ne_nil
      have hne : d.tree.leaves ≠ [] := by
        rcases hw.get?_ne_none_iff.1 hkey with ⟨l, hl, _⟩
        rw [Tree.leaves, ← hsame]
        exact List.ne_nil_of_mem hl
      rw [hsame, root_stays_iff hl hw' hne]
      simp [Disturbs]
    rw [hchannel, Tree.scope_nil]
    exact owner_fires_iff h hs hroot hstep edits board
  · have hstands := (Node.stands_of_spot t.root hw.root hm).2
    have hin : .node m ∈ t.root.owners := (Node.node_mem_owners [] t.root).2 (.inr ⟨r, hm⟩)
    have hstep {d : Draft V} (hl : d.Live {}) (hw' : d.tree.Wf)
        (hin : .node m ∈ d.tree.root.owners) (e : Edit V) :
        .node m ∉ (d.apply e).tree.root.owners ↔ d.Disturbs (m.edge r) e := by
      rw [node_stays_iff hl hw' hstands hin, Classical.not_not]
    rw [hchannel, hscope]
    exact owner_fires_iff h hs hin hstep edits board

/-- Two keys with the stem stand below a fork, and a third one parts from them above it. When the
third one goes, the upper fork is joined with the lower one, and the channel of the stem fires. -/
theorem seek_fires_iff_bytes :
    let origin : Draft Nat :=
      ((((Tree.empty ⟨⟨0, 0, 0⟩, 0, .node⟩).edit ⟨1, 0, 0⟩).apply (.insert [7, 7, 7, 0] 1)).apply
        (.insert [7, 7, 7, 255] 2)).apply (.insert [7, 0] 3)
    let t := origin.tree
    let s : Stamp := ⟨2, 0, 0⟩
    let edits : List (Edit Nat) := [.insert [8] 4, .erase [7, 0]]
    origin.Reached {} ∧ (∀ c ∈ t.channels, ¬ s.Claims c) ∧ t.get? [7, 7, 7, 0] ≠ none ∧
      t.scope [7, 7, 7] = [7, 7] ∧
      (((t.edit s).applyAll edits).commit {}).2.isFired (t.seek [7, 7, 7]).1 = true := by
  intro origin t s edits
  have hempty : Stamp.Fresh ⟨1, 0, 0⟩ (Tree.empty ⟨⟨0, 0, 0⟩, 0, .node⟩ : Tree Nat) {} :=
    Stamp.fresh_of_region (by decide)
  have horigin : origin.Reached {} := (((Reached.empty _ _ {} rfl hempty).edit _).edit _).edit _
  have hs : ∀ c ∈ t.channels, ¬ s.Claims c := Stamp.not_claims_of_region (by decide +kernel)
  have hkey : t.get? [7, 7, 7, 0] ≠ none := by decide +kernel
  have hscope : t.scope [7, 7, 7] = [7, 7] := by decide +kernel
  -- after the removal, all keys with the first byte have the scope
  let d := (t.edit s).applyAll [.insert [8] 4]
  have hopened : (t.edit s).tree.Wf := horigin.wf
  have hw : (d.apply (.erase [7, 0])).tree.Wf := wf_apply (wf_applyAll hopened _) _
  have hall : ∀ l ∈ (d.apply (.erase [7, 0])).tree.leaves, [7] <+: l.key → [7, 7] <+: l.key := by
    decide +kernel
  have hdisturbs : d.Disturbs (t.scope [7, 7, 7]) (.erase [7, 0]) := by
    rw [hscope]
    refine .inr ⟨by decide, fun key hget hfront => ?_⟩
    rcases hw.get?_ne_none_iff.1 hget with ⟨l, hl, rfl⟩
    exact hall l hl hfront
  have hstem : [7, 7, 7] <+: ([7, 7, 7, 0] : Key) := by decide
  have hfires := seek_fires_iff horigin hs hstem hkey edits {}
  exact ⟨horigin, hs, hkey, hscope, hfires.2.2 (.inr ⟨_, _, [], rfl, hdisturbs⟩)⟩

/-- A key that ends before the stem does splits the edge to the node of the stem. No key with the
stem is altered and a seek finds the same entries, but the channel fires. -/
theorem seek_fires_beyond_stem :
    let origin : Draft Nat :=
      ((((Tree.empty ⟨⟨0, 0, 0⟩, 0, .node⟩).edit ⟨1, 0, 0⟩).apply
        (.insert [102, 111, 111, 49] 1)).apply (.insert [102, 111, 111, 50] 2)).apply
          (.insert [98, 97, 114] 3)
    let t := origin.tree
    let stem : Key := [102, 111, 111]
    let e : Edit Nat := .insert [102, 111] 4
    let d := (t.edit ⟨2, 0, 0⟩).apply e
    origin.Reached {} ∧ stem <+: [102, 111, 111, 49] ∧ t.get? [102, 111, 111, 49] ≠ none ∧
      (∀ key, stem <+: key → ¬ e.Alters t key) ∧ (d.tree.seek stem).2 = (t.seek stem).2 ∧
      ({} : Board).isFired (t.seek stem).1 = false ∧
      (d.commit {}).2.isFired (t.seek stem).1 = true := by
  intro origin t stem e d
  have hempty : Stamp.Fresh ⟨1, 0, 0⟩ (Tree.empty ⟨⟨0, 0, 0⟩, 0, .node⟩ : Tree Nat) {} :=
    Stamp.fresh_of_region (by decide)
  have horigin : origin.Reached {} := (((Reached.empty _ _ {} rfl hempty).edit _).edit _).edit _
  have hnone : ∀ key, stem <+: key → ¬ e.Alters t key := by
    rintro _ hstem rfl
    exact absurd hstem (by decide)
  exact ⟨horigin, by decide, by decide +kernel, hnone, by decide +kernel, rfl, by decide +kernel⟩

end Draft

end SnapStore
