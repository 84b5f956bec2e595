import SnapStore.Proofs.Radix.Exchange

/-! # Where the nodes of a tree stand

Every node but the root stands on an edge, which begins at the end of the path of its parent. In a
well-formed tree the leaves of the node are those whose keys go through this edge, and below the
root an edge has company: its parent has a leaf or another edge. An edit leaves a node where it
stands if it does not touch the keys that go through its edge and leaves the edge some company.

Main statements: `filter_spot` and `exists_beside` (what the place of a node says about leaves),
`spot_insert`, `spot_erase` and `spot_eraseStem`, one for each edit, and `spot_of_seek` (the node
that a seek finds).
-/

namespace SnapStore

universe u

variable {V : Type u}

namespace Node

mutual

/-- The nodes below a node at the end of `path`, each with the path of its parent. -/
def spots (path : Key) : Node V → List (Key × Node V)
  | mk _ _ _ edges => spotsOf path edges

/-- The children of a node at the end of `path` and the nodes below them, each with the path of
its parent. -/
def spotsOf (path : Key) : List (Node V) → List (Key × Node V)
  | [] => []
  | n :: ns => (path, n) :: (n.spots (path ++ n.chunk) ++ spotsOf path ns)

end

/-- The shortest stem whose keys all go through the edge to a node, from a parent at the end of
`path`. -/
def edge (path : Key) (n : Node V) : Key :=
  path ++ n.label?.toList

/-- The key of the leaf goes through the parent of a node, and not through the edge to the node. -/
def Beside (path : Key) (n : Node V) (l : Leaf V) : Prop :=
  path <+: l.key ∧ ¬ n.edge path <+: l.key

variable {path r : Key} {m n : Node V} {ns : List (Node V)}

@[simp] theorem mem_spotsOf_cons : (r, m) ∈ spotsOf path (n :: ns) ↔
    (r = path ∧ m = n) ∨ (r, m) ∈ n.spots (path ++ n.chunk) ∨ (r, m) ∈ spotsOf path ns := by
  simp [spotsOf]

@[simp] theorem not_mem_spotsOf_nil : (r, m) ∉ spotsOf path [] :=
  List.not_mem_nil

theorem mem_spotsOf : (r, m) ∈ spotsOf path ns ↔
    ∃ n ∈ ns, (r = path ∧ m = n) ∨ (r, m) ∈ n.spots (path ++ n.chunk) := by
  induction ns with
  | nil => simp
  | cons n ns ih => simp [ih, or_assoc]

theorem mem_spotsOf_append {ms : List (Node V)} : (r, m) ∈ spotsOf path (ns ++ ms) ↔
    (r, m) ∈ spotsOf path ns ∨ (r, m) ∈ spotsOf path ms := by
  simp [mem_spotsOf, or_and_right, exists_or]

theorem spots_eq (path : Key) (n : Node V) : n.spots path = spotsOf path n.edges := by
  cases n
  rfl

mutual

/-- The nodes that own a channel are the root and those that stand somewhere. -/
theorem node_mem_owners (path : Key) : ∀ n : Node V,
    .node m ∈ n.owners ↔ m = n ∨ ∃ r, (r, m) ∈ n.spots path
  | mk chunk channel leaf edges => by
    rw [owners, spots, List.mem_cons, List.mem_append, node_mem_ownersOf path edges]
    simp

theorem node_mem_ownersOf (path : Key) : ∀ ns : List (Node V),
    .node m ∈ ownersOf ns ↔ ∃ r, (r, m) ∈ spotsOf path ns
  | [] => by simp [ownersOf]
  | n :: ns => by
    rw [ownersOf, List.mem_append, node_mem_owners (path ++ n.chunk) n, node_mem_ownersOf path ns]
    simp [exists_or, or_assoc]

end

/-! ## Nodes of a well-formed tree -/

/-- What holds of a node on an edge from the end of `path`. -/
structure Stands (path : Key) (n : Node V) : Prop where
  chunk_ne_nil : n.chunk ≠ []
  full : n.Full
  wf : n.Wf (path ++ n.chunk)

namespace Stands

/-- The edge to a node starts with its label. -/
theorem exists_label (h : n.Stands path) :
    ∃ b chunk, n.chunk = b :: chunk ∧ n.label? = some b ∧ n.edge path = path ++ [b] := by
  rcases List.exists_cons_of_ne_nil h.chunk_ne_nil with ⟨b, chunk, hc⟩
  exact ⟨b, chunk, hc, by simp [label?, hc], by simp [edge, label?, hc]⟩

theorem edge_isPrefix (h : n.Stands path) : n.edge path <+: path ++ n.chunk := by
  rcases h.exists_label with ⟨b, chunk, hc, _, he⟩
  simp [he, hc]

/-- All keys of a node go through the edge to it. -/
theorem edge_isPrefix_key (h : n.Stands path) {l : Leaf V} (hl : l ∈ n.leaves) :
    n.edge path <+: l.key :=
  h.edge_isPrefix.trans (isPrefix_of_mem_leaves n h.wf hl)

end Stands

theorem isPrefix_edge (path : Key) (n : Node V) : path <+: n.edge path :=
  List.prefix_append path _

theorem WfEdges.stands (h : WfEdges path ns) (hn : n ∈ ns) : n.Stands path := by
  induction ns with
  | nil => cases hn
  | cons m ns ih =>
    simp only [WfEdges] at h
    rcases List.mem_cons.1 hn with rfl | hn
    · exact ⟨h.1, h.2.1, h.2.2.1⟩
    · exact ih h.2.2.2.2 hn

/-- A node with a leaf or two children has leaves below it. -/
theorem leaves_ne_nil {path : Key} : ∀ n : Node V, n.Wf path → n.Full → n.leaves ≠ []
  | mk _ _ (some l) _, _, _ => by simp [leaves]
  | mk _ _ none [], _, hf => by simp [Full] at hf
  | mk _ _ none (n :: ns), h, _ => by
    have hn : n.Stands path := (wf_iff.1 h).2.stands List.mem_cons_self
    have hne := leaves_ne_nil n hn.wf hn.full
    simp [leaves, leavesOf, hne]

theorem Stands.exists_leaf (h : n.Stands path) : ∃ l, l ∈ n.leaves :=
  List.exists_mem_of_ne_nil _ (leaves_ne_nil n h.wf h.full)

mutual

theorem stands_of_spot {path : Key} : ∀ n : Node V, n.Wf path → (r, m) ∈ n.spots path →
    path <+: r ∧ m.Stands r
  | mk _ _ _ edges, h, hm => stands_of_spotOf edges (wf_iff.1 h).2 hm

theorem stands_of_spotOf {path : Key} : ∀ ns : List (Node V), WfEdges path ns →
    (r, m) ∈ spotsOf path ns → path <+: r ∧ m.Stands r
  | [], _, hm => nomatch hm
  | n :: ns, h, hm => by
    have hn : n.Stands path := h.stands List.mem_cons_self
    simp only [WfEdges] at h
    rcases mem_spotsOf_cons.1 hm with ⟨rfl, rfl⟩ | hm | hm
    · exact ⟨List.prefix_rfl, hn⟩
    · rcases stands_of_spot n hn.wf hm with ⟨hr, hm⟩
      exact ⟨(List.prefix_append path n.chunk).trans hr, hm⟩
    · exact stands_of_spotOf ns h.2.2.2.2 hm

end

/-- Whatever goes on through the parent of a node below siblings has the label of one of them. -/
theorem exists_label_of_spotOf (h : WfEdges path ns) (hm : (r, m) ∈ spotsOf path ns) :
    r = path ∨ ∃ n ∈ ns, ∃ b rest, n.label? = some b ∧ r = path ++ b :: rest := by
  rcases mem_spotsOf.1 hm with ⟨n, hn, ⟨rfl, _⟩ | hm⟩
  · exact .inl rfl
  · have hstands := h.stands hn
    rcases hstands.exists_label with ⟨b, chunk, hc, hlabel, _⟩
    rcases (stands_of_spot n hstands.wf hm).1 with ⟨rest, rfl⟩
    exact .inr ⟨n, hn, b, chunk ++ rest, hlabel, by simp [hc]⟩

/-- The edge to a node below siblings goes on with the label of one of them. -/
theorem exists_label_of_edge (h : WfEdges path ns) (hm : (r, m) ∈ spotsOf path ns) :
    ∃ n ∈ ns, ∃ b rest, n.label? = some b ∧ m.edge r = path ++ b :: rest := by
  rcases mem_spotsOf.1 hm with ⟨n, hn, hm⟩
  have hstands := h.stands hn
  rcases hstands.exists_label with ⟨b, chunk, hc, hlabel, he⟩
  rcases hm with ⟨rfl, rfl⟩ | hm
  · exact ⟨m, hn, b, [], hlabel, he⟩
  · rcases (stands_of_spot n hstands.wf hm).1 with ⟨rest, rfl⟩
    exact ⟨n, hn, b, chunk ++ rest ++ m.label?.toList, hlabel, by simp [edge, hc]⟩

mutual

/-- The leaves of a node are those whose keys go through the edge to it. -/
theorem filter_spot {path : Key} : ∀ n : Node V, n.Wf path → (r, m) ∈ n.spots path →
    n.leaves.filter (·.key.startsWith (m.edge r)) = m.leaves
  | mk _ _ leaf edges, h, hm => by
    rw [wf_iff] at h
    rcases exists_label_of_edge h.2 hm with ⟨_, _, b, rest, _, he⟩
    have hleaf : ∀ l ∈ leaf, l.key = path := h.1
    rw [leaves, List.filter_append, filter_spotOf edges h.2 hm, he, filter_leaf_of_path hleaf,
      List.nil_append]

theorem filter_spotOf {path : Key} : ∀ ns : List (Node V), WfEdges path ns →
    (r, m) ∈ spotsOf path ns → (leavesOf ns).filter (·.key.startsWith (m.edge r)) = m.leaves
  | [], _, hm => nomatch hm
  | n :: ns, h, hm => by
    have hn : n.Stands path := h.stands List.mem_cons_self
    simp only [WfEdges] at h
    rcases h with ⟨_, _, _, hb, hns⟩
    rcases hn.exists_label with ⟨b, chunk, hc, hlabel, he⟩
    have htail (rest : Key) : (leavesOf ns).filter (·.key.startsWith (path ++ b :: rest)) = [] :=
      filter_leavesOf_of_label hns fun x hx => (hb x hx).label_ne hlabel
    rw [leavesOf, List.filter_append]
    rcases mem_spotsOf_cons.1 hm with ⟨rfl, rfl⟩ | hm | hm
    · have hfront : [b] <+: m.chunk := by simp [hc]
      rw [he, htail, filter_leaves_of_isPrefix hn.wf hfront, List.append_nil]
    · rw [filter_spot n hn.wf hm]
      rcases (stands_of_spot n hn.wf hm).1 with ⟨rest, rfl⟩
      have hedge : m.edge (path ++ n.chunk ++ rest) =
          path ++ b :: (chunk ++ rest ++ m.label?.toList) := by simp [edge, hc]
      rw [hedge, htail, List.append_nil]
    · rcases exists_label_of_edge hns hm with ⟨x, hx, c, rest, hxc, hedge⟩
      have hne : n.label? ≠ some c := fun hnc => (hb x hx).label_ne hnc hxc
      rw [filter_spotOf ns hns hm, hedge, filter_leaves_of_label hn.wf hn.chunk_ne_nil hne,
        List.nil_append]

end

/-! ## Company -/

/-- A key that goes through one edge does not go through a sibling's. -/
theorem beside_of_label (hn : n.Stands path) (hm : m.Stands path) (hne : n.label? ≠ m.label?)
    {l : Leaf V} (hl : l ∈ n.leaves) : m.Beside path l := by
  rcases hm.exists_label with ⟨b, _, _, hlabel, he⟩
  refine ⟨(isPrefix_edge path n).trans (hn.edge_isPrefix_key hl), ?_⟩
  rw [he]
  rintro ⟨rest, hk⟩
  have hkey : l.key = path ++ b :: rest := by simp [← hk]
  exact not_mem_leaves_of_label hn.wf hn.chunk_ne_nil (hlabel ▸ hne) hkey hl

/-- A child of a node with a leaf or another child has company. -/
theorem exists_beside_child {path : Key} : ∀ n : Node V, n.Wf path → n.Full → m ∈ n.edges →
    ∃ l ∈ n.leaves, m.Beside path l
  | mk _ _ (some l) edges, h, _, hm => by
    rw [wf_iff] at h
    have hkey : l.key = path := h.1 l rfl
    rcases (h.2.stands hm).exists_label with ⟨b, _, _, _, he⟩
    refine ⟨l, by simp [leaves], hkey ▸ List.prefix_rfl, fun hedge => ?_⟩
    have hle := hedge.length_le
    rw [he, hkey, List.length_append, List.length_singleton] at hle
    omega
  | mk _ _ none [], _, hf, _ => by simp [Full] at hf
  | mk _ _ none [_], _, hf, _ => by simp [Full] at hf
  | mk _ _ none (x :: y :: ns), h, _, hm => by
    have hedges := (wf_iff.1 h).2
    have hx : x.Stands path := hedges.stands List.mem_cons_self
    have hy : y.Stands path := hedges.stands (List.mem_cons_of_mem x List.mem_cons_self)
    have hstands : m.Stands path := hedges.stands hm
    have hxy : x.Before y := by
      simp only [edges_mk, WfEdges] at hedges
      exact hedges.2.2.2.1 y List.mem_cons_self
    rcases hstands.exists_label with ⟨b, _, _, hb, _⟩
    -- of two siblings one has another label than the child
    by_cases hxm : x.label? = m.label?
    · have hym : y.label? ≠ m.label? := hb ▸ hxy.label_ne (hxm.trans hb)
      rcases hy.exists_leaf with ⟨l, hl⟩
      exact ⟨l, by simp [leaves, leavesOf, hl], beside_of_label hy hstands hym hl⟩
    · rcases hx.exists_leaf with ⟨l, hl⟩
      exact ⟨l, by simp [leaves, leavesOf, hl], beside_of_label hx hstands hxm hl⟩

mutual

/-- The edge to a node below another one has company. -/
theorem exists_beside_of_full {path : Key} : ∀ n : Node V, n.Wf path → n.Full →
    (r, m) ∈ n.spots path → ∃ l ∈ n.leaves, m.Beside r l
  | mk chunk channel leaf edges, h, hf, hm => by
    rcases exists_beside edges (wf_iff.1 h).2 hm with rfl | ⟨l, hl, hbeside⟩
    · refine exists_beside_child _ h hf ?_
      rcases mem_spotsOf.1 hm with ⟨n, hn, ⟨_, rfl⟩ | hin⟩
      · exact hn
      · -- below a child, the path is longer
        have hstands := (wf_iff.1 h).2.stands hn
        have hle := (stands_of_spot n hstands.wf hin).1.length_le
        have hpos := List.length_pos_iff.2 hstands.chunk_ne_nil
        rw [List.length_append] at hle
        omega
    · exact ⟨l, List.mem_append_right _ hl, hbeside⟩

/-- The edge to a node has company, unless its parent is the node above the siblings. -/
theorem exists_beside {path : Key} : ∀ ns : List (Node V), WfEdges path ns →
    (r, m) ∈ spotsOf path ns → r = path ∨ ∃ l ∈ leavesOf ns, m.Beside r l
  | [], _, hm => nomatch hm
  | n :: ns, h, hm => by
    have hn : n.Stands path := h.stands List.mem_cons_self
    simp only [WfEdges] at h
    rcases mem_spotsOf_cons.1 hm with ⟨rfl, _⟩ | hm | hm
    · exact .inl rfl
    · rcases exists_beside_of_full n hn.wf hn.full hm with ⟨l, hl, hbeside⟩
      exact .inr ⟨l, List.mem_append_left _ hl, hbeside⟩
    · rcases exists_beside ns h.2.2.2.2 hm with hr | ⟨l, hl, hbeside⟩
      · exact .inl hr
      · exact .inr ⟨l, List.mem_append_right _ hl, hbeside⟩

end

/-- A path at which two keys part is the only one up to which they go together. -/
theorem eq_of_parted {p q k l : Key} {a b : UInt8} (hab : a ≠ b) (hk : p ++ [a] <+: k)
    (hl : p ++ [b] <+: l) (hqk : q <+: k) (hql : q <+: l) (hpq : p <+: q) : p = q := by
  rcases hpq with ⟨_ | ⟨c, rest⟩, rfl⟩
  · exact (List.append_nil p).symm
  · have hsame {x : UInt8} {key : Key} (hx : p ++ [x] <+: key) (hq : p ++ c :: rest <+: key) :
        x = c := by
      rcases hx with ⟨s, rfl⟩
      rw [List.append_assoc] at hq
      exact (List.cons_prefix_cons.1 ((List.prefix_append_right_inj p).1 hq)).1.symm
    exact absurd ((hsame hk hqk).trans (hsame hl hql).symm) hab

/-- What the keys of a node have in common leads to it: it is no longer than the path of the
node. -/
theorem isPrefix_of_full {p q : Key} : ∀ n : Node V, n.Wf p → n.Full →
    (∀ l ∈ n.leaves, q <+: l.key) → q <+: p
  | mk _ _ (some l) _, hp, _, hq => by
    rw [wf_iff] at hp
    have hkey : l.key = p := hp.1 l rfl
    exact hkey ▸ hq l (by simp [leaves])
  | mk _ _ none [], _, hf, _ => by simp [Full] at hf
  | mk _ _ none [_], _, hf, _ => by simp [Full] at hf
  | mk _ _ none (x :: y :: ns), hp, _, hq => by
    have hedges := (wf_iff.1 hp).2
    have hx : x.Stands p := hedges.stands List.mem_cons_self
    have hy : y.Stands p := hedges.stands (List.mem_cons_of_mem x List.mem_cons_self)
    rcases hx.exists_leaf with ⟨k, hk⟩
    rcases hy.exists_leaf with ⟨l, hl⟩
    rcases hx.exists_label with ⟨a, _, _, ha, hea⟩
    rcases hy.exists_label with ⟨b, _, _, hb, heb⟩
    have hab : a ≠ b := by
      simp only [edges_mk, WfEdges] at hedges
      exact fun heq => (hedges.2.2.2.1 y List.mem_cons_self).label_ne ha (heq ▸ hb)
    -- the keys of two children part behind the path
    have hpk : p ++ [a] <+: k.key := hea ▸ hx.edge_isPrefix_key hk
    have hpl : p ++ [b] <+: l.key := heb ▸ hy.edge_isPrefix_key hl
    have hqk : q <+: k.key := hq k (by simp [leaves, leavesOf, hk])
    have hql : q <+: l.key := hq l (by simp [leaves, leavesOf, hl])
    rcases List.prefix_or_prefix_of_prefix ((List.prefix_append p [a]).trans hpk) hqk with
      hpq | hqp
    · obtain rfl := eq_of_parted hab hpk hpl hqk hql hpq
      exact List.prefix_rfl
    · exact hqp

/-- Nodes with the same keys have the same path. -/
theorem path_eq_of_keys {p q : Key} (hm : m.Wf p) (hmf : m.Full) (hn : n.Wf q) (hnf : n.Full)
    (hkeys : m.leaves.map Leaf.key = n.leaves.map Leaf.key) : p = q := by
  have hpq : p <+: q := by
    refine isPrefix_of_full n hn hnf fun l hl => ?_
    have hkey : l.key ∈ m.leaves.map Leaf.key := hkeys ▸ List.mem_map_of_mem hl
    rcases List.mem_map.1 hkey with ⟨k, hk, hlk⟩
    exact hlk ▸ isPrefix_of_mem_leaves m hm hk
  have hqp : q <+: p := by
    refine isPrefix_of_full m hm hmf fun l hl => ?_
    have hkey : l.key ∈ n.leaves.map Leaf.key := hkeys ▸ List.mem_map_of_mem hl
    rcases List.mem_map.1 hkey with ⟨k, hk, hlk⟩
    exact hlk ▸ isPrefix_of_mem_leaves n hn hk
  exact hpq.eq_of_length_le hqp.length_le

/-- The leaves of a node tell where it stands. -/
theorem path_unique {p q : Key} (n : Node V) (hp : n.Wf p) (hq : n.Wf q) (hf : n.Full) : p = q :=
  path_eq_of_keys hp hf hq hf rfl

/-! ## Insertion -/

section Insertion

variable (s : Stamp) (key : Key) (value : V)

theorem mem_pair {x : Node V} : x ∈ pair m n ↔ x = m ∨ x = n := by
  unfold pair
  split
  · split <;> simp [or_comm]
  · simp

/-- What stands below a node stands where it did when the edge to the node is split. -/
theorem spot_split (depth : Nat) {f : Key.Fork} (hf : f.shared ++ f.left = n.chunk)
    (hm : (r, m) ∈ n.spots (path ++ n.chunk)) :
    (r, m) ∈ (n.split s depth key value f).spots (path ++ f.shared) := by
  have hstub : (r, m) ∈ (n.stub s depth f.left).spots
      (path ++ f.shared ++ (n.stub s depth f.left).chunk) := by
    rw [spots_eq] at hm ⊢
    rwa [chunk_stub, List.append_assoc, hf]
  unfold split
  split
  · exact mem_spotsOf.2 ⟨_, List.mem_singleton_self _, .inr hstub⟩
  · exact mem_spotsOf.2 ⟨_, mem_pair.2 (.inl rfl), .inr hstub⟩

mutual

/-- An insertion leaves the nodes where they stand, unless the key goes through the edge. -/
theorem spot_insert {path : Key} : ∀ (n : Node V) (depth : Nat) (search : Key),
    key = path ++ search → ¬ m.edge r <+: key → (r, m) ∈ n.spots path →
      (r, m) ∈ (n.insert s key value depth search).1.spots path
  | mk _ _ _ _, _, [], _, _, hm => hm
  | mk _ _ _ edges, depth, b :: rest, hk, hout, hm =>
    spot_insertIn edges depth b rest hk hout hm

theorem spot_insertIn {path : Key} {parent : Channel} :
    ∀ (ns : List (Node V)) (depth : Nat) (b : UInt8) (rest : Key),
    key = path ++ b :: rest → ¬ m.edge r <+: key → (r, m) ∈ spotsOf path ns →
      (r, m) ∈ spotsOf path (insertIn s key value depth parent ns b (b :: rest)).1
  | [], _, _, _, _, _, hm => nomatch hm
  | n :: ns, depth, b, rest, hk, hout, hm => by
    have htail (hns : (r, m) ∈ spotsOf path ns) :
        (r, m) ∈ spotsOf path (insertIn s key value depth parent ns b (b :: rest)).1 :=
      spot_insertIn ns depth b rest hk hout hns
    have hbehind :
        (r, m) ∈ spotsOf path (n :: (insertIn s key value depth parent ns b (b :: rest)).1) := by
      rw [mem_spotsOf_cons] at hm ⊢
      exact hm.imp_right (.imp_right htail)
    rw [insertIn]
    split
    · exact hbehind
    · rename_i c hlabel
      split
      · rename_i hcb
        subst hcb
        rw [mem_spotsOf_cons] at hm
        rcases hm with ⟨rfl, rfl⟩ | hm | hm
        · -- the key goes through the edge to this child
          refine absurd ?_ hout
          simp [hk, edge, hlabel]
        · split
          · rename_i tail hfork
            have hsearch : n.chunk ++ tail = c :: rest := Key.append_right_of_fork hfork
            have hkey : key = path ++ n.chunk ++ tail := by rw [hk, List.append_assoc, hsearch]
            have hin := spot_insert n (depth + 1) tail hkey hout hm
            rw [mem_spotsOf_cons, chunk_insert]
            exact .inr (.inl hin)
          · rename_i f _ _ _ hfork
            rw [← hfork, mem_spotsOf_cons, chunk_split]
            exact .inr (.inl (spot_split s key value depth (Key.fork_left _ _) hm))
        · split <;> exact mem_spotsOf_cons.2 (.inr (.inr hm))
      · split
        · exact mem_spotsOf_cons.2 (.inr (.inr hm))
        · exact hbehind

end

end Insertion

/-! ## Removal -/

section Removal

variable (s : Stamp) {ns' : List (Node V)} {leaf : Option (Leaf V)} {edges edges' : List (Node V)}

/-- Some leaf goes through the parent of a node and not through the edge to the node, unless the
parent stands at the end of `path` itself. -/
def Accompanied (path r : Key) (m : Node V) (ls : List (Leaf V)) : Prop :=
  r = path ∨ ∃ l ∈ ls, m.Beside r l

/-- What stands below a child stands where it did if what is left of the child keeps it there. -/
theorem spot_replace {n' : Option (Node V)} (h : WfEdges path (n :: ns))
    (hm : (r, m) ∈ spotsOf path (n :: ns)) (hother : ¬ (r = path ∧ m = n))
    (hbeside : Accompanied path r m (leavesOf (n'.toList ++ ns)))
    (hin : (r, m) ∈ n.spots (path ++ n.chunk) → (∃ l ∈ leavesOf n'.toList, m.Beside r l) →
      (r, m) ∈ spotsOf path n'.toList) : (r, m) ∈ spotsOf path (n'.toList ++ ns) := by
  have hn : n.Stands path := h.stands List.mem_cons_self
  simp only [WfEdges] at h
  rcases hn.exists_label with ⟨b, chunk, hc, hlabel, _⟩
  rw [mem_spotsOf_append]
  rcases mem_spotsOf_cons.1 hm with heq | hm | hm
  · exact absurd heq hother
  · left
    rcases (stands_of_spot n hn.wf hm).1 with ⟨tail, rfl⟩
    refine hin hm ?_
    rcases hbeside with heq | ⟨l, hl, hb⟩
    · simp [hc] at heq
    · -- the company is below the child as well
      rw [leavesOf_append, List.mem_append] at hl
      rcases hl with hl | hl
      · exact ⟨l, hl, hb⟩
      · rcases hb.1 with ⟨rest, hk⟩
        have hkey : l.key = path ++ b :: (chunk ++ tail ++ rest) := by simp [← hk, hc]
        have hne : ∀ x ∈ ns, x.label? ≠ some b := fun x hx => (h.2.2.2.1 x hx).label_ne hlabel
        exact absurd hl (not_mem_leavesOf_of_label h.2.2.2.2 hne hkey)
  · exact .inr hm

/-- What stands at a child that stays, or below it, stands where it did. -/
theorem spot_tail (h : WfEdges path (n :: ns)) (hm : (r, m) ∈ spotsOf path (n :: ns))
    (hbeside : Accompanied path r m (leavesOf (n :: ns')))
    (hin : (r, m) ∈ spotsOf path ns → Accompanied path r m (leavesOf ns') →
      (r, m) ∈ spotsOf path ns') : (r, m) ∈ spotsOf path (n :: ns') := by
  have hn : n.Stands path := h.stands List.mem_cons_self
  simp only [WfEdges] at h
  rw [mem_spotsOf_cons] at hm ⊢
  refine hm.imp_right (.imp_right fun hm => hin hm ?_)
  rcases exists_label_of_spotOf h.2.2.2.2 hm with hr | ⟨x, hx, b, rest, hxb, rfl⟩
  · exact .inl hr
  · refine hbeside.imp_right ?_
    rintro ⟨l, hl, hb⟩
    refine ⟨l, ?_, hb⟩
    rw [leavesOf, List.mem_append] at hl
    -- the company goes through a later sibling
    rcases hl with hl | hl
    · rcases hb.1 with ⟨tail, hk⟩
      have hkey : l.key = path ++ b :: (rest ++ tail) := by simp [← hk]
      have hne : n.label? ≠ some b := fun hnb => (h.2.2.2.1 x hx).label_ne hnb hxb
      exact absurd hl (not_mem_leaves_of_label hn.wf hn.chunk_ne_nil hne hkey)
    · exact hl

/-- Company for the edge to a node below siblings is not the leaf of their parent, unless this is
the parent of the node too. -/
theorem accompanied_of_leaf (hleaf : ∀ l ∈ leaf, l.key = path) (hpath : path <+: r)
    (hacc : Accompanied path r m (leaf.toList ++ leavesOf edges')) :
    Accompanied path r m (leavesOf edges') := by
  rcases hacc with hr | ⟨l, hl, hb⟩
  · exact .inl hr
  · rcases List.mem_append.1 hl with hl | hl
    · have hkey := hb.1
      rw [hleaf l (by simpa using hl)] at hkey
      exact .inl (hkey.eq_of_length_le hpath.length_le)
    · exact .inr ⟨l, hl, hb⟩

/-- A node stands where it did when what is left of its parent, or of a node above, is settled: only
a child without company moves up. -/
theorem spot_settle {depth : Nat} {chunk : Key} (hleaf : ∀ l ∈ leaf, l.key = path ++ chunk)
    (h : WfEdges (path ++ chunk) edges) (h' : WfEdges (path ++ chunk) edges')
    (hm : (r, m) ∈ spotsOf (path ++ chunk) edges)
    (hbeside : ∃ l ∈ leavesOf (settle s depth chunk leaf edges').1.toList, m.Beside r l)
    (hin : Accompanied (path ++ chunk) r m (leavesOf edges') →
      (r, m) ∈ spotsOf (path ++ chunk) edges') :
    (r, m) ∈ spotsOf path (settle s depth chunk leaf edges').1.toList := by
  rw [leavesOf_settle] at hbeside
  have hpath := (stands_of_spotOf edges h hm).1
  have hm' := hin (accompanied_of_leaf hleaf hpath (.inr hbeside))
  unfold settle
  split
  · exact absurd hm' not_mem_spotsOf_nil
  · rename_i x
    rw [mem_spotsOf_cons] at hm'
    rcases hm' with ⟨rfl, rfl⟩ | hm' | hm'
    · -- the only child has no company
      rcases hbeside with ⟨l, hl, hb⟩
      have hl : l ∈ m.leaves := by simpa [leavesOf] using hl
      exact absurd ((h'.stands List.mem_cons_self).edge_isPrefix_key hl) hb.2
    · refine mem_spotsOf_cons.2 (.inr (.inl ?_))
      rw [spots_eq] at hm' ⊢
      rwa [List.append_assoc] at hm'
    · exact absurd hm' not_mem_spotsOf_nil
  · exact mem_spotsOf_cons.2 (.inr (.inl hm'))

mutual

/-- The removal of a key leaves a node where it stands if the key does not go through the edge, and
some other key keeps the edge company. -/
theorem spot_erase {path : Key} : ∀ (n : Node V) (depth : Nat) (search : Key)
    (e : Option (Node V) × List Channel), n.Wf (path ++ n.chunk) →
      n.erase s depth search = some e → (r, m) ∈ n.spots (path ++ n.chunk) →
      ¬ m.edge r <+: path ++ n.chunk ++ search → (∃ l ∈ leavesOf e.1.toList, m.Beside r l) →
      (r, m) ∈ spotsOf path e.1.toList
  | mk chunk channel leaf edges, depth, search, e, h, he, hm, hout, hbeside => by
    rw [wf_iff] at h
    rcases erase_cases he with ⟨l, rfl, hl, rfl⟩ | ⟨b, rest, e', rfl, hin, rfl⟩
    · exact spot_settle s (by simp) h.2 h.2 hm hbeside fun _ => hm
    · have hw := (wfEdges_eraseIn s edges depth b rest e' h.2 hin).1
      refine spot_settle s h.1 h.2 hw hm hbeside fun hacc => ?_
      exact spot_eraseIn edges depth b rest e' h.2 hin hm hout hacc

theorem spot_eraseIn {path : Key} : ∀ (ns : List (Node V)) (depth : Nat) (b : UInt8) (rest : Key)
    (e : List (Node V) × List Channel), WfEdges path ns →
      eraseIn s depth ns (b :: rest) = some e → (r, m) ∈ spotsOf path ns →
      ¬ m.edge r <+: path ++ b :: rest → Accompanied path r m (leavesOf e.1) →
      (r, m) ∈ spotsOf path e.1
  | [], _, _, _, _, _, _, hm, _, _ => nomatch hm
  | n :: ns, depth, b, rest, e, h, he, hm, hout, hacc => by
    have hn : n.Stands path := h.stands List.mem_cons_self
    rcases eraseIn_cons_cases he with ⟨tail, e', hlabel, ha, hin, rfl⟩ | ⟨e', _, hin, rfl⟩
    · have hsearch := Key.after?_eq_some_iff.1 ha
      refine spot_replace h hm ?_ hacc fun hm hbeside => ?_
      · rintro ⟨rfl, rfl⟩
        refine hout ?_
        simp [edge, hlabel]
      · rw [hsearch, ← List.append_assoc] at hout
        exact spot_erase n (depth + 1) tail e' hn.wf hin hm hout hbeside
    · refine spot_tail h hm hacc fun hm hacc => ?_
      simp only [WfEdges] at h
      exact spot_eraseIn ns depth b rest e' h.2.2.2.2 hin hm hout hacc

end

mutual

/-- The removal of a stem leaves a node where it stands if no key with the stem goes through the
edge, and some other key keeps the edge company. -/
theorem spot_eraseStem {path : Key} : ∀ (n : Node V) (depth : Nat) (stem : Key)
    (e : Option (Node V) × List Channel), n.Wf (path ++ n.chunk) →
      n.eraseStem s depth stem = some e → (r, m) ∈ n.spots (path ++ n.chunk) →
      ¬ m.edge r <+: path ++ n.chunk ++ stem → ¬ path ++ n.chunk ++ stem <+: m.edge r →
      (∃ l ∈ leavesOf e.1.toList, m.Beside r l) → (r, m) ∈ spotsOf path e.1.toList
  | mk chunk channel leaf edges, depth, stem, e, h, he, hm, hout, hin, hbeside => by
    rcases eraseStem_cases he with ⟨rfl, rfl⟩ | ⟨b, rest, e', rfl, hedges, rfl⟩
    · simp [leavesOf] at hbeside
    · rw [wf_iff] at h
      have hw := (wfEdges_eraseStemIn s edges depth b rest e' h.2 hedges).1
      refine spot_settle s h.1 h.2 hw hm hbeside fun hacc => ?_
      exact spot_eraseStemIn edges depth b rest e' h.2 hedges hm hout hin hacc

theorem spot_eraseStemIn {path : Key} : ∀ (ns : List (Node V)) (depth : Nat) (b : UInt8)
    (rest : Key) (e : List (Node V) × List Channel), WfEdges path ns →
      eraseStemIn s depth ns (b :: rest) = some e → (r, m) ∈ spotsOf path ns →
      ¬ m.edge r <+: path ++ b :: rest → ¬ path ++ b :: rest <+: m.edge r →
      Accompanied path r m (leavesOf e.1) → (r, m) ∈ spotsOf path e.1
  | [], _, _, _, _, _, _, hm, _, _, _ => nomatch hm
  | n :: ns, depth, b, rest, e, h, he, hm, hout, hin, hacc => by
    have hn : n.Stands path := h.stands List.mem_cons_self
    have hother (hlabel : n.label? = (b :: rest).head?) : ¬ (r = path ∧ m = n) := by
      rintro ⟨rfl, rfl⟩
      refine hout ?_
      simp [edge, hlabel]
    rcases eraseStemIn_cons_cases he with
      ⟨hlabel, hs, rfl⟩ | ⟨tail, e', hlabel, ha, hchild, rfl⟩ | ⟨e', _, htail, rfl⟩
    · -- whatever stands below the child has the stem
      rcases mem_spotsOf_cons.1 hm with heq | hm | hm
      · exact absurd heq (hother hlabel)
      · have hpath := (stands_of_spot n hn.wf hm).1.trans (isPrefix_edge r m)
        have hstem := (List.prefix_append_right_inj path).2 (Key.startsWith_iff.1 hs)
        exact absurd (hstem.trans hpath) hin
      · exact hm
    · have hsearch := Key.after?_eq_some_iff.1 ha
      refine spot_replace h hm (hother hlabel) hacc fun hm hbeside => ?_
      rw [hsearch, ← List.append_assoc] at hout hin
      exact spot_eraseStem n (depth + 1) tail e' hn.wf hchild hm hout hin hbeside
    · refine spot_tail h hm hacc fun hm hacc => ?_
      simp only [WfEdges] at h
      exact spot_eraseStemIn ns depth b rest e' h.2.2.2.2 htail hm hout hin hacc

end

/-! ### From the root -/

/-- Like `spot_erase` from the root, which stays even if it has one child. So its children need no
company. -/
theorem spot_erase_root {root : Node V} {search : Key} {e : Option (Node V) × List Channel}
    (hchunk : root.chunk = []) (h : root.Wf []) (he : root.erase s 0 search = some e)
    (hm : (r, m) ∈ root.spots []) (hout : ¬ m.edge r <+: search)
    (hacc : Accompanied [] r m (leavesOf e.1.toList)) :
    ∃ n, e.1 = some n ∧ (r, m) ∈ n.spots [] := by
  rcases root with ⟨chunk, channel, leaf, edges⟩
  obtain rfl : chunk = [] := hchunk
  rw [wf_iff] at h
  rcases erase_cases he with ⟨l, rfl, hl, rfl⟩ | ⟨b, rest, e', rfl, hin, rfl⟩
  · rw [settle_root]
    exact ⟨_, rfl, hm⟩
  · rw [leavesOf_settle] at hacc
    have hpath := (stands_of_spotOf edges h.2 hm).1
    have hacc' : Accompanied [] r m (leavesOf e'.1) := accompanied_of_leaf h.1 hpath hacc
    rw [settle_root]
    exact ⟨_, rfl, spot_eraseIn s edges 0 b rest e' h.2 hin hm hout hacc'⟩

/-- Like `spot_eraseStem` from the root. -/
theorem spot_eraseStem_root {root : Node V} {stem : Key} {e : Option (Node V) × List Channel}
    (hchunk : root.chunk = []) (h : root.Wf []) (he : root.eraseStem s 0 stem = some e)
    (hm : (r, m) ∈ root.spots []) (hout : ¬ m.edge r <+: stem) (hin : ¬ stem <+: m.edge r)
    (hacc : Accompanied [] r m (leavesOf e.1.toList)) :
    ∃ n, e.1 = some n ∧ (r, m) ∈ n.spots [] := by
  rcases root with ⟨chunk, channel, leaf, edges⟩
  obtain rfl : chunk = [] := hchunk
  rw [wf_iff] at h
  have hpath := (stands_of_spotOf edges h.2 hm).1
  rcases eraseStem_cases he with ⟨rfl, rfl⟩ | ⟨b, rest, e', rfl, hedges, rfl⟩
  · exact absurd List.nil_prefix hin
  · rw [leavesOf_settle] at hacc
    have hacc' : Accompanied [] r m (leavesOf e'.1) := accompanied_of_leaf h.1 hpath hacc
    rw [settle_root]
    exact ⟨_, rfl, spot_eraseStemIn s edges 0 b rest e' h.2 hedges hm hout hin hacc'⟩

end Removal

/-! ## Seeking -/

mutual

/-- A seek finds the node it starts from, or the node on whose edge the stem ends. -/
theorem spot_of_seek {path : Key} : ∀ (n : Node V) (stem : Key), n.Wf path →
    (n.seek stem).2 = some m → (n.seek stem).1 = m.channel ∧ ((stem = [] ∧ m = n) ∨
      ∃ r, (r, m) ∈ n.spots path ∧ m.edge r <+: path ++ stem ∧ path ++ stem <+: r ++ m.chunk)
  | mk _ _ _ _, [], _, hm => by
    obtain rfl := Option.some.inj hm
    exact ⟨rfl, .inl ⟨rfl, rfl⟩⟩
  | mk _ channel _ edges, b :: rest, h, hm =>
    (spot_of_seekIn channel edges b rest (wf_iff.1 h).2 hm).imp_right .inr

theorem spot_of_seekIn {path : Key} (channel : Channel) : ∀ (ns : List (Node V)) (b : UInt8)
    (rest : Key), WfEdges path ns → (seekIn channel ns (b :: rest)).2 = some m →
      (seekIn channel ns (b :: rest)).1 = m.channel ∧
        ∃ r, (r, m) ∈ spotsOf path ns ∧ m.edge r <+: path ++ b :: rest ∧
          path ++ b :: rest <+: r ++ m.chunk
  | [], _, _, _, hm => nomatch hm
  | n :: ns, b, rest, h, hm => by
    have hn : n.Stands path := h.stands List.mem_cons_self
    simp only [WfEdges] at h
    rw [seekIn] at hm ⊢
    have hself (hlabel : n.label? = (b :: rest).head?) (hstem : b :: rest <+: n.chunk) :
        ∃ r, (r, n) ∈ spotsOf path (n :: ns) ∧ n.edge r <+: path ++ b :: rest ∧
          path ++ b :: rest <+: r ++ n.chunk := by
      refine ⟨path, mem_spotsOf_cons.2 (.inl ⟨rfl, rfl⟩), ?_, ?_⟩
      · simp [edge, hlabel]
      · exact (List.prefix_append_right_inj path).2 hstem
    split at hm
    · rename_i hlabel
      rw [if_pos hlabel]
      cases ha : n.chunk.after? (b :: rest) with
      | some tail =>
        have hsearch := Key.after?_eq_some_iff.1 ha
        simp only [ha] at hm ⊢
        rcases spot_of_seek n tail hn.wf hm with ⟨hchannel, ⟨rfl, rfl⟩ | ⟨r, hr, hedge, hend⟩⟩
        · rw [List.append_nil] at hsearch
          exact ⟨hchannel, hself hlabel (hsearch ▸ List.prefix_rfl)⟩
        · rw [List.append_assoc, ← hsearch] at hedge hend
          exact ⟨hchannel, r, mem_spotsOf_cons.2 (.inr (.inl hr)), hedge, hend⟩
      | none =>
        simp only [ha] at hm ⊢
        split at hm
        · rename_i hs
          obtain rfl := Option.some.inj hm
          rw [if_pos hs]
          exact ⟨rfl, hself hlabel (Key.startsWith_iff.1 hs)⟩
        · cases hm
    · rename_i hlabel
      rw [if_neg hlabel]
      rcases spot_of_seekIn channel ns b rest h.2.2.2.2 hm with ⟨hchannel, r, hr, hedge, hend⟩
      exact ⟨hchannel, r, mem_spotsOf_cons.2 (.inr (.inr hr)), hedge, hend⟩

end

end Node

end SnapStore
