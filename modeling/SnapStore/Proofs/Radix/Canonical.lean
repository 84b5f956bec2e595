import SnapStore.Proofs.Radix.Refinement
import SnapStore.Proofs.Radix.Spots

/-! # The shape of a tree

The shape of a tree is the tree without its channels: the chunks of key on the edges, the order
of the children, and the places of the entries. No part of it is left to the edits that built the
tree. The entries under a node say by themselves whether one of them ends there, by which bytes
they part, and how far each part goes on together; so two well-formed trees with the same entries
have the same shape, and differ in their channels only.

Main statements: `shape_eq` (from the entries to the shape), `entries_shape` (and back),
`eq_of_shape` (a shape with channels is a node) and `Tree.Wf.shape_eq_iff`; for drafts,
`shape_eq_iff_contents`.
-/

namespace SnapStore

universe u

variable {V : Type u}

/-- A node without its channels, and without those below it. -/
inductive Shape (V : Type u) where
  | mk (chunk : Key) (entry : Option (Key × V)) (children : List (Shape V))

namespace Shape

mutual

/-- The entries of a shape, in ascending order of their keys. -/
def entries : Shape V → List (Key × V)
  | mk _ entry children => entry.toList ++ entriesOf children

/-- The entries of several shapes, one after another. -/
def entriesOf : List (Shape V) → List (Key × V)
  | [] => []
  | s :: ss => s.entries ++ entriesOf ss

end

end Shape

namespace Node

mutual

/-- What is left of a node without the channels. -/
def shape : Node V → Shape V
  | mk chunk _ leaf edges => .mk chunk (leaf.map Leaf.entry) (shapesOf edges)

/-- The shapes of several nodes. -/
def shapesOf : List (Node V) → List (Shape V)
  | [] => []
  | n :: ns => n.shape :: shapesOf ns

end

/-- What the leaves of a node hold. -/
def entries (n : Node V) : List (Key × V) :=
  n.leaves.map Leaf.entry

/-- What the leaves of several nodes hold. -/
def entriesOf (ns : List (Node V)) : List (Key × V) :=
  (leavesOf ns).map Leaf.entry

theorem entries_mk (chunk : Key) (channel : Channel) (leaf : Option (Leaf V))
    (edges : List (Node V)) : (mk chunk channel leaf edges).entries =
      (leaf.map Leaf.entry).toList ++ entriesOf edges := by
  cases leaf <;> simp [entries, entriesOf, leaves]

@[simp] theorem entriesOf_cons (n : Node V) (ns : List (Node V)) :
    entriesOf (n :: ns) = n.entries ++ entriesOf ns :=
  List.map_append

mutual

/-- A shape has the entries of its node. -/
theorem entries_shape : ∀ n : Node V, n.shape.entries = n.entries
  | mk _ _ _ edges => by
    rw [shape, Shape.entries, entriesOf_shapesOf edges, entries_mk]

theorem entriesOf_shapesOf : ∀ ns : List (Node V), Shape.entriesOf (shapesOf ns) = entriesOf ns
  | [] => rfl
  | n :: ns => by
    rw [shapesOf, Shape.entriesOf, entries_shape n, entriesOf_shapesOf ns, entriesOf_cons]

end

/-! ## A shape and its channels -/

/-- An entry and its channel make a leaf. -/
theorem leaf_eq_of_entry {leaf leaf' : Option (Leaf V)} {cs cs' : List Channel}
    (hentry : leaf.map Leaf.entry = leaf'.map Leaf.entry)
    (hcs : leaf.toList.map Leaf.channel ++ cs = leaf'.toList.map Leaf.channel ++ cs') :
    leaf = leaf' ∧ cs = cs' := by
  -- both are there or neither is, since the entries are the same
  rcases leaf with _ | ⟨k, v, c⟩
  · rcases leaf' with _ | _
    · exact ⟨rfl, by simpa using hcs⟩
    · simp at hentry
  · rcases leaf' with _ | ⟨k', v', c'⟩
    · simp at hentry
    · simp only [Option.map_some, Option.some.injEq, Leaf.entry, Prod.mk.injEq] at hentry
      simp only [Option.toList_some, List.map_cons, List.map_nil, List.singleton_append,
        List.cons.injEq] at hcs
      obtain ⟨rfl, rfl⟩ := hentry
      obtain ⟨rfl, rfl⟩ := hcs
      exact ⟨rfl, rfl⟩

mutual

/-- A node is its shape with its channels. Below, the channels of the node come before others. -/
theorem eq_of_shape {cs cs' : List Channel} : ∀ m n : Node V, m.shape = n.shape →
    m.channels ++ cs = n.channels ++ cs' → m = n ∧ cs = cs'
  | mk chunk channel leaf edges, mk chunk' channel' leaf' edges', hshape, hcs => by
    simp only [shape, Shape.mk.injEq] at hshape
    simp only [channels, List.cons_append, List.append_assoc, List.cons.injEq] at hcs
    obtain ⟨rfl, hentry, hshapes⟩ := hshape
    obtain ⟨rfl, hcs⟩ := hcs
    obtain ⟨rfl, hbelow⟩ := leaf_eq_of_entry hentry hcs
    obtain ⟨rfl, hrest⟩ := eq_of_shapesOf edges edges' hshapes hbelow
    exact ⟨rfl, hrest⟩

theorem eq_of_shapesOf {cs cs' : List Channel} : ∀ ms ns : List (Node V),
    shapesOf ms = shapesOf ns → channelsOf ms ++ cs = channelsOf ns ++ cs' → ms = ns ∧ cs = cs'
  | [], [], _, hcs => ⟨rfl, hcs⟩
  | [], _ :: _, hshapes, _ => nomatch hshapes
  | _ :: _, [], hshapes, _ => nomatch hshapes
  | m :: ms, n :: ns, hshapes, hcs => by
    simp only [shapesOf, List.cons.injEq] at hshapes
    simp only [channelsOf, List.append_assoc] at hcs
    obtain ⟨rfl, hnext⟩ := eq_of_shape m n hshapes.1 hcs
    obtain ⟨rfl, hrest⟩ := eq_of_shapesOf ms ns hshapes.2 hnext
    exact ⟨rfl, hrest⟩

end

/-! ## From the entries to the shape -/

variable {path : Key} {m n : Node V} {ms ns : List (Node V)}

theorem map_key_eq (h : m.entries = n.entries) : m.leaves.map Leaf.key = n.leaves.map Leaf.key := by
  have hkeys := congrArg (List.map Prod.fst) h
  simpa [entries, Leaf.entry, Function.comp_def] using hkeys

/-- Below a path, no entry has the path itself as its key. -/
theorem filter_entriesOf (h : WfEdges path ns) :
    (entriesOf ns).filter (·.1 != path) = entriesOf ns := by
  rw [entriesOf, List.filter_map]
  exact congrArg (List.map Leaf.entry) (filter_ne_path h)

theorem filter_entry {leaf : Option (Leaf V)} (h : ∀ l ∈ leaf, l.key = path) :
    (leaf.map Leaf.entry).toList.filter (·.1 != path) = [] := by
  rcases leaf with _ | l
  · rfl
  · simp [Leaf.entry, h l rfl]

/-- The entry at the end of a path is told from those below by its key. -/
theorem entry_and_entriesOf {leaf leaf' : Option (Leaf V)} (hm : WfEdges path ms)
    (hn : WfEdges path ns) (hleaf : ∀ l ∈ leaf, l.key = path) (hleaf' : ∀ l ∈ leaf', l.key = path)
    (h : (leaf.map Leaf.entry).toList ++ entriesOf ms =
      (leaf'.map Leaf.entry).toList ++ entriesOf ns) :
    leaf.map Leaf.entry = leaf'.map Leaf.entry ∧ entriesOf ms = entriesOf ns := by
  -- without the entry whose key is the path, the rest stays on both sides
  have hbelow := congrArg (List.filter (·.1 != path)) h
  rw [List.filter_append, List.filter_append, filter_entry hleaf, filter_entry hleaf',
    filter_entriesOf hm, filter_entriesOf hn, List.nil_append, List.nil_append] at hbelow
  rw [hbelow, List.append_cancel_right_eq] at h
  have hhead := congrArg List.head? h
  rw [Option.head?_toList, Option.head?_toList] at hhead
  exact ⟨hhead, hbelow⟩

theorem Stands.entries_ne_nil (h : n.Stands path) : n.entries ≠ [] := by
  rw [entries, ne_eq, List.map_eq_nil_iff]
  exact leaves_ne_nil n h.wf h.full

theorem entriesOf_ne_nil (h : WfEdges path (n :: ns)) : entriesOf (n :: ns) ≠ [] := by
  simp [(h.stands List.mem_cons_self).entries_ne_nil]

theorem Stands.edge_isPrefix_entry (h : n.Stands path) {e : Key × V} (he : e ∈ n.entries) :
    n.edge path <+: e.1 := by
  rcases List.mem_map.1 he with ⟨l, hl, rfl⟩
  exact h.edge_isPrefix_key hl

/-- The first of the entries below a path says which edge comes first. -/
theorem edge_eq_of_entriesOf (hm : m.Stands path) (hn : n.Stands path)
    (h : entriesOf (m :: ms) = entriesOf (n :: ns)) : m.edge path = n.edge path := by
  rcases List.exists_cons_of_ne_nil hm.entries_ne_nil with ⟨e, es, he⟩
  rcases List.exists_cons_of_ne_nil hn.entries_ne_nil with ⟨e', es', he'⟩
  rw [entriesOf_cons, entriesOf_cons, he, he'] at h
  obtain rfl : e = e' := (List.cons.inj h).1
  have hme : m.edge path <+: e.1 := hm.edge_isPrefix_entry (he ▸ List.mem_cons_self)
  have hne : n.edge path <+: e.1 := hn.edge_isPrefix_entry (he' ▸ List.mem_cons_self)
  rcases hm.exists_label with ⟨a, _, _, _, ha⟩
  rcases hn.exists_label with ⟨b, _, _, _, hb⟩
  -- of the same key, both edges are the front that is one byte longer than the path
  have hlen : (m.edge path).length = (n.edge path).length := by simp [ha, hb]
  exact (List.prefix_of_prefix_length_le hme hne (Nat.le_of_eq hlen)).eq_of_length hlen

/-- Of the entries below a path, those through the first edge are those of its node. -/
theorem filter_entriesOf_edge (h : WfEdges path (n :: ns)) :
    (entriesOf (n :: ns)).filter (·.1.startsWith (n.edge path)) = n.entries := by
  rw [entriesOf, List.filter_map]
  exact congrArg (List.map Leaf.entry) (filter_spotOf _ h (mem_spotsOf_cons.2 (.inl ⟨rfl, rfl⟩)))

/-- Children with the same entries have the same entries one by one. -/
theorem entries_eq_of_entriesOf (hm : WfEdges path (m :: ms)) (hn : WfEdges path (n :: ns))
    (h : entriesOf (m :: ms) = entriesOf (n :: ns)) :
    m.entries = n.entries ∧ entriesOf ms = entriesOf ns := by
  have hedge : m.edge path = n.edge path :=
    edge_eq_of_entriesOf (hm.stands List.mem_cons_self) (hn.stands List.mem_cons_self) h
  have hfirst : m.entries = n.entries := by
    rw [← filter_entriesOf_edge hm, ← filter_entriesOf_edge hn, h, hedge]
  refine ⟨hfirst, ?_⟩
  rw [entriesOf_cons, entriesOf_cons, hfirst] at h
  exact List.append_cancel_left h

mutual

/-- Nodes on edges with the same chunk have the same shape if they have the same entries. -/
theorem shape_eq {path : Key} : ∀ m n : Node V, m.chunk = n.chunk → m.Wf path → n.Wf path →
    m.entries = n.entries → m.shape = n.shape
  | mk chunk _ leaf edges, mk chunk' _ leaf' edges', hchunk, hm, hn, h => by
    rw [wf_iff, leaf_mk, edges_mk] at hm hn
    rw [entries_mk, entries_mk] at h
    obtain ⟨hentry, hbelow⟩ := entry_and_entriesOf hm.2 hn.2 hm.1 hn.1 h
    obtain rfl : chunk = chunk' := hchunk
    rw [shape, shape, hentry, shapesOf_eq edges edges' hm.2 hn.2 hbelow]

theorem shapesOf_eq {path : Key} : ∀ ms ns : List (Node V), WfEdges path ms → WfEdges path ns →
    entriesOf ms = entriesOf ns → shapesOf ms = shapesOf ns
  | [], [], _, _, _ => rfl
  | [], _ :: _, _, hn, h => absurd h.symm (entriesOf_ne_nil hn)
  | _ :: _, [], hm, _, h => absurd h (entriesOf_ne_nil hm)
  | m :: ms, n :: ns, hm, hn, h => by
    have hmf : m.Stands path := hm.stands List.mem_cons_self
    have hnf : n.Stands path := hn.stands List.mem_cons_self
    obtain ⟨hfirst, hrest⟩ := entries_eq_of_entriesOf hm hn h
    -- the first node goes on as far as its keys go together
    have hpath : path ++ m.chunk = path ++ n.chunk :=
      path_eq_of_keys hmf.wf hmf.full hnf.wf hnf.full (map_key_eq hfirst)
    have hhead : m.shape = n.shape :=
      shape_eq m n (List.append_cancel_left hpath) hmf.wf (hpath ▸ hnf.wf) hfirst
    simp only [WfEdges] at hm hn
    rw [shapesOf, shapesOf, hhead, shapesOf_eq ms ns hm.2.2.2.2 hn.2.2.2.2 hrest]

end

end Node

/-! ## Trees -/

namespace Tree

variable {t t' : Tree V}

/-- What is left of a tree without the channels. -/
def shape (t : Tree V) : Shape V :=
  t.root.shape

theorem entries_shape (t : Tree V) : t.shape.entries = t.entries :=
  t.root.entries_shape

/-- A tree is its size and its shape with its channels. -/
theorem eq_of_shape (hshape : t.shape = t'.shape) (hsize : t.size = t'.size)
    (hchannels : t.channels = t'.channels) : t = t' := by
  have hcs : t.root.channels ++ [] = t'.root.channels ++ [] := congrArg (· ++ []) hchannels
  have hroot : t.root = t'.root := (Node.eq_of_shape t.root t'.root hshape hcs).1
  rcases t with ⟨root, size⟩
  rcases t' with ⟨root', size'⟩
  obtain rfl : root = root' := hroot
  obtain rfl : size = size' := hsize
  rfl

/-- Well-formed trees have the same shape just if they have the same values. -/
theorem Wf.shape_eq_iff (h : t.Wf) (h' : t'.Wf) :
    t.shape = t'.shape ↔ ∀ key, t.get? key = t'.get? key := by
  constructor
  · intro hshape key
    rw [← h.find?_entries, ← h'.find?_entries, ← t.entries_shape, ← t'.entries_shape, hshape]
  · intro hget
    have hentries : t.entries = t'.entries := by
      refine h.ascends_entries.ext h'.ascends_entries fun key => ?_
      rw [h.find?_entries, h'.find?_entries, hget key]
    exact Node.shape_eq t.root t'.root (h.chunk.trans h'.chunk.symm) h.root h'.root hentries

end Tree

/-! ## Histories -/

namespace Draft

variable {d d' : Draft V} {m m' : Catalog Key V}

/-- Keys that were not there come, and all of them go in the draft `d'`, which may be a later one:
the shape is what it was. -/
theorem shape_of_come_and_go (h : d.tree.Wf) {added : List (Key × V)} {keys : List Key}
    (hnew : ∀ key ∈ keys, d.tree.get? key = none) (hadded : ∀ e ∈ added, e.1 ∈ keys)
    (hd' : d'.tree = (d.applyAll (added.map fun e => .insert e.1 e.2)).tree) :
    (d'.applyAll (keys.map .erase)).tree.shape = d.tree.shape := by
  have hw' : d'.tree.Wf := hd' ▸ wf_applyAll h _
  refine ((wf_applyAll hw' _).shape_eq_iff h).2 fun key => ?_
  rw [get?_applyAll_erase hw']
  split
  · rename_i hkey
    exact (hnew key hkey).symm
  · rename_i hkey
    rw [hd']
    refine get?_applyAll_insert_of_notMem h added fun hmem => ?_
    rcases List.mem_map.1 hmem with ⟨e, he, rfl⟩
    exact hkey (hadded e he)

/-- The shape of a tree depends on its contents only. Any edits over any number of drafts that end
with the same values at all keys lead to trees with the same chunks on the edges, the same order of
the children and the same entries at the same places; such trees have one size, and are the same
but for their channels. Trees with other contents have another shape. In particular, where keys
that were not there are inserted and removed again, in one draft or the removals in the next one,
the shape is what it was. -/
theorem shape_eq_iff_contents (h : d.Arises m) (h' : d'.Arises m') :
    (d.tree.shape = d'.tree.shape ↔ ∀ key, m.find? key = m'.find? key) ∧
      (d.tree.shape = d'.tree.shape → d.tree.size = d'.tree.size ∧
        (d.tree.channels = d'.tree.channels → d.tree = d'.tree)) ∧
      ∀ (added : List (Key × V)) (keys : List Key), (∀ key ∈ keys, m.find? key = none) →
        (∀ e ∈ added, e.1 ∈ keys) →
        let grown := d.applyAll (added.map fun e => .insert e.1 e.2)
        (grown.applyAll (keys.map .erase)).tree.shape = d.tree.shape ∧
          ∀ (board : Board) (stamp : Stamp),
            (((grown.commit board).1.edit stamp).applyAll (keys.map .erase)).tree.shape =
              d.tree.shape := by
  refine ⟨?_, ?_, ?_⟩
  · rw [h.wf.shape_eq_iff h'.wf]
    simp only [h.get?_eq, h'.get?_eq]
  · intro hshape
    have hsize : d.tree.size = d'.tree.size := by
      rw [← h.wf.length_entries, ← h'.wf.length_entries, ← d.tree.entries_shape,
        ← d'.tree.entries_shape, hshape]
    exact ⟨hsize, Tree.eq_of_shape hshape hsize⟩
  · intro added keys hnew hadded grown
    have habsent : ∀ key ∈ keys, d.tree.get? key = none := fun key hkey =>
      (h.get?_eq key).trans (hnew key hkey)
    refine ⟨shape_of_come_and_go h.wf habsent hadded rfl, fun board stamp => ?_⟩
    exact shape_of_come_and_go h.wf habsent hadded rfl

/-- Two histories of the same two entries. In one of them an edge is split and joined again as a
stem is removed, and a second draft brings the other entry; in the other one a longer key and one
that ends inside the edge come and go. -/
theorem shape_eq_iff_contents_bytes :
    let first : Draft Nat := ((Tree.empty ⟨⟨0, 0, 0⟩, 0, .node⟩).edit ⟨1, 0, 0⟩).applyAll
      [.insert [7, 1] 1, .insert [7, 2, 5] 2, .insert [7, 2, 6] 3, .insert [9] 4, .eraseStem [7, 2]]
    let d := ((first.commit {}).1.edit ⟨2, 0, 0⟩).applyAll [.erase [9], .insert [7, 3] 5]
    let d' : Draft Nat := ((Tree.empty ⟨⟨3, 0, 0⟩, 0, .node⟩).edit ⟨4, 0, 0⟩).applyAll
      [.insert [7, 3] 5, .insert [7] 0, .insert [7, 1, 1] 8, .insert [7, 1] 1,
        .eraseStem [7, 1, 1], .erase [7]]
    let m : Catalog Key Nat := [([7, 1], 1), ([7, 3], 5)]
    d.Arises m ∧ d'.Arises m ∧
      d.tree.shape = .mk [] none [.mk [7] none
        [.mk [1] (some ([7, 1], 1)) [], .mk [3] (some ([7, 3], 5)) []]] ∧
      d.tree.shape = d'.tree.shape ∧ d.tree.channels ≠ d'.tree.channels ∧
      (((d.applyAll [.insert [7] 6, .insert [7, 3, 0] 7]).applyAll
        [.erase [7], .erase [7, 3, 0]]).tree.shape = d.tree.shape) := by
  intro first d d' m
  have hfirst : first.Arises [([7, 1], 1), ([9], 4)] := (Arises.empty _ _).applyAll _
  have h : d.Arises m := (hfirst.reopen {} _).applyAll _
  have h' : d'.Arises m := (Arises.empty _ _).applyAll _
  rcases shape_eq_iff_contents h h' with ⟨hshape, _, hrestored⟩
  refine ⟨h, h', rfl, hshape.2 fun _ => rfl, by decide, ?_⟩
  exact (hrestored [([7], 6), ([7, 3, 0], 7)] [[7], [7, 3, 0]] (by decide) (by decide)).1

end Draft

end SnapStore
