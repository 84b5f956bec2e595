import SnapStore.Proofs.Radix.Refinement
import SnapStore.Proofs.Radix.Splice

/-! # The invariant behind all walks

What a radix tree relies on is told here node by node, with the path that leads to each node, and
without the recursion by which well-formedness is defined; the two say the same. Every tree that
edits lead to has this invariant. It is all that walks and edits by position need: none of them
takes a byte of an empty chunk, goes beyond the end of a list, takes more off a size than there
is, or goes on forever.

Main statements: `radix_iff_wf` (the invariant is well-formedness) and `radix_and_faultless` (it
holds of all trees that edits lead to, and nothing there can fail).
-/

namespace SnapStore

universe u

variable {V : Type u}

/-! ## Node by node -/

/-- The nodes of a tree, each with the path of its parent. -/
def Tree.nodes (t : Tree V) : List (Key × Node V) :=
  ([], t.root) :: t.root.spots t.root.chunk

/-- The invariant of a radix tree. -/
structure Tree.Radix (t : Tree V) : Prop where
  /-- Nothing leads to the root. -/
  root_chunk : t.root.chunk = []
  chunk_ne_nil : ∀ path n, (path, n) ∈ t.root.spots t.root.chunk → n.chunk ≠ []
  /-- The children of a node ascend strictly by the first bytes of their chunks. -/
  ascending : ∀ path n, (path, n) ∈ t.nodes → n.edges.Pairwise Node.Before
  /-- Every node below the root has a leaf or at least two children. -/
  full : ∀ path n, (path, n) ∈ t.root.spots t.root.chunk → n.Full
  /-- The key of a leaf is what leads to it. -/
  key : ∀ path n, (path, n) ∈ t.nodes → ∀ l ∈ n.leaf, l.key = path ++ n.chunk
  size : t.size = t.leaves.length

namespace Node

/-- What the invariant says of a node below the root, with the path of its parent. -/
def Fits (path : Key) (n : Node V) : Prop :=
  n.chunk ≠ [] ∧ n.Full ∧ n.edges.Pairwise Before ∧ ∀ l ∈ n.leaf, l.key = path ++ n.chunk

mutual

/-- A node is well-formed if what is seen at it, and at the nodes below, is in order. -/
theorem wf_of_spots {path : Key} : ∀ n : Node V, (∀ l ∈ n.leaf, l.key = path) →
    n.edges.Pairwise Before → (∀ r m, (r, m) ∈ n.spots path → m.Fits r) → n.Wf path
  | mk _ _ _ edges, hkey, hedges, hspots => ⟨hkey, wfEdges_of_spots edges hedges hspots⟩

theorem wfEdges_of_spots {path : Key} : ∀ ns : List (Node V), ns.Pairwise Before →
    (∀ r m, (r, m) ∈ spotsOf path ns → m.Fits r) → WfEdges path ns
  | [], _, _ => trivial
  | n :: ns, hpairs, hspots => by
    rw [List.pairwise_cons] at hpairs
    obtain ⟨hbefore, hpairs⟩ := hpairs
    obtain ⟨hchunk, hfull, hedges, hkey⟩ := hspots path n (mem_spotsOf_cons.2 (.inl ⟨rfl, rfl⟩))
    have hn : n.Wf (path ++ n.chunk) := wf_of_spots n hkey hedges fun r m hm =>
      hspots r m (mem_spotsOf_cons.2 (.inr (.inl hm)))
    have hns : WfEdges path ns := wfEdges_of_spots ns hpairs fun r m hm =>
      hspots r m (mem_spotsOf_cons.2 (.inr (.inr hm)))
    exact ⟨hchunk, hfull, hn, hbefore, hns⟩

end

/-- Whatever stands in a well-formed tree is in order by itself. -/
theorem Stands.fits {path : Key} {n : Node V} (h : n.Stands path) : n.Fits path :=
  ⟨h.chunk_ne_nil, h.full, (wf_iff.1 h.wf).2.pairwise_before, (wf_iff.1 h.wf).1⟩

end Node

/-- The invariant told node by node is well-formedness, which is told by recursion. -/
theorem Tree.radix_iff_wf {t : Tree V} : t.Radix ↔ t.Wf := by
  constructor
  · intro h
    refine ⟨h.root_chunk, ?_, h.size⟩
    have hroot : ([], t.root) ∈ t.nodes := List.mem_cons_self
    refine Node.wf_of_spots t.root ?_ (h.ascending _ _ hroot) ?_
    · intro l hl
      have hkey := h.key _ _ hroot l hl
      rwa [h.root_chunk] at hkey
    · intro path n hn
      have hspot : (path, n) ∈ t.root.spots t.root.chunk := by rwa [h.root_chunk]
      have hnode : (path, n) ∈ t.nodes := List.mem_cons_of_mem _ hspot
      exact ⟨h.chunk_ne_nil _ _ hspot, h.full _ _ hspot, h.ascending _ _ hnode, h.key _ _ hnode⟩
  · intro h
    have hspot : ∀ path n, (path, n) ∈ t.root.spots t.root.chunk → n.Fits path := by
      intro path n hn
      rw [h.chunk] at hn
      exact (Node.stands_of_spot t.root h.root hn).2.fits
    have hroot := Node.wf_iff.1 h.root
    have hnode : ∀ path n, (path, n) ∈ t.nodes →
        n.edges.Pairwise Node.Before ∧ ∀ l ∈ n.leaf, l.key = path ++ n.chunk := by
      intro path n hn
      rcases List.mem_cons.1 hn with heq | hn
      · obtain ⟨rfl, rfl⟩ := Prod.mk.inj heq
        refine ⟨hroot.2.pairwise_before, ?_⟩
        rw [h.chunk]
        exact hroot.1
      · exact (hspot path n hn).2.2
    exact ⟨h.chunk, fun path n hn => (hspot path n hn).1, fun path n hn => (hnode path n hn).1,
      fun path n hn => (hspot path n hn).2.1, fun path n hn => (hnode path n hn).2, h.size⟩

/-! ## All trees -/

namespace Draft

open Checked

/-- With so many turns, and so many nested calls, everything that is done by position for a key
ends without a fault. The walks answer as the readers of the tree do, and the edits come to what
the edits of the draft come to. -/
structure Faultless (d : Draft V) (key : Key) (turns : Nat) : Prop where
  get : loop (descend Reader.watch Prod.snd) turns (d.tree.root, key) =
    .ok (d.tree.root.find? key)
  watch : loop (descend Reader.watch id) turns (d.tree.root, key) = .ok (d.tree.root.watch key)
  seek : loop (descend Reader.seek id) turns (d.tree.root, key) = .ok (d.tree.root.seek key)
  atLeast : loop goAtLeast turns ⟨d.tree.root, key, []⟩ = .ok (d.tree.root.framesAtLeast key [])
  atMost : loop goAtMost turns ⟨d.tree.root, key, []⟩ = .ok (d.tree.root.framesAtMost key [])
  insert : ∀ value, insertInto turns d key value =
    .ok ((d.insert key value).1.tree, (d.insert key value).2)
  erase : eraseFrom turns d key = .ok ((d.erase key).1.tree, (d.erase key).2)
  eraseStem : eraseStemFrom turns d key = .ok ((d.eraseStem key).1.tree, (d.eraseStem key).2)

/-- The invariant keeps every walk and every edit from failing. -/
theorem faultless {d : Draft V} (h : d.tree.Radix) {key : Key} {turns : Nat}
    (hlt : min d.tree.root.height key.length < turns) : d.Faultless key turns := by
  have hwf := Tree.radix_iff_wf.1 h
  have hbound : min d.tree.root.height (key.length - d.tree.root.chunk.length) < turns := by omega
  constructor
  · rw [loop_descend Reader.watch Prod.snd hwf.root hlt, find?_eq_descend]
  · rw [loop_descend Reader.watch id hwf.root hlt, Reader.descend_watch, id]
  · rw [loop_descend Reader.seek id hwf.root hlt, Reader.descend_seek, id]
  · exact loop_goAtLeast hwf.root hbound
  · exact loop_goAtMost hwf.root hbound
  · exact insertInto_eq hwf hlt
  · exact eraseFrom_eq hwf hlt
  · exact eraseStemFrom_eq hwf hlt

/-- In every draft that edits lead to, and in every version that it commits, nothing leads to the
root and something to every other node, the children of a node ascend by their first bytes, a node
below the root has a leaf or two children, the key of a leaf is what leads to it, and the size is
the number of leaves. So nothing that is done by position fails: every walk ends, within as many
turns as the tree is high or the key is long, and one more, and so does every edit. -/
theorem radix_and_faultless {d : Draft V} {m : Catalog Key V} (h : d.Arises m) :
    d.tree.Radix ∧ (∀ board, (d.commit board).1.Radix) ∧
      (∀ key turns, min d.tree.root.height key.length < turns → d.Faultless key turns) ∧
      ∀ turns, d.tree.root.height < turns →
        loop goFirst turns d.tree.root = .ok d.tree.first? ∧
        loop goLast turns d.tree.root = .ok d.tree.last? := by
  have hradix : d.tree.Radix := Tree.radix_iff_wf.2 h.wf
  refine ⟨hradix, fun _ => hradix, fun key turns hlt => faultless hradix hlt, ?_⟩
  intro turns hlt
  exact ⟨loop_goFirst hlt, loop_goLast hlt⟩

/-- Edges are split and joined again, and the last stem takes two of the entries. -/
theorem radix_and_faultless_bytes :
    let d : Draft Nat := ((Tree.empty ⟨⟨0, 0, 0⟩, 0, .node⟩).edit ⟨1, 0, 0⟩).applyAll
      [.insert [1, 2, 3] 0, .insert [1, 2, 4] 1, .insert [1, 2, 4, 5] 2, .insert [1, 7] 3,
        .insert [] 4, .erase [1, 7], .eraseStem [1, 2, 4]]
    let m : Catalog Key Nat := [([], 4), ([1, 2, 3], 0)]
    d.Arises m ∧ d.tree.Radix ∧ d.tree.root.height = 1 ∧ d.Faultless [1, 2, 3, 4] 2 ∧
      (loop goFirst 2 d.tree.root).map (·.map Leaf.entry) = .ok (some ([], 4)) ∧
      (loop goLast 2 d.tree.root).map (·.map Leaf.entry) = .ok (some ([1, 2, 3], 0)) := by
  intro d m
  have harises : d.Arises m := (Arises.empty _ _).applyAll _
  have hheight : d.tree.root.height = 1 := by decide
  obtain ⟨hradix, _, hfaultless, hends⟩ := radix_and_faultless harises
  obtain ⟨hfirst, hlast⟩ := hends 2 (by omega)
  refine ⟨harises, hradix, hheight, hfaultless _ 2 (by omega), ?_, ?_⟩
  · rw [hfirst]
    rfl
  · rw [hlast]
    rfl

end Draft

end SnapStore
