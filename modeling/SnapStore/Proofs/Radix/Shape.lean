import SnapStore.Radix.Node

/-! # The shape of a radix tree

A node is well-formed below a path if its leaf and all leaves under it carry the key
that the chunks on the way spell, siblings ascend by their labels, and every node below
it has a leaf or at least two children. All readers of a node are then told by its
leaves: `find?_eq_some_iff` (a look-up finds the leaf with the key), `pairwise_leaves`
(the leaves ascend strictly) and `found_seek` (a seek finds the leaves with the stem).
-/

namespace SnapStore

universe u

variable {V : Type u}

namespace Node

/-- The label of `m` is smaller than that of `n`. -/
def Before (m n : Node V) : Prop :=
  ∀ a ∈ m.label?, ∀ b ∈ n.label?, a < b

/-- The node has a leaf or at least two children. -/
def Full (n : Node V) : Prop :=
  n.leaf.isSome = true ∨ 2 ≤ n.edges.length

mutual

/-- The node is well-formed at the end of `path`, its own chunk included. -/
def Wf (path : Key) : Node V → Prop
  | mk _ _ leaf edges => (∀ l ∈ leaf, l.key = path) ∧ WfEdges path edges

/-- The nodes are well-formed children of a node at the end of `path`. -/
def WfEdges (path : Key) : List (Node V) → Prop
  | [] => True
  | n :: ns =>
    n.chunk ≠ [] ∧ n.Full ∧ n.Wf (path ++ n.chunk) ∧ (∀ m ∈ ns, n.Before m) ∧ WfEdges path ns

end

/-! ## Keys below a path -/

mutual

theorem isPrefix_of_mem_leaves {path : Key} {l : Leaf V} :
    ∀ n : Node V, n.Wf path → l ∈ n.leaves → path <+: l.key
  | mk _ _ leaf edges, h, hl => by
    simp only [Wf] at h
    simp only [leaves, List.mem_append, Option.mem_toList] at hl
    rcases hl with hl | hl
    · exact h.1 l hl ▸ List.prefix_rfl
    · rcases exists_isPrefix_of_mem_leavesOf edges h.2 hl with ⟨n, _, hn⟩
      exact (List.prefix_append path n.chunk).trans hn

/-- A leaf under some siblings continues the path by the chunk of one of them. -/
theorem exists_isPrefix_of_mem_leavesOf {path : Key} {l : Leaf V} :
    ∀ ns : List (Node V), WfEdges path ns → l ∈ leavesOf ns →
      ∃ n ∈ ns, path ++ n.chunk <+: l.key
  | [], _, hl => by simp [leavesOf] at hl
  | n :: ns, h, hl => by
    simp only [WfEdges] at h
    simp only [leavesOf, List.mem_append] at hl
    rcases hl with hl | hl
    · exact ⟨n, List.mem_cons_self, isPrefix_of_mem_leaves n h.2.2.1 hl⟩
    · rcases exists_isPrefix_of_mem_leavesOf ns h.2.2.2.2 hl with ⟨m, hm, hp⟩
      exact ⟨m, List.mem_cons_of_mem n hm, hp⟩

end

theorem WfEdges.chunk_ne_nil {path : Key} {ns : List (Node V)} (h : WfEdges path ns) :
    ∀ n ∈ ns, n.chunk ≠ [] := by
  induction ns with
  | nil => simp
  | cons n ns ih =>
    simp only [WfEdges] at h
    intro m hm
    rcases List.mem_cons.1 hm with rfl | hm
    · exact h.1
    · exact ih h.2.2.2.2 m hm

/-- The byte behind the path of a leaf under some siblings is the label of one of them. -/
theorem exists_label_of_mem_leavesOf {path : Key} {l : Leaf V} {ns : List (Node V)}
    (h : WfEdges path ns) (hl : l ∈ leavesOf ns) :
    ∃ n ∈ ns, ∃ b rest, n.label? = some b ∧ l.key = path ++ b :: rest := by
  rcases exists_isPrefix_of_mem_leavesOf ns h hl with ⟨n, hn, tail, ht⟩
  have hne := h.chunk_ne_nil n hn
  rcases List.exists_cons_of_ne_nil hne with ⟨b, chunk, hc⟩
  refine ⟨n, hn, b, chunk ++ tail, by simp [label?, hc], ?_⟩
  rw [← ht, hc]
  simp

/-! ## Ascending keys -/

theorem append_lt_append_of_lt {path : Key} {a b : UInt8} (h : a < b) (r s : Key) :
    path ++ a :: r < path ++ b :: s :=
  List.append_left_lt (List.cons_lt_cons_iff.2 (.inl h))

mutual

/-- The leaves of a node ascend strictly by their keys. -/
theorem pairwise_leaves {path : Key} :
    ∀ n : Node V, n.Wf path → n.leaves.Pairwise (·.key < ·.key)
  | mk _ _ leaf edges, h => by
    simp only [Wf] at h
    simp only [leaves, List.pairwise_append]
    refine ⟨?_, pairwise_leavesOf edges h.2, ?_⟩
    · cases leaf <;> simp
    · intro l hl m hm
      rcases exists_label_of_mem_leavesOf h.2 hm with ⟨_, _, b, rest, _, hk⟩
      have hlt : path ++ [] < path ++ b :: rest := List.append_left_lt (List.nil_lt_cons b rest)
      rw [List.append_nil] at hlt
      rwa [h.1 l (by simpa using hl), hk]

theorem pairwise_leavesOf {path : Key} :
    ∀ ns : List (Node V), WfEdges path ns → (leavesOf ns).Pairwise (·.key < ·.key)
  | [], _ => by simp [leavesOf]
  | n :: ns, h => by
    simp only [WfEdges] at h
    rcases h with ⟨hc, _, hn, hb, hns⟩
    simp only [leavesOf, List.pairwise_append]
    refine ⟨pairwise_leaves n hn, pairwise_leavesOf ns hns, ?_⟩
    intro l hl m hm
    -- the two keys part at the labels of different siblings
    rcases isPrefix_of_mem_leaves n hn hl with ⟨tail, ht⟩
    rcases List.exists_cons_of_ne_nil hc with ⟨a, chunk, hc⟩
    rcases exists_label_of_mem_leavesOf hns hm with ⟨x, hx, b, rest, hxb, hk⟩
    have hab : a < b := hb x hx a (by simp [label?, hc]) b hxb
    rw [hk, ← ht, hc]
    simpa using append_lt_append_of_lt hab (chunk ++ tail) rest

end

/-! ## Looking one key up -/

theorem Before.label_ne {m n : Node V} {b : UInt8} (h : m.Before n) (hm : m.label? = some b) :
    n.label? ≠ some b := by
  intro hn
  exact UInt8.lt_irrefl b (h b hm b hn)

/-- No leaf under siblings goes on with a label that none of them has. -/
theorem not_mem_leavesOf_of_label {path rest : Key} {ns : List (Node V)} {b : UInt8} {l : Leaf V}
    (hns : WfEdges path ns) (hb : ∀ m ∈ ns, m.label? ≠ some b) (hk : l.key = path ++ b :: rest) :
    l ∉ leavesOf ns := by
  intro hl
  rcases exists_label_of_mem_leavesOf hns hl with ⟨x, hx, c, tail, hxc, hk'⟩
  have heq : path ++ b :: rest = path ++ c :: tail := hk.symm.trans hk'
  simp only [List.append_cancel_left_eq, List.cons.injEq] at heq
  exact hb x hx (heq.1 ▸ hxc)

/-- The leaves under a child continue the path by the label of the child. -/
theorem not_mem_leaves_of_label {path rest : Key} {n : Node V} {b : UInt8} {l : Leaf V}
    (hn : n.Wf (path ++ n.chunk)) (hc : n.chunk ≠ []) (hb : n.label? ≠ some b)
    (hk : l.key = path ++ b :: rest) : l ∉ n.leaves := by
  intro hl
  rcases isPrefix_of_mem_leaves n hn hl with ⟨tail, ht⟩
  rcases List.exists_cons_of_ne_nil hc with ⟨a, chunk, hc⟩
  rw [hk, hc] at ht
  simp only [List.append_assoc, List.append_cancel_left_eq, List.cons_append,
    List.cons.injEq] at ht
  exact hb (by simp [label?, hc, ht.1])

mutual

/-- A look-up finds the leaf whose key is the path with the search behind it. -/
theorem find?_eq_some_iff {path : Key} {l : Leaf V} :
    ∀ (n : Node V) (search : Key), n.Wf path →
      (n.find? search = some l ↔ l ∈ n.leaves ∧ l.key = path ++ search)
  | mk _ _ leaf edges, [], h => by
    simp only [Wf] at h
    simp only [find?, leaves, List.mem_append, Option.mem_toList, List.append_nil]
    constructor
    · intro hl
      exact ⟨.inl hl, h.1 l hl⟩
    · rintro ⟨hl | hl, hk⟩
      · exact hl
      · rcases exists_label_of_mem_leavesOf h.2 hl with ⟨_, _, b, rest, _, hk'⟩
        simp [hk] at hk'
  | mk _ _ leaf edges, b :: rest, h => by
    simp only [Wf] at h
    simp only [find?, leaves, List.mem_append, Option.mem_toList]
    rw [findIn?_eq_some_iff edges b rest h.2]
    constructor
    · rintro ⟨hl, hk⟩
      exact ⟨.inr hl, hk⟩
    · rintro ⟨hl | hl, hk⟩
      · have := (h.1 l hl).symm.trans hk
        simp at this
      · exact ⟨hl, hk⟩

theorem findIn?_eq_some_iff {path : Key} {l : Leaf V} :
    ∀ (ns : List (Node V)) (b : UInt8) (rest : Key), WfEdges path ns →
      (findIn? ns (b :: rest) = some l ↔ l ∈ leavesOf ns ∧ l.key = path ++ b :: rest)
  | [], _, _, _ => by simp [findIn?, leavesOf]
  | n :: ns, b, rest, h => by
    simp only [WfEdges] at h
    rcases h with ⟨hc, _, hn, hb, hns⟩
    simp only [findIn?, leavesOf, List.mem_append]
    by_cases hlabel : n.label? = (b :: rest).head?
    · rw [if_pos hlabel]
      have hrest (hk : l.key = path ++ b :: rest) : l ∉ leavesOf ns :=
        not_mem_leavesOf_of_label hns (fun m hm => (hb m hm).label_ne hlabel) hk
      cases ha : n.chunk.after? (b :: rest) with
      | none =>
        -- the search leaves the edge, and with it every leaf under the child
        simp only [reduceCtorEq, false_iff, not_and]
        rintro (hl | hl) hk
        · rcases isPrefix_of_mem_leaves n hn hl with ⟨tail, ht⟩
          rw [hk, List.append_assoc, List.append_cancel_left_eq] at ht
          rw [Key.after?_eq_some_iff.2 ht.symm] at ha
          simp at ha
        · exact hrest hk hl
      | some tail =>
        have hs := Key.after?_eq_some_iff.1 ha
        simp only [find?_eq_some_iff n tail hn, hs, List.append_assoc]
        constructor
        · rintro ⟨hl, hk⟩
          exact ⟨.inl hl, hk⟩
        · rintro ⟨hl | hl, hk⟩
          · exact ⟨hl, hk⟩
          · exact absurd hl (hrest (hs ▸ hk))
    · rw [if_neg hlabel, findIn?_eq_some_iff ns b rest hns]
      constructor
      · rintro ⟨hl, hk⟩
        exact ⟨.inr hl, hk⟩
      · rintro ⟨hl | hl, hk⟩
        · exact absurd hl (not_mem_leaves_of_label hn hc hlabel hk)
        · exact ⟨hl, hk⟩

end

theorem find?_eq_none_iff {path search : Key} {n : Node V} (h : n.Wf path) :
    n.find? search = none ↔ ∀ l ∈ n.leaves, l.key ≠ path ++ search := by
  rw [Option.eq_none_iff_forall_ne_some]
  constructor
  · intro hf l hl hk
    exact hf l ((find?_eq_some_iff n search h).2 ⟨hl, hk⟩)
  · intro hf l hl
    rcases (find?_eq_some_iff n search h).1 hl with ⟨hl, hk⟩
    exact hf l hl hk

/-! ## Leaves with other keys -/

/-- Keys of leaves that go on with another label differ from a key below the path. -/
theorem filter_ne_eq_self {key : Key} {ls : List (Leaf V)} (h : ∀ l, l.key = key → l ∉ ls) :
    ls.filter (·.key != key) = ls := by
  rw [List.filter_eq_self]
  intro l hl
  rw [bne_iff_ne]
  exact fun hk => h l hk hl

/-- Siblings without the label of a key below the path do not hold the key. -/
theorem filter_ne_leavesOf {path rest : Key} {ns : List (Node V)} {b : UInt8}
    (hns : WfEdges path ns) (hb : ∀ m ∈ ns, m.label? ≠ some b) :
    (leavesOf ns).filter (·.key != path ++ b :: rest) = leavesOf ns :=
  filter_ne_eq_self fun _ hk => not_mem_leavesOf_of_label hns hb hk

/-- A child without the label of a key below the path does not hold the key. -/
theorem filter_ne_leaves {path rest : Key} {n : Node V} {b : UInt8}
    (hn : n.Wf (path ++ n.chunk)) (hc : n.chunk ≠ []) (hb : n.label? ≠ some b) :
    n.leaves.filter (·.key != path ++ b :: rest) = n.leaves :=
  filter_ne_eq_self fun _ hk => not_mem_leaves_of_label hn hc hb hk

/-- A child whose chunk is not a stem of the search does not hold its key. -/
theorem filter_ne_leaves_of_parted {path search : Key} {n : Node V}
    (hn : n.Wf (path ++ n.chunk)) (hs : ¬ n.chunk <+: search) :
    n.leaves.filter (·.key != path ++ search) = n.leaves := by
  refine filter_ne_eq_self fun l hk hl => hs ?_
  have hp := isPrefix_of_mem_leaves n hn hl
  rwa [hk, List.prefix_append_right_inj] at hp

/-- A leaf at the end of the path has another key than one that goes on. -/
theorem filter_ne_leaf {path rest : Key} {b : UInt8} {leaf : Option (Leaf V)}
    (h : ∀ l ∈ leaf, l.key = path) :
    leaf.toList.filter (·.key != path ++ b :: rest) = leaf.toList := by
  refine filter_ne_eq_self fun l hk hl => ?_
  rw [h l (by simpa using hl)] at hk
  simp at hk

/-- Below a path, no leaf has the path itself as its key. -/
theorem filter_ne_path {path : Key} {ns : List (Node V)} (hns : WfEdges path ns) :
    (leavesOf ns).filter (·.key != path) = leavesOf ns := by
  refine filter_ne_eq_self fun l hk hl => ?_
  rcases exists_label_of_mem_leavesOf hns hl with ⟨_, _, b, rest, _, hk'⟩
  simp [hk] at hk'

/-! ## Seeking a stem -/

/-- No leaf under siblings has a stem that goes on with a label that none of them has. -/
theorem filter_leavesOf_of_label {path rest : Key} {ns : List (Node V)} {b : UInt8}
    (hns : WfEdges path ns) (hb : ∀ m ∈ ns, m.label? ≠ some b) :
    (leavesOf ns).filter (·.key.startsWith (path ++ b :: rest)) = [] := by
  rw [List.filter_eq_nil_iff]
  intro l hl hs
  rcases Key.startsWith_iff.1 hs with ⟨tail, ht⟩
  have hk : l.key = path ++ b :: (rest ++ tail) := by simp [← ht]
  exact not_mem_leavesOf_of_label hns hb hk hl

/-- No leaf under a child has a stem that goes on with another label. -/
theorem filter_leaves_of_label {path rest : Key} {n : Node V} {b : UInt8}
    (hn : n.Wf (path ++ n.chunk)) (hc : n.chunk ≠ []) (hb : n.label? ≠ some b) :
    n.leaves.filter (·.key.startsWith (path ++ b :: rest)) = [] := by
  rw [List.filter_eq_nil_iff]
  intro l hl hs
  rcases Key.startsWith_iff.1 hs with ⟨tail, ht⟩
  have hk : l.key = path ++ b :: (rest ++ tail) := by simp [← ht]
  exact not_mem_leaves_of_label hn hc hb hk hl

/-- All leaves under a child whose chunk goes on behind a stem have the stem. -/
theorem filter_leaves_of_isPrefix {path stem : Key} {n : Node V} (hn : n.Wf (path ++ n.chunk))
    (hs : stem <+: n.chunk) : n.leaves.filter (·.key.startsWith (path ++ stem)) = n.leaves := by
  rw [List.filter_eq_self]
  intro l hl
  rw [Key.startsWith_iff]
  exact ((List.prefix_append_right_inj path).2 hs).trans (isPrefix_of_mem_leaves n hn hl)

/-- No leaf under a child whose chunk parts from a stem has the stem. -/
theorem filter_leaves_of_parted {path stem : Key} {n : Node V} (hn : n.Wf (path ++ n.chunk))
    (ha : n.chunk.after? stem = none) (hs : ¬ stem <+: n.chunk) :
    n.leaves.filter (·.key.startsWith (path ++ stem)) = [] := by
  rw [List.filter_eq_nil_iff]
  intro l hl hk
  have hchunk := isPrefix_of_mem_leaves n hn hl
  rcases List.prefix_or_prefix_of_prefix hchunk (Key.startsWith_iff.1 hk) with h | h
  · rcases (List.prefix_append_right_inj path).1 h with ⟨rest, hr⟩
    rw [Key.after?_eq_some_iff.2 hr.symm] at ha
    simp at ha
  · exact hs ((List.prefix_append_right_inj path).1 h)

/-- A leaf at the end of the path has no stem that goes on. -/
theorem filter_leaf_of_path {path rest : Key} {b : UInt8} {leaf : Option (Leaf V)}
    (h : ∀ l ∈ leaf, l.key = path) :
    leaf.toList.filter (·.key.startsWith (path ++ b :: rest)) = [] := by
  rw [List.filter_eq_nil_iff]
  intro l hl hs
  have hle := (Key.startsWith_iff.1 hs).length_le
  rw [h l (by simpa using hl), List.length_append, List.length_cons] at hle
  omega

/-- The leaves of the subtree that a seek found, if it found one. -/
def found (answer : Channel × Option (Node V)) : List (Leaf V) :=
  answer.2.elim [] leaves

mutual

/-- A seek finds the leaves whose keys start with the path and the stem behind it. -/
theorem found_seek {path : Key} :
    ∀ (n : Node V) (stem : Key), n.Wf path →
      found (n.seek stem) = n.leaves.filter (·.key.startsWith (path ++ stem))
  | mk chunk channel leaf edges, [], h => by
    simp only [seek, found, Option.elim_some, List.append_nil]
    rw [eq_comm, List.filter_eq_self]
    intro l hl
    exact Key.startsWith_iff.2 (isPrefix_of_mem_leaves _ h hl)
  | mk _ channel leaf edges, b :: rest, h => by
    simp only [Wf] at h
    simp only [seek, leaves, List.filter_append]
    rw [found_seekIn channel edges b rest h.2]
    rw [filter_leaf_of_path h.1, List.nil_append]

theorem found_seekIn {path : Key} (channel : Channel) :
    ∀ (ns : List (Node V)) (b : UInt8) (rest : Key), WfEdges path ns →
      found (seekIn channel ns (b :: rest)) =
        (leavesOf ns).filter (·.key.startsWith (path ++ b :: rest))
  | [], _, _, _ => by simp [seekIn, found, leavesOf]
  | n :: ns, b, rest, h => by
    simp only [WfEdges] at h
    rcases h with ⟨hc, _, hn, hb, hns⟩
    simp only [seekIn, leavesOf, List.filter_append]
    by_cases hlabel : n.label? = (b :: rest).head?
    · rw [if_pos hlabel, filter_leavesOf_of_label hns fun m hm => (hb m hm).label_ne hlabel,
        List.append_nil]
      cases ha : n.chunk.after? (b :: rest) with
      | some tail =>
        have hs := Key.after?_eq_some_iff.1 ha
        rw [hs, ← List.append_assoc]
        exact found_seek n tail hn
      | none =>
        by_cases hs : n.chunk.startsWith (b :: rest) = true
        · rw [filter_leaves_of_isPrefix hn (Key.startsWith_iff.1 hs)]
          simp [hs, found]
        · rw [filter_leaves_of_parted hn ha (fun h => hs (Key.startsWith_iff.2 h))]
          simp [hs, found]
    · rw [if_neg hlabel, filter_leaves_of_label hn hc hlabel, List.nil_append]
      exact found_seekIn channel ns b rest hns

end

/-! ## Descending -/

mutual

theorem leavesDown_eq : ∀ n : Node V, n.leavesDown = n.leaves.reverse
  | mk _ _ leaf edges => by
    rw [leavesDown, leaves, leavesDownOf_eq edges, List.reverse_append]
    cases leaf <;> simp

theorem leavesDownOf_eq : ∀ ns : List (Node V), leavesDownOf ns = (leavesOf ns).reverse
  | [] => by simp [leavesDownOf, leavesOf]
  | n :: ns => by
    rw [leavesDownOf, leavesOf, leavesDown_eq n, leavesDownOf_eq ns, List.reverse_append]

end

end Node

end SnapStore
