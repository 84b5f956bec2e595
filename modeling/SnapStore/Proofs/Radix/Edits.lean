import SnapStore.Radix.Edit
import SnapStore.Proofs.Radix.Shape

/-! # What edits do to the leaves

Each edit keeps the shape of a tree and changes its leaves as an edit of a map would.

Main statements: `wf_insert` and `perm_leaves_insert` (an insertion keeps the shape and
replaces the leaf of its key), `erase_cases` and `eraseStem_cases` (all that a removal can do),
`exists_settle_of_erase` and `exists_settle_of_eraseStem` (a removal takes out the leaves with
the key, or with the stem, and keeps the shape).
-/

namespace SnapStore

universe u

variable {V : Type u}

namespace Node

@[simp] theorem leaf_mk (chunk : Key) (channel : Channel) (leaf : Option (Leaf V))
    (edges : List (Node V)) : (mk chunk channel leaf edges).leaf = leaf := rfl

@[simp] theorem edges_mk (chunk : Key) (channel : Channel) (leaf : Option (Leaf V))
    (edges : List (Node V)) : (mk chunk channel leaf edges).edges = edges := rfl

@[simp] theorem chunk_mk (chunk : Key) (channel : Channel) (leaf : Option (Leaf V))
    (edges : List (Node V)) : (mk chunk channel leaf edges).chunk = chunk := rfl

theorem leaves_eq (n : Node V) : n.leaves = n.leaf.toList ++ leavesOf n.edges := by
  cases n
  rfl

theorem channel_mem_channels (n : Node V) : n.channel ∈ n.channels := by
  cases n
  exact List.mem_cons_self

theorem wf_iff {path : Key} {n : Node V} :
    n.Wf path ↔ (∀ l ∈ n.leaf, l.key = path) ∧ WfEdges path n.edges := by
  cases n
  simp [Wf]

theorem leavesOf_append (ns ms : List (Node V)) :
    leavesOf (ns ++ ms) = leavesOf ns ++ leavesOf ms := by
  induction ns with
  | nil => rfl
  | cons n ns ih => simp [leavesOf, ih]

/-! ## Building nodes -/

section Building

variable (s : Stamp) (depth : Nat) (key : Key) (value : V)

@[simp] theorem key_newLeaf : (newLeaf s depth key value).key = key := rfl

@[simp] theorem chunk_twig (chunk : Key) : (twig s depth key value chunk).chunk = chunk := rfl

@[simp] theorem leaves_twig (chunk : Key) :
    (twig s depth key value chunk).leaves = [newLeaf s depth key value] := by
  simp [twig, leaves, leavesOf]

theorem full_twig (chunk : Key) : (twig s depth key value chunk).Full := .inl rfl

theorem wf_twig (chunk : Key) : (twig s depth key value chunk).Wf key := by
  simp [twig, Wf, WfEdges]

@[simp] theorem chunk_stub (n : Node V) (chunk : Key) : (n.stub s depth chunk).chunk = chunk := rfl

@[simp] theorem leaves_stub (n : Node V) (chunk : Key) :
    (n.stub s depth chunk).leaves = n.leaves := by
  rw [leaves_eq, leaves_eq n]
  rfl

theorem full_stub {n : Node V} (h : n.Full) (chunk : Key) : (n.stub s depth chunk).Full := h

theorem wf_stub {n : Node V} {path : Key} (h : n.Wf path) (chunk : Key) :
    (n.stub s depth chunk).Wf path := by
  have hn := wf_iff.1 h
  exact wf_iff.2 hn

theorem perm_leavesOf_pair (m n : Node V) : (leavesOf (pair m n)).Perm (m.leaves ++ n.leaves) := by
  have hswap : (leavesOf [n, m]).Perm (m.leaves ++ n.leaves) := by
    simpa [leavesOf] using List.perm_append_comm
  unfold pair
  split
  · split
    · exact hswap
    · simp [leavesOf]
  · simp [leavesOf]

/-- Two well-formed nodes with different labels make well-formed siblings. -/
theorem wfEdges_pair {path : Key} {m n : Node V} {a b : UInt8} (ha : m.label? = some a)
    (hb : n.label? = some b) (hab : a ≠ b) (hm : m.Wf (path ++ m.chunk)) (hmf : m.Full)
    (hn : n.Wf (path ++ n.chunk)) (hnf : n.Full) : WfEdges path (pair m n) := by
  have hmc : m.chunk ≠ [] := by
    intro h
    simp [label?, h] at ha
  have hnc : n.chunk ≠ [] := by
    intro h
    simp [label?, h] at hb
  unfold pair
  rw [ha, hb]
  simp only
  split
  · rename_i hlt
    simp [WfEdges, *, Before]
  · rename_i hle
    have hlt : a < b := by grind
    simp [WfEdges, *, Before]

theorem length_pair (m n : Node V) : (pair m n).length = 2 := by
  unfold pair
  split
  · split <;> rfl
  · rfl

@[simp] theorem chunk_split (n : Node V) (f : Key.Fork) :
    (n.split s depth key value f).chunk = f.shared := by
  unfold split
  split <;> rfl

theorem full_split (n : Node V) (f : Key.Fork) : (n.split s depth key value f).Full := by
  unfold split
  split
  · exact .inl rfl
  · exact .inr (Nat.le_of_eq (length_pair _ _).symm)

theorem perm_leaves_split (n : Node V) (f : Key.Fork) :
    (n.split s depth key value f).leaves.Perm (newLeaf s depth key value :: n.leaves) := by
  unfold split
  split
  · simp [leaves, leavesOf]
  · refine (perm_leavesOf_pair _ _).trans ?_
    rw [leaves_stub, leaves_twig]
    exact List.perm_append_comm

/-- Splitting an edge where the new key leaves it keeps the shape. -/
theorem wf_split {path search : Key} {n : Node V} (hk : key = path ++ search)
    (hn : n.Wf (path ++ n.chunk)) (hf : n.Full) (hleft : (Key.fork n.chunk search).left ≠ []) :
    (n.split s depth key value (Key.fork n.chunk search)).Wf
      (path ++ (Key.fork n.chunk search).shared) := by
  have hchunk := Key.fork_left n.chunk search
  have hsearch := Key.fork_right n.chunk search
  have hparted := Key.fork_parted n.chunk search
  generalize Key.fork n.chunk search = f at *
  rcases f with ⟨shared, left, right⟩
  simp only at hchunk hsearch hparted hleft ⊢
  rcases List.exists_cons_of_ne_nil hleft with ⟨a, left, rfl⟩
  have hstub : (n.stub s depth (a :: left)).Wf ((path ++ shared) ++ a :: left) := by
    refine wf_stub s depth ?_ _
    rwa [List.append_assoc, hchunk]
  cases right with
  | nil =>
    -- the key ends at the fork, and its leaf stands there
    simp only [List.append_nil] at hsearch
    subst hsearch
    simp only [split, Wf, WfEdges]
    refine ⟨by simp [hk], by simp, full_stub s depth hf _, hstub, by simp, trivial⟩
  | cons b right =>
    -- the key goes on beside the rest of the edge
    simp only [split, Wf]
    refine ⟨by simp, ?_⟩
    refine @wfEdges_pair _ _ _ _ a b rfl rfl (hparted a rfl b rfl) hstub
      (full_stub s depth hf _) ?_ (full_twig s depth key value _)
    have hkey : (path ++ shared) ++ b :: right = key := by
      rw [hk, List.append_assoc, hsearch]
    rw [chunk_twig, hkey]
    exact wf_twig s depth key value _

end Building

/-! ## Insertion -/

section Insertion

variable (s : Stamp) (key : Key) (value : V)

@[simp] theorem chunk_insert (depth : Nat) (n : Node V) (search : Key) :
    (n.insert s key value depth search).1.chunk = n.chunk := by
  cases n
  cases search <;> rfl

/-- An insertion below siblings puts a node in the place of one with the same label, or
adds one with the label of the search. -/
theorem label_of_mem_insertIn {path rest : Key} {b : UInt8} {parent : Channel} (depth : Nat)
    {m : Node V} :
    ∀ ns : List (Node V), WfEdges path ns →
      m ∈ (insertIn s key value depth parent ns b (b :: rest)).1 →
        m.label? = some b ∨ ∃ n ∈ ns, m.label? = n.label?
  | [], _, hm => by
    simp only [insertIn, List.mem_singleton] at hm
    subst hm
    exact .inl rfl
  | n :: ns, h, hm => by
    simp only [WfEdges] at h
    rcases h with ⟨hc, _, _, _, hns⟩
    rcases List.exists_cons_of_ne_nil hc with ⟨c, chunk, hc⟩
    have hlabel : n.label? = some c := by simp [label?, hc]
    rw [insertIn, hlabel] at hm
    simp only at hm
    have htail (hm : m ∈ ns) : m.label? = some b ∨ ∃ n' ∈ n :: ns, m.label? = n'.label? :=
      .inr ⟨m, List.mem_cons_of_mem n hm, rfl⟩
    split at hm
    · rename_i hcb
      split at hm
      · -- the key goes into this child
        rcases List.mem_cons.1 hm with rfl | hm
        · exact .inl (by simp [label?, hc, hcb])
        · exact htail hm
      · -- the edge to this child is split
        rename_i f _ _ _ hf
        rcases List.mem_cons.1 hm with rfl | hm
        · left
          rw [label?, chunk_split, ← hf]
          exact Key.head?_fork_shared (by simp [hc, hcb])
        · exact htail hm
    · split at hm
      · -- a new child stands in front of this one
        rcases List.mem_cons.1 hm with rfl | hm
        · exact .inl rfl
        · exact .inr ⟨m, hm, rfl⟩
      · rcases List.mem_cons.1 hm with rfl | hm
        · exact .inr ⟨m, List.mem_cons_self, rfl⟩
        · rcases label_of_mem_insertIn depth ns hns hm with hb | ⟨x, hx, hl⟩
          · exact .inl hb
          · exact .inr ⟨x, List.mem_cons_of_mem n hx, hl⟩

theorem length_le_insertIn (depth : Nat) (parent : Channel) (b : UInt8) (search : Key)
    (ns : List (Node V)) :
    ns.length ≤ (insertIn s key value depth parent ns b search).1.length := by
  induction ns with
  | nil => simp
  | cons n ns ih =>
    rw [insertIn]
    split
    · simpa using ih
    · split
      · split <;> simp
      · split
        · simp
        · simpa using ih

theorem full_insert {n : Node V} (h : n.Full) (depth : Nat) (search : Key) :
    (n.insert s key value depth search).1.Full := by
  rcases n with ⟨chunk, channel, leaf, edges⟩
  cases search with
  | nil => exact .inl rfl
  | cons b rest =>
    rcases h with h | h
    · exact .inl h
    · exact .inr (Nat.le_trans h (length_le_insertIn s key value depth channel b (b :: rest) edges))

mutual

/-- An insertion keeps the shape. -/
theorem wf_insert {path : Key} :
    ∀ (n : Node V) (depth : Nat) (search : Key), n.Wf path → key = path ++ search →
      (n.insert s key value depth search).1.Wf path
  | mk _ _ leaf edges, depth, [], h, hk => by
    simp only [Wf] at h
    simp only [insert, Wf]
    exact ⟨by simp [hk], h.2⟩
  | mk _ _ leaf edges, depth, b :: rest, h, hk => by
    simp only [Wf] at h
    simp only [insert, Wf]
    exact ⟨h.1, wfEdges_insertIn edges depth b rest h.2 hk⟩

theorem wfEdges_insertIn {path : Key} {parent : Channel} :
    ∀ (ns : List (Node V)) (depth : Nat) (b : UInt8) (rest : Key), WfEdges path ns →
      key = path ++ b :: rest → WfEdges path (insertIn s key value depth parent ns b (b :: rest)).1
  | [], depth, b, rest, _, hk => by
    simp only [insertIn, WfEdges, chunk_twig]
    have hw := wf_twig s depth key value
    exact ⟨by simp, full_twig s depth key value _, hk ▸ hw _, by simp, trivial⟩
  | n :: ns, depth, b, rest, h, hk => by
    have hall := h
    simp only [WfEdges] at h
    rcases h with ⟨hc, hf, hn, hb, hns⟩
    rcases List.exists_cons_of_ne_nil hc with ⟨c, chunk, hcc⟩
    have hlabel : n.label? = some c := by simp [label?, hcc]
    rw [insertIn, hlabel]
    simp only
    split
    · rename_i hcb
      have hlabel' : n.label? = some b := hcb ▸ hlabel
      split
      · -- the search goes on below the child
        rename_i tail hfork
        have hsearch : n.chunk ++ tail = b :: rest := Key.append_right_of_fork hfork
        have hkey : key = path ++ n.chunk ++ tail := by rw [hk, List.append_assoc, hsearch]
        simp only [WfEdges, chunk_insert]
        refine ⟨hc, full_insert s key value hf _ _, ?_, ?_, hns⟩
        · exact wf_insert n (depth + 1) tail hn hkey
        · intro m hm x hx y hy
          rw [label?, chunk_insert] at hx
          exact hb m hm x hx y hy
      · -- the search leaves the edge
        rename_i f _ _ _ hfork
        have hleft : (Key.fork n.chunk (b :: rest)).left ≠ [] := by simp [hfork]
        have hhead : (Key.fork n.chunk (b :: rest)).shared.head? = some b :=
          Key.head?_fork_shared hlabel'
        rw [← hfork]
        simp only [WfEdges, chunk_split]
        refine ⟨?_, full_split s depth key value n _, wf_split s depth key value hk hn hf hleft,
          ?_, hns⟩
        · intro hnil
          simp [hnil] at hhead
        · intro m hm x hx y hy
          rw [label?, chunk_split, hhead] at hx
          obtain rfl : b = x := by simpa using hx
          exact hb m hm b hlabel' y hy
    · rename_i hcb
      split
      · -- the new edge stands in front of all from here on
        rename_i hlt
        rw [WfEdges]
        refine ⟨by simp, full_twig s depth key value _, hk ▸ wf_twig s depth key value _, ?_, hall⟩
        intro m hm x hx y hy
        obtain rfl : b = x := by simpa [label?] using hx
        rcases List.mem_cons.1 hm with rfl | hm
        · obtain rfl : c = y := by simpa [hlabel] using hy
          exact hlt
        · exact UInt8.lt_trans hlt (hb m hm c hlabel y hy)
      · -- the key goes behind this child
        rename_i hlt
        simp only [WfEdges]
        refine ⟨hc, hf, hn, ?_, wfEdges_insertIn ns depth b rest hns hk⟩
        intro m hm x hx y hy
        rcases label_of_mem_insertIn s key value depth ns hns hm with hm | ⟨m', hm', hl⟩
        · obtain rfl : c = x := by simpa [hlabel] using hx
          obtain rfl : b = y := by simpa [hm] using hy
          grind
        · exact hb m' hm' x hx y (hl ▸ hy)

end

mutual

/-- An insertion replaces the leaf of its key, or adds one. -/
theorem perm_leaves_insert {path : Key} :
    ∀ (n : Node V) (depth : Nat) (search : Key), n.Wf path → key = path ++ search →
      ∃ d, (n.insert s key value depth search).1.leaves.Perm
        (newLeaf s d key value :: n.leaves.filter (·.key != key))
  | mk _ _ leaf edges, depth, [], h, hk => by
    -- the key ends here, so the leaf of the node is the one to replace
    simp only [Wf] at h
    refine ⟨depth, ?_⟩
    have hleaf : leaf.toList.filter (·.key != key) = [] := by
      rw [List.filter_eq_nil_iff]
      intro l hl
      simp [h.1 l (by simpa using hl), hk]
    rw [List.append_nil] at hk
    subst hk
    simp [insert, leaves, hleaf, filter_ne_path h.2]
  | mk _ _ leaf edges, depth, b :: rest, h, hk => by
    simp only [Wf] at h
    rcases perm_leavesOf_insertIn edges depth b rest h.2 hk with ⟨d, hp⟩
    refine ⟨d, ?_⟩
    simp only [insert, leaves, List.filter_append]
    have hleaf : leaf.toList.filter (·.key != key) = leaf.toList := hk ▸ filter_ne_leaf h.1
    rw [hleaf]
    exact (hp.append_left _).trans List.perm_middle

theorem perm_leavesOf_insertIn {path : Key} {parent : Channel} :
    ∀ (ns : List (Node V)) (depth : Nat) (b : UInt8) (rest : Key), WfEdges path ns →
      key = path ++ b :: rest →
      ∃ d, (leavesOf (insertIn s key value depth parent ns b (b :: rest)).1).Perm
        (newLeaf s d key value :: (leavesOf ns).filter (·.key != key))
  | [], depth, b, rest, _, _ => ⟨depth, by simp [insertIn, leavesOf]⟩
  | n :: ns, depth, b, rest, h, hk => by
    have hall := h
    simp only [WfEdges] at h
    rcases h with ⟨hc, hf, hn, hb, hns⟩
    rcases List.exists_cons_of_ne_nil hc with ⟨c, chunk, hcc⟩
    have hlabel : n.label? = some c := by simp [label?, hcc]
    rw [insertIn, hlabel]
    simp only
    split
    · rename_i hcb
      have hlabel' : n.label? = some b := hcb ▸ hlabel
      have hrest : (leavesOf ns).filter (·.key != key) = leavesOf ns :=
        hk ▸ filter_ne_leavesOf hns fun m hm => (hb m hm).label_ne hlabel'
      split
      · rename_i tail hfork
        have hsearch : n.chunk ++ tail = b :: rest := Key.append_right_of_fork hfork
        have hkey : key = path ++ n.chunk ++ tail := by rw [hk, List.append_assoc, hsearch]
        rcases perm_leaves_insert n (depth + 1) tail hn hkey with ⟨d, hp⟩
        refine ⟨d, ?_⟩
        simp only [leavesOf, List.filter_append, hrest]
        exact hp.append_right _
      · -- no leaf below a split edge has the key
        rename_i f _ _ _ hfork
        have hparted : ¬ n.chunk <+: b :: rest := by
          rw [← Key.fork_left_eq_nil_iff]
          simp [hfork]
        have hself : n.leaves.filter (·.key != key) = n.leaves :=
          hk ▸ filter_ne_leaves_of_parted hn hparted
        refine ⟨depth, ?_⟩
        rw [← hfork]
        simp only [leavesOf, List.filter_append, hrest, hself]
        exact (perm_leaves_split s depth key value n _).append_right _
    · rename_i hcb
      have hself : n.leaves.filter (·.key != key) = n.leaves :=
        hk ▸ filter_ne_leaves hn hc (by simpa [hlabel] using hcb)
      split
      · -- all siblings from here on have larger labels
        rename_i hlt
        refine ⟨depth, ?_⟩
        have hrest : (leavesOf ns).filter (·.key != key) = leavesOf ns := by
          refine hk ▸ filter_ne_leavesOf hns fun m hm hmb => ?_
          exact absurd (hb m hm c hlabel b hmb) (by grind)
        simp [leavesOf, List.filter_append, hrest, hself]
      · rcases perm_leavesOf_insertIn ns depth b rest hns hk with ⟨d, hp⟩
        refine ⟨d, ?_⟩
        simp only [leavesOf, List.filter_append, hself]
        exact (hp.append_left _).trans List.perm_middle

end

end Insertion

/-! ## What a removal leaves of a node -/

section Removal

variable (s : Stamp)

@[simp] theorem leavesOf_settle (depth : Nat) (chunk : Key) (leaf : Option (Leaf V))
    (edges : List (Node V)) :
    leavesOf (settle s depth chunk leaf edges).1.toList = leaf.toList ++ leavesOf edges := by
  unfold settle
  split
  · simp [leavesOf]
  · simp [leavesOf, leaves_eq]
  · simp [leavesOf, leaves]

/-- What is left of a child takes its place among its siblings. -/
structure Replaces (path : Key) (n m : Node V) : Prop where
  chunk_ne_nil : m.chunk ≠ []
  full : m.Full
  wf : m.Wf (path ++ m.chunk)
  label : m.label? = n.label?

theorem wfEdges_replace {path : Key} {n : Node V} {ns : List (Node V)} {n' : Option (Node V)}
    (h : WfEdges path (n :: ns)) (hn : ∀ m ∈ n', Replaces path n m) :
    WfEdges path (n'.toList ++ ns) := by
  simp only [WfEdges] at h
  cases n' with
  | none => simpa using h.2.2.2.2
  | some m =>
    have hm := hn m rfl
    simp only [Option.toList_some, List.singleton_append, WfEdges]
    refine ⟨hm.chunk_ne_nil, hm.full, hm.wf, ?_, h.2.2.2.2⟩
    intro x hx a ha b hb
    exact h.2.2.2.1 x hx a (hm.label ▸ ha) b hb

theorem label_of_mem_replace {path : Key} {n m : Node V} {ns : List (Node V)}
    {n' : Option (Node V)} (hn : ∀ m ∈ n', Replaces path n m) (hm : m ∈ n'.toList ++ ns) :
    ∃ x ∈ n :: ns, m.label? = x.label? := by
  rcases List.mem_append.1 hm with hm | hm
  · exact ⟨n, List.mem_cons_self, (hn m (by simpa using hm)).label⟩
  · exact ⟨m, List.mem_cons_of_mem n hm, rfl⟩

/-- Siblings whose tail lost something are siblings still. -/
theorem wfEdges_replace_tail {path : Key} {n : Node V} {ns ns' : List (Node V)}
    (h : WfEdges path (n :: ns)) (hw : WfEdges path ns')
    (hlab : ∀ m ∈ ns', ∃ x ∈ ns, m.label? = x.label?) :
    WfEdges path (n :: ns') ∧ ∀ m ∈ n :: ns', ∃ x ∈ n :: ns, m.label? = x.label? := by
  simp only [WfEdges] at h ⊢
  refine ⟨⟨h.1, h.2.1, h.2.2.1, ?_, hw⟩, ?_⟩
  · intro m hm x hx y hy
    rcases hlab m hm with ⟨m', hm', heq⟩
    exact h.2.2.2.1 m' hm' x hx y (heq ▸ hy)
  · intro m hm
    rcases List.mem_cons.1 hm with rfl | hm
    · exact ⟨m, List.mem_cons_self, rfl⟩
    · rcases hlab m hm with ⟨m', hm', heq⟩
      exact ⟨m', List.mem_cons_of_mem n hm', heq⟩

/-- Below the root, the copy of a node that lost something replaces the node. -/
theorem replaces_settle {path : Key} {n : Node V} {depth : Nat} {leaf : Option (Leaf V)}
    {edges : List (Node V)} (hc : n.chunk ≠ [])
    (h : (mk n.chunk n.channel leaf edges).Wf (path ++ n.chunk)) :
    ∀ m ∈ (settle s (depth + 1) n.chunk leaf edges).1, Replaces path n m := by
  simp only [Wf] at h
  intro m hm
  unfold settle at hm
  split at hm
  · simp at hm
  · -- the only child moves up
    rename_i x
    simp only [Option.mem_def, Option.some.injEq] at hm
    subst hm
    simp only [WfEdges] at h
    refine ⟨by simp [hc], h.2.2.1, ?_, ?_⟩
    · rw [wf_iff]
      simpa [List.append_assoc] using wf_iff.1 h.2.2.2.1
    · rcases List.exists_cons_of_ne_nil hc with ⟨a, chunk, hc⟩
      simp [label?, hc]
  · -- a leaf or two children are left
    rename_i leaf edges _ _ _ hnil hone
    simp only [Option.mem_def, Option.some.injEq] at hm
    subst hm
    refine ⟨hc, ?_, wf_iff.2 h, rfl⟩
    cases leaf with
    | some l => exact .inl rfl
    | none =>
      cases edges with
      | nil => exact absurd rfl (hnil depth rfl rfl)
      | cons a edges =>
        cases edges with
        | nil => exact absurd rfl (hone depth a rfl rfl)
        | cons b edges => exact .inr (by simp)

theorem settle_root (chunk : Key) (leaf : Option (Leaf V)) (edges : List (Node V)) :
    settle s 0 chunk leaf edges = (some (mk chunk (s.channel 0 .node) leaf edges), []) := rfl

/-! ## What a removal can do -/

section Cases

variable {s : Stamp} {depth : Nat} {n : Node V} {ns : List (Node V)} {search : Key}

/-- A removal takes the leaf of a node, or goes on behind the edges of the node. -/
theorem erase_cases {r : Option (Node V) × List Channel} (h : n.erase s depth search = some r) :
    (∃ leaf, search = [] ∧ n.leaf = some leaf ∧
      r = ((settle s depth n.chunk none n.edges).1,
        [leaf.channel, n.channel] ++ (settle s depth n.chunk none n.edges).2)) ∨
    ∃ b rest e, search = b :: rest ∧ eraseIn s depth n.edges (b :: rest) = some e ∧
      r = ((settle s depth n.chunk n.leaf e.1).1,
        e.2 ++ [n.channel] ++ (settle s depth n.chunk n.leaf e.1).2) := by
  rcases n with ⟨chunk, channel, leaf, edges⟩
  cases search with
  | nil =>
    cases leaf with
    | none => simp [erase] at h
    | some leaf =>
      simp only [erase, Option.some.injEq] at h
      exact .inl ⟨leaf, rfl, rfl, h.symm⟩
  | cons b rest =>
    rw [erase] at h
    cases hin : eraseIn s depth edges (b :: rest) with
    | none => simp [hin] at h
    | some e =>
      simp only [hin, Option.some.injEq] at h
      exact .inr ⟨b, rest, e, rfl, hin, h.symm⟩

/-- Behind edges, a removal goes on below the first child if the child has its label, and behind
the other edges if not. -/
theorem eraseIn_cons_cases {r : List (Node V) × List Channel}
    (h : eraseIn s depth (n :: ns) search = some r) :
    (∃ rest e, n.label? = search.head? ∧ n.chunk.after? search = some rest ∧
      n.erase s (depth + 1) rest = some e ∧ r = (e.1.toList ++ ns, e.2)) ∨
    ∃ e, n.label? ≠ search.head? ∧ eraseIn s depth ns search = some e ∧ r = (n :: e.1, e.2) := by
  rw [eraseIn] at h
  split at h
  · rename_i hlabel
    cases hafter : n.chunk.after? search with
    | none => simp [hafter] at h
    | some rest =>
      simp only [hafter] at h
      cases hin : n.erase s (depth + 1) rest with
      | none => simp [hin] at h
      | some e =>
        simp only [hin, Option.some.injEq] at h
        exact .inl ⟨rest, e, hlabel, rfl, hin, h.symm⟩
  · rename_i hlabel
    cases hin : eraseIn s depth ns search with
    | none => simp [hin] at h
    | some e =>
      simp only [hin, Option.some.injEq] at h
      exact .inr ⟨e, hlabel, rfl, h.symm⟩

/-- The removal of a stem takes the whole node, or goes on behind its edges. -/
theorem eraseStem_cases {r : Option (Node V) × List Channel}
    (h : n.eraseStem s depth search = some r) :
    (search = [] ∧ r = (none, n.channels)) ∨
    ∃ b rest e, search = b :: rest ∧ eraseStemIn s depth n.edges (b :: rest) = some e ∧
      r = ((settle s depth n.chunk n.leaf e.1).1,
        e.2 ++ [n.channel] ++ (settle s depth n.chunk n.leaf e.1).2) := by
  rcases n with ⟨chunk, channel, leaf, edges⟩
  cases search with
  | nil =>
    simp only [eraseStem, Option.some.injEq] at h
    exact .inl ⟨rfl, h.symm⟩
  | cons b rest =>
    rw [eraseStem] at h
    cases hin : eraseStemIn s depth edges (b :: rest) with
    | none => simp [hin] at h
    | some e =>
      simp only [hin, Option.some.injEq] at h
      exact .inr ⟨b, rest, e, rfl, hin, h.symm⟩

/-- Behind edges, the removal of a stem takes the whole first child if the stem ends inside the
edge, goes on below this child if it has the label of the stem, and behind the other edges if
not. -/
theorem eraseStemIn_cons_cases {r : List (Node V) × List Channel}
    (h : eraseStemIn s depth (n :: ns) search = some r) :
    (n.label? = search.head? ∧ n.chunk.startsWith search = true ∧ r = (ns, n.channels)) ∨
    (∃ rest e, n.label? = search.head? ∧ n.chunk.after? search = some rest ∧
      n.eraseStem s (depth + 1) rest = some e ∧ r = (e.1.toList ++ ns, e.2)) ∨
    ∃ e, n.label? ≠ search.head? ∧ eraseStemIn s depth ns search = some e ∧
      r = (n :: e.1, e.2) := by
  rw [eraseStemIn] at h
  split at h
  · rename_i hlabel
    cases hafter : n.chunk.after? search with
    | none =>
      simp only [hafter] at h
      split at h
      · rename_i hs
        exact .inl ⟨hlabel, hs, (Option.some.inj h).symm⟩
      · simp at h
    | some rest =>
      simp only [hafter] at h
      cases hin : n.eraseStem s (depth + 1) rest with
      | none => simp [hin] at h
      | some e =>
        simp only [hin, Option.some.injEq] at h
        exact .inr (.inl ⟨rest, e, hlabel, rfl, hin, h.symm⟩)
  · rename_i hlabel
    cases hin : eraseStemIn s depth ns search with
    | none => simp [hin] at h
    | some e =>
      simp only [hin, Option.some.injEq] at h
      exact .inr (.inr ⟨e, hlabel, rfl, h.symm⟩)

end Cases

/-! ## Removal of a key -/

mutual

theorem erase_eq_none_iff :
    ∀ (n : Node V) (depth : Nat) (search : Key),
      n.erase s depth search = none ↔ n.find? search = none
  | mk _ _ none _, _, [] => by simp [erase, find?]
  | mk _ _ (some leaf) _, _, [] => by simp [erase, find?]
  | mk _ _ leaf edges, depth, b :: rest => by
    rw [erase, find?, ← eraseIn_eq_none_iff edges depth (b :: rest)]
    cases eraseIn s depth edges (b :: rest) <;> simp

theorem eraseIn_eq_none_iff :
    ∀ (ns : List (Node V)) (depth : Nat) (search : Key),
      eraseIn s depth ns search = none ↔ findIn? ns search = none
  | [], _, _ => by simp [eraseIn, findIn?]
  | n :: ns, depth, search => by
    rw [eraseIn, findIn?]
    split
    · cases n.chunk.after? search with
      | none => simp
      | some rest =>
        simp only
        rw [← erase_eq_none_iff n (depth + 1) rest]
        cases n.erase s (depth + 1) rest <;> simp
    · rw [← eraseIn_eq_none_iff ns depth search]
      cases eraseIn s depth ns search <;> simp

end

mutual

/-- A removal settles a node with all leaves but the one with the key. -/
theorem exists_settle_of_erase {path : Key} :
    ∀ (n : Node V) (depth : Nat) (search : Key) (r : Option (Node V) × List Channel), n.Wf path →
      n.erase s depth search = some r →
      ∃ leaf edges, r.1 = (settle s depth n.chunk leaf edges).1 ∧
        (mk n.chunk n.channel leaf edges).Wf path ∧
        leaf.toList ++ leavesOf edges = n.leaves.filter (·.key != path ++ search)
  | mk chunk channel leaf edges, depth, search, r, h, he => by
    simp only [Wf] at h
    rcases erase_cases he with ⟨l, rfl, hl, rfl⟩ | ⟨b, rest, e, rfl, hin, rfl⟩
    · simp only [leaf_mk] at hl
      subst hl
      refine ⟨none, edges, rfl, by simp [Wf, h.2], ?_⟩
      simp [leaves, h.1 l rfl, filter_ne_path h.2]
    · rcases wfEdges_eraseIn edges depth b rest e h.2 hin with ⟨hw, _, hl⟩
      refine ⟨leaf, e.1, rfl, by simpa [Wf] using ⟨h.1, hw⟩, ?_⟩
      rw [leaves, List.filter_append, filter_ne_leaf h.1, hl]

theorem wfEdges_eraseIn {path : Key} :
    ∀ (ns : List (Node V)) (depth : Nat) (b : UInt8) (rest : Key)
      (r : List (Node V) × List Channel), WfEdges path ns →
      eraseIn s depth ns (b :: rest) = some r →
      WfEdges path r.1 ∧ (∀ m ∈ r.1, ∃ n ∈ ns, m.label? = n.label?) ∧
        leavesOf r.1 = (leavesOf ns).filter (·.key != path ++ b :: rest)
  | [], _, _, _, _, _, he => by simp [eraseIn] at he
  | n :: ns, depth, b, rest, r, h, he => by
    have hall := h
    simp only [WfEdges] at h
    rcases h with ⟨hc, hf, hn, hb, hns⟩
    simp only [leavesOf, List.filter_append]
    rcases eraseIn_cons_cases he with ⟨tail, e, hlabel, ha, hin, rfl⟩ | ⟨e, hlabel, hin, rfl⟩
    · -- the key can only lie below this child
      rw [filter_ne_leavesOf hns fun m hm => (hb m hm).label_ne hlabel]
      rcases exists_settle_of_erase n (depth + 1) tail e hn hin with ⟨leaf, edges, hr, hw, hl⟩
      have hrep : ∀ m ∈ e.1, Replaces path n m := hr ▸ replaces_settle s hc hw
      refine ⟨wfEdges_replace hall hrep, fun m hm => label_of_mem_replace hrep hm, ?_⟩
      simp only [leavesOf_append]
      rw [hr, leavesOf_settle, hl, Key.after?_eq_some_iff.1 ha, List.append_assoc]
    · rw [filter_ne_leaves hn hc hlabel]
      rcases wfEdges_eraseIn ns depth b rest e hns hin with ⟨hw, hlab, hl⟩
      rcases wfEdges_replace_tail hall hw hlab with ⟨hw, hlab⟩
      exact ⟨hw, hlab, by simp only [leavesOf, hl]⟩

end

/-! ## Removal of a stem -/

theorem filter_not_eq_self {p : Leaf V → Bool} {ls : List (Leaf V)} (h : ls.filter p = []) :
    ls.filter (!p ·) = ls := by
  rw [List.filter_eq_self]
  intro l hl
  simpa using List.filter_eq_nil_iff.1 h l hl

theorem filter_not_eq_nil {p : Leaf V → Bool} {ls : List (Leaf V)} (h : ls.filter p = ls) :
    ls.filter (!p ·) = [] := by
  rw [List.filter_eq_nil_iff]
  intro l hl
  simpa using List.filter_eq_self.1 h l hl

mutual

theorem eraseStem_eq_none_iff :
    ∀ (n : Node V) (depth : Nat) (stem : Key),
      n.eraseStem s depth stem = none ↔ (n.seek stem).2 = none
  | mk _ _ _ _, _, [] => by simp [eraseStem, seek]
  | mk _ channel leaf edges, depth, b :: rest => by
    rw [eraseStem, seek, ← eraseStemIn_eq_none_iff channel edges depth (b :: rest)]
    cases eraseStemIn s depth edges (b :: rest) <;> simp

theorem eraseStemIn_eq_none_iff (channel : Channel) :
    ∀ (ns : List (Node V)) (depth : Nat) (stem : Key),
      eraseStemIn s depth ns stem = none ↔ (seekIn channel ns stem).2 = none
  | [], _, _ => by simp [eraseStemIn, seekIn]
  | n :: ns, depth, stem => by
    rw [eraseStemIn, seekIn]
    split
    · cases n.chunk.after? stem with
      | none => cases n.chunk.startsWith stem <;> simp
      | some rest =>
        simp only
        rw [← eraseStem_eq_none_iff n (depth + 1) rest]
        cases n.eraseStem s (depth + 1) rest <;> simp
    · rw [← eraseStemIn_eq_none_iff channel ns depth stem]
      cases eraseStemIn s depth ns stem <;> simp

end

mutual

/-- The removal of a stem takes the node, or settles it with all leaves but those with
the stem. -/
theorem exists_settle_of_eraseStem {path : Key} :
    ∀ (n : Node V) (depth : Nat) (stem : Key) (r : Option (Node V) × List Channel), n.Wf path →
      n.eraseStem s depth stem = some r →
      (stem = [] ∧ r.1 = none) ∨
        ∃ edges, r.1 = (settle s depth n.chunk n.leaf edges).1 ∧
          (mk n.chunk n.channel n.leaf edges).Wf path ∧
          n.leaf.toList ++ leavesOf edges = n.leaves.filter (!·.key.startsWith (path ++ stem))
  | mk chunk channel leaf edges, depth, stem, r, h, he => by
    simp only [Wf] at h
    rcases eraseStem_cases he with ⟨rfl, rfl⟩ | ⟨b, rest, e, rfl, hin, rfl⟩
    · exact .inl ⟨rfl, rfl⟩
    · rcases wfEdges_eraseStemIn edges depth b rest e h.2 hin with ⟨hw, _, hl⟩
      refine .inr ⟨e.1, rfl, by simpa [Wf] using ⟨h.1, hw⟩, ?_⟩
      have hleaf : leaf.toList.filter (!·.key.startsWith (path ++ b :: rest)) = leaf.toList :=
        filter_not_eq_self (filter_leaf_of_path h.1)
      rw [leaves, List.filter_append, leaf_mk, hleaf, hl]

theorem wfEdges_eraseStemIn {path : Key} :
    ∀ (ns : List (Node V)) (depth : Nat) (b : UInt8) (rest : Key)
      (r : List (Node V) × List Channel), WfEdges path ns →
      eraseStemIn s depth ns (b :: rest) = some r →
      WfEdges path r.1 ∧ (∀ m ∈ r.1, ∃ n ∈ ns, m.label? = n.label?) ∧
        leavesOf r.1 = (leavesOf ns).filter (!·.key.startsWith (path ++ b :: rest))
  | [], _, _, _, _, _, he => by simp [eraseStemIn] at he
  | n :: ns, depth, b, rest, r, h, he => by
    have hall := h
    simp only [WfEdges] at h
    rcases h with ⟨hc, hf, hn, hb, hns⟩
    simp only [leavesOf, List.filter_append]
    rcases eraseStemIn_cons_cases he with
      ⟨hlabel, hs, rfl⟩ | ⟨tail, e, hlabel, ha, hin, rfl⟩ | ⟨e, hlabel, hin, rfl⟩
    · rw [filter_not_eq_self (filter_leavesOf_of_label hns fun m hm => (hb m hm).label_ne hlabel),
        filter_not_eq_nil (filter_leaves_of_isPrefix hn (Key.startsWith_iff.1 hs))]
      exact ⟨hns, fun m hm => ⟨m, List.mem_cons_of_mem n hm, rfl⟩, rfl⟩
    · rw [filter_not_eq_self (filter_leavesOf_of_label hns fun m hm => (hb m hm).label_ne hlabel),
        Key.after?_eq_some_iff.1 ha]
      rcases exists_settle_of_eraseStem n (depth + 1) tail e hn hin with
        ⟨rfl, hr⟩ | ⟨edges, hr, hw, hl⟩
      · -- the stem ends at the child
        have hall : n.leaves.filter (·.key.startsWith (path ++ (n.chunk ++ []))) = n.leaves := by
          rw [List.append_nil]
          exact filter_leaves_of_isPrefix hn List.prefix_rfl
        rw [filter_not_eq_nil hall, hr]
        exact ⟨hns, fun m hm => ⟨m, List.mem_cons_of_mem n hm, rfl⟩, rfl⟩
      · have hrep : ∀ m ∈ e.1, Replaces path n m := hr ▸ replaces_settle s hc hw
        refine ⟨wfEdges_replace hall hrep, fun m hm => label_of_mem_replace hrep hm, ?_⟩
        simp only [leavesOf_append]
        rw [hr, leavesOf_settle, hl, List.append_assoc]
    · rw [filter_not_eq_self (filter_leaves_of_label hn hc hlabel)]
      rcases wfEdges_eraseStemIn ns depth b rest e hns hin with ⟨hw, hlab, hl⟩
      rcases wfEdges_replace_tail hall hw hlab with ⟨hw, hlab⟩
      exact ⟨hw, hlab, by simp only [leavesOf, hl]⟩

end

end Removal

end Node

end SnapStore
