import SnapStore.Radix.Tree
import SnapStore.Proofs.Radix.Edits

/-! # Trees as maps

A well-formed tree is a finite map from keys to values, and lists its entries ascending.
Every edit of a draft keeps the tree well-formed and changes the map as its name says.

Main statements: `get?_insert`, `get?_erase`, `get?_eraseStem` (edits as edits of a map),
`mem_seek` and `pairwise_leaves` (what a seek lists, and in which order).
-/

namespace SnapStore

universe u

variable {V : Type u}

/-- A tree that edits of the empty tree lead to. -/
structure Tree.Wf (t : Tree V) : Prop where
  chunk : t.root.chunk = []
  root : t.root.Wf []
  size : t.size = t.leaves.length

namespace Node

mutual

/-- A watch finds the leaf that a look-up finds. -/
theorem watch_snd : ∀ (n : Node V) (search : Key), (n.watch search).2 = n.find? search
  | mk _ _ none _, [] => rfl
  | mk _ _ (some _) _, [] => rfl
  | mk _ channel none edges, b :: rest => watchIn_snd channel edges (b :: rest)
  | mk _ channel (some _) edges, b :: rest => watchIn_snd channel edges (b :: rest)

theorem watchIn_snd (channel : Channel) : ∀ (ns : List (Node V)) (search : Key),
    (watchIn channel ns search).2 = findIn? ns search
  | [], _ => rfl
  | n :: ns, search => by
    rw [watchIn, findIn?]
    split
    · cases n.chunk.after? search with
      | none => rfl
      | some rest => exact watch_snd n rest
    · exact watchIn_snd channel ns search

end

end Node

namespace Tree

/-- A watch finds the value at the key. -/
theorem watch_snd (t : Tree V) (key : Key) : (t.watch key).2 = t.get? key := by
  rw [watch, get?, ← Node.watch_snd]

theorem wf_empty (channel : Channel) : (empty channel : Tree V).Wf :=
  ⟨rfl, by simp [empty, Node.Wf, Node.WfEdges], rfl⟩

@[simp] theorem get?_empty (channel : Channel) (key : Key) :
    (empty channel : Tree V).get? key = none := by
  cases key <;> rfl

/-- A seek lists what stands below the node that the root finds. -/
theorem seek_eq_root (t : Tree V) (stem : Key) :
    t.seek stem = ((t.root.seek stem).1, (t.root.seek stem).2.elim [] Node.leaves) := by
  rw [seek]
  rcases t.root.seek stem with ⟨channel, _ | n⟩ <;> rfl

/-- A descending seek lists the same entries in the opposite order. -/
theorem seekDown_eq (t : Tree V) (stem : Key) :
    t.seekDown stem = ((t.seek stem).1, (t.seek stem).2.reverse) := by
  rw [seek, seekDown]
  rcases t.root.seek stem with ⟨channel, _ | n⟩
  · rfl
  · exact congrArg (channel, ·) (Node.leavesDown_eq n)

namespace Wf

variable {t : Tree V}

theorem find?_eq_some_iff (h : t.Wf) {key : Key} {l : Leaf V} :
    t.root.find? key = some l ↔ l ∈ t.leaves ∧ l.key = key :=
  Node.find?_eq_some_iff t.root key h.root

theorem get?_eq_some_iff (h : t.Wf) {key : Key} {value : V} :
    t.get? key = some value ↔ ∃ l ∈ t.leaves, l.key = key ∧ l.value = value := by
  simp only [get?, Option.map_eq_some_iff, h.find?_eq_some_iff, and_assoc]

/-- The entries ascend strictly by their keys. -/
theorem pairwise_leaves (h : t.Wf) : t.leaves.Pairwise (·.key < ·.key) :=
  Node.pairwise_leaves t.root h.root

theorem nodup_leaves (h : t.Wf) : t.leaves.Nodup := by
  refine h.pairwise_leaves.imp ?_
  rintro l m hlt rfl
  exact List.lt_irrefl _ hlt

theorem leaf_unique (h : t.Wf) {l m : Leaf V} (hl : l ∈ t.leaves) (hm : m ∈ t.leaves)
    (hk : l.key = m.key) : l = m := by
  have h1 := h.find?_eq_some_iff.2 ⟨hl, rfl⟩
  have h2 := h.find?_eq_some_iff.2 ⟨hm, hk.symm⟩
  exact Option.some.inj (h1.symm.trans h2)

/-- The value of an entry stands under its key. -/
theorem get?_leaf (h : t.Wf) {l : Leaf V} (hl : l ∈ t.leaves) : t.get? l.key = some l.value :=
  h.get?_eq_some_iff.2 ⟨l, hl, rfl, rfl⟩

/-! ## Seeking -/

/-- A seek lists the entries with the stem, ascending. -/
theorem seek_eq (h : t.Wf) (stem : Key) :
    (t.seek stem).2 = t.leaves.filter (·.key.startsWith stem) := by
  have hs := Node.found_seek t.root stem h.root
  rw [List.nil_append] at hs
  rw [leaves, ← hs, seek_eq_root, Node.found]

theorem mem_seek (h : t.Wf) {stem : Key} {l : Leaf V} :
    l ∈ (t.seek stem).2 ↔ l ∈ t.leaves ∧ stem <+: l.key := by
  rw [h.seek_eq, List.mem_filter, Key.startsWith_iff]

theorem seek_eq_nil_iff (h : t.Wf) {stem : Key} :
    (t.seek stem).2 = [] ↔ ∀ key, stem <+: key → t.get? key = none := by
  constructor
  · intro hnil key hstem
    refine Option.eq_none_iff_forall_ne_some.2 fun value hvalue => ?_
    rcases h.get?_eq_some_iff.1 hvalue with ⟨l, hl, rfl, rfl⟩
    exact List.eq_nil_iff_forall_not_mem.1 hnil l (h.mem_seek.2 ⟨hl, hstem⟩)
  · refine fun hnone => List.eq_nil_iff_forall_not_mem.2 fun l hl => ?_
    rcases h.mem_seek.1 hl with ⟨hl, hstem⟩
    have hget := hnone l.key hstem
    rw [h.get?_leaf hl] at hget
    cases hget

/-! ## Counting -/

/-- The entries are the one with a key, if there is one, and those with other keys. -/
theorem perm_filter_ne (h : t.Wf) (key : Key) :
    t.leaves.Perm ((t.root.find? key).toList ++ t.leaves.filter (·.key != key)) := by
  cases hf : t.root.find? key with
  | none =>
    have hne := (Node.find?_eq_none_iff h.root).1 hf
    have hself : t.leaves.filter (·.key != key) = t.leaves :=
      Node.filter_ne_eq_self fun l hk hl => hne l hl hk
    simp [hself]
  | some l =>
    -- both sides hold each entry once
    rcases h.find?_eq_some_iff.1 hf with ⟨hl, hk⟩
    refine (List.perm_ext_iff_of_nodup h.nodup_leaves ?_).2 fun m => ?_
    · have hnd : (t.leaves.filter (·.key != key)).Nodup := h.nodup_leaves.filter _
      simp [hk, hnd]
    · simp only [Option.toList_some, List.singleton_append, List.mem_cons, List.mem_filter,
        bne_iff_ne]
      constructor
      · intro hm
        by_cases hmk : m.key = key
        · exact .inl (h.leaf_unique hm hl (hmk.trans hk.symm))
        · exact .inr ⟨hm, hmk⟩
      · rintro (rfl | hm)
        · exact hl
        · exact hm.1

theorem length_filter_ne (h : t.Wf) (key : Key) :
    t.size = (t.leaves.filter (·.key != key)).length + if (t.get? key).isSome then 1 else 0 := by
  rw [h.size, (h.perm_filter_ne key).length_eq, List.length_append, Nat.add_comm]
  congr 1
  cases hf : t.root.find? key <;> simp [get?, hf]

end Wf

end Tree

/-! ## Edits of a draft -/

namespace Draft

variable {d : Draft V}

@[simp] theorem tree_after (d : Draft V) (t : Tree V) (cs : List Channel) :
    (d.after t cs).tree = t := rfl

/-- Trees with the same entries under a key have the same value there. -/
theorem get?_congr {t t' : Tree V} (h : t.Wf) (h' : t'.Wf) {key : Key}
    (hl : ∀ l, l.key = key → (l ∈ t'.leaves ↔ l ∈ t.leaves)) : t'.get? key = t.get? key := by
  refine Option.ext fun v => ?_
  rw [h.get?_eq_some_iff, h'.get?_eq_some_iff]
  constructor
  · rintro ⟨l, hm, hk, hv⟩
    exact ⟨l, (hl l hk).1 hm, hk, hv⟩
  · rintro ⟨l, hm, hk, hv⟩
    exact ⟨l, (hl l hk).2 hm, hk, hv⟩

theorem get?_eq_none_iff {t : Tree V} (h : t.Wf) {key : Key} :
    t.get? key = none ↔ ∀ l ∈ t.leaves, l.key ≠ key := by
  rw [Tree.get?, Option.map_eq_none_iff, Node.find?_eq_none_iff h.root, List.nil_append]
  rfl

/-! ### Insertion -/

theorem leaves_insert (h : d.tree.Wf) (key : Key) (value : V) :
    ∃ depth, (d.insert key value).1.tree.leaves.Perm
      (Node.newLeaf d.stamp depth key value :: d.tree.leaves.filter (·.key != key)) :=
  Node.perm_leaves_insert d.stamp key value d.tree.root 0 key h.root rfl

theorem wf_insert (h : d.tree.Wf) (key : Key) (value : V) : (d.insert key value).1.tree.Wf := by
  refine ⟨?_, ?_, ?_⟩
  · exact (Node.chunk_insert d.stamp key value 0 d.tree.root key).trans h.chunk
  · exact Node.wf_insert d.stamp key value d.tree.root 0 key h.root rfl
  · rcases leaves_insert h key value with ⟨depth, hp⟩
    rw [hp.length_eq, List.length_cons]
    have hlen : d.tree.size = (d.tree.leaves.filter (·.key != key)).length +
      if (d.get? key).isSome then 1 else 0 := h.length_filter_ne key
    simp only [insert, tree_after, size]
    by_cases hs : (d.get? key).isSome = true
    · rw [if_pos hs] at hlen ⊢
      exact hlen
    · rw [if_neg hs] at hlen ⊢
      rw [hlen]

@[simp] theorem get?_insert (h : d.tree.Wf) (key : Key) (value : V) (k : Key) :
    (d.insert key value).1.tree.get? k = if k = key then some value else d.tree.get? k := by
  rcases leaves_insert h key value with ⟨depth, hp⟩
  have hmem := fun l => hp.mem_iff (a := l)
  simp only [List.mem_cons, List.mem_filter, bne_iff_ne] at hmem
  split
  · rename_i hk
    rw [(wf_insert h key value).get?_eq_some_iff]
    exact ⟨_, (hmem _).2 (.inl rfl), hk.symm, rfl⟩
  · rename_i hk
    refine get?_congr h (wf_insert h key value) fun l hl => ?_
    rw [hmem]
    constructor
    · rintro (rfl | hm)
      · exact absurd hl.symm hk
      · exact hm.1
    · intro hm
      exact .inr ⟨hm, fun hlk => hk (hl.symm.trans hlk)⟩

/-- Insertions leave the values at other keys. -/
theorem get?_applyAll_insert_of_notMem (h : d.tree.Wf) (added : List (Key × V)) {k : Key}
    (hk : k ∉ added.map Prod.fst) :
    (d.applyAll (added.map fun e => .insert e.1 e.2)).tree.get? k = d.tree.get? k := by
  induction added generalizing d with
  | nil => rfl
  | cons e added ih =>
    simp only [List.map_cons, List.mem_cons, not_or] at hk
    have hrest := ih (wf_insert h e.1 e.2) hk.2
    rw [get?_insert h, if_neg hk.1] at hrest
    exact hrest

/-! ### Removal of a key -/

/-- A removal that changes the tree leaves the entries with other keys. -/
theorem erase_spec (h : d.tree.Wf) (key : Key) :
    (d.erase key).1.tree.Wf ∧
      (d.erase key).1.tree.leaves = d.tree.leaves.filter (·.key != key) := by
  rw [erase]
  cases he : d.tree.root.erase d.stamp 0 key with
  | none =>
    -- no entry has the key, and the tree stays as it is
    have hf := (Node.erase_eq_none_iff d.stamp d.tree.root 0 key).1 he
    have hne := (Node.find?_eq_none_iff h.root).1 hf
    exact ⟨h, (Node.filter_ne_eq_self fun l hk hl => hne l hl hk).symm⟩
  | some r =>
    rcases Node.exists_settle_of_erase d.stamp _ 0 key r h.root he with ⟨leaf, edges, hr, hw, hl⟩
    rw [Node.settle_root] at hr
    simp only [tree_after, rootOf, hr, Option.getD_some]
    have hleaves : (Node.mk d.tree.root.chunk (d.stamp.channel 0 .node) leaf edges).leaves =
        d.tree.leaves.filter (·.key != key) := by
      rw [Node.leaves, hl]
      rfl
    refine ⟨⟨h.chunk, Node.wf_iff.2 (Node.wf_iff.1 hw), ?_⟩, hleaves⟩
    have hsome : (d.tree.get? key).isSome = true := by
      have hf : d.tree.root.find? key ≠ none := by
        rw [ne_eq, ← Node.erase_eq_none_iff d.stamp d.tree.root 0 key, he]
        simp
      simpa [Tree.get?, Option.isSome_iff_ne_none] using hf
    have hlen := h.length_filter_ne key
    simp only [hsome, if_true] at hlen
    simp only [Tree.leaves, hleaves, size]
    show d.tree.size - 1 = (d.tree.leaves.filter (·.key != key)).length
    omega

theorem wf_erase (h : d.tree.Wf) (key : Key) : (d.erase key).1.tree.Wf :=
  (erase_spec h key).1

@[simp] theorem get?_erase (h : d.tree.Wf) (key k : Key) :
    (d.erase key).1.tree.get? k = if k = key then none else d.tree.get? k := by
  rcases erase_spec h key with ⟨hw, hl⟩
  split
  · rename_i hk
    rw [get?_eq_none_iff hw, hl]
    intro l hm
    rw [hk]
    simpa using (List.mem_filter.1 hm).2
  · rename_i hk
    refine get?_congr h hw fun l hlk => ?_
    rw [hl, List.mem_filter, bne_iff_ne, hlk]
    exact and_iff_left hk

/-- After removals no value is left at the keys removed, and the others are left alone. -/
theorem get?_applyAll_erase (h : d.tree.Wf) (keys : List Key) (k : Key) :
    (d.applyAll (keys.map .erase)).tree.get? k = if k ∈ keys then none else d.tree.get? k := by
  induction keys generalizing d with
  | nil => rfl
  | cons key keys ih =>
    have hrest := ih (wf_erase h key)
    rw [get?_erase h] at hrest
    refine hrest.trans ?_
    by_cases hk : k ∈ keys
    · simp [hk]
    · simp [hk]

/-! ### Removal of a stem -/

/-- The removal of a stem leaves the entries without it. -/
theorem eraseStem_spec (h : d.tree.Wf) (stem : Key) :
    (d.eraseStem stem).1.tree.Wf ∧
      (d.eraseStem stem).1.tree.leaves = d.tree.leaves.filter (!·.key.startsWith stem) := by
  rw [eraseStem]
  cases he : d.tree.root.eraseStem d.stamp 0 stem with
  | none =>
    -- no entry has the stem
    have hs := (Node.eraseStem_eq_none_iff d.stamp d.tree.root 0 stem).1 he
    have hnil := Node.found_seek d.tree.root stem h.root
    rw [Node.found, hs, Option.elim_none, List.nil_append] at hnil
    exact ⟨h, (Node.filter_not_eq_self hnil.symm).symm⟩
  | some r =>
    have hcount : (d.tree.leaves.filter (!·.key.startsWith stem)).length =
        d.size - (d.tree.seek stem).2.length := by
      have hlen := List.length_eq_countP_add_countP (·.key.startsWith stem) (l := d.tree.leaves)
      simp only [List.countP_eq_length_filter, Bool.not_eq_true, Bool.decide_eq_false] at hlen
      rw [h.seek_eq, size, h.size]
      omega
    simp only [tree_after]
    rcases Node.exists_settle_of_eraseStem d.stamp _ 0 stem r h.root he with
      ⟨rfl, hr⟩ | ⟨edges, hr, hw, hl⟩
    · -- the empty stem takes the root, and a new one without entries stands in its place
      have hnil : d.tree.leaves.filter (!·.key.startsWith []) = [] :=
        Node.filter_not_eq_nil
          (List.filter_eq_self.2 fun l _ => by simp [Key.startsWith, Key.after?])
      have hleaves : (⟨d.rootOf r.1, d.size - (d.tree.seek []).2.length⟩ : Tree V).leaves =
          d.tree.leaves.filter (!·.key.startsWith []) := by
        rw [hnil, hr]
        rfl
      refine ⟨⟨?_, ?_, ?_⟩, hleaves⟩
      · rw [hr]
        rfl
      · rw [hr]
        simp [rootOf, Node.Wf, Node.WfEdges]
      · rw [hleaves, hcount]
    · rw [Node.settle_root] at hr
      have hleaves : (⟨d.rootOf r.1, d.size - (d.tree.seek stem).2.length⟩ : Tree V).leaves =
          d.tree.leaves.filter (!·.key.startsWith stem) := by
        simp only [Tree.leaves, rootOf, hr, Option.getD_some]
        exact hl
      refine ⟨⟨?_, ?_, ?_⟩, hleaves⟩
      · simp [rootOf, hr, h.chunk]
      · simp only [rootOf, hr, Option.getD_some]
        exact Node.wf_iff.2 (Node.wf_iff.1 hw)
      · rw [hleaves, hcount]

theorem wf_eraseStem (h : d.tree.Wf) (stem : Key) : (d.eraseStem stem).1.tree.Wf :=
  (eraseStem_spec h stem).1

@[simp] theorem get?_eraseStem (h : d.tree.Wf) (stem k : Key) :
    (d.eraseStem stem).1.tree.get? k =
      if k.startsWith stem then none else d.tree.get? k := by
  rcases eraseStem_spec h stem with ⟨hw, hl⟩
  split
  · rename_i hk
    rw [get?_eq_none_iff hw, hl]
    rintro l hm rfl
    simpa [hk] using (List.mem_filter.1 hm).2
  · rename_i hk
    refine get?_congr h hw fun l hlk => ?_
    rw [hl, List.mem_filter, hlk]
    simp [hk]

end Draft

end SnapStore
