import SnapStore.Proofs.Radix.Map

/-! # The two sides of a key

A search for the entries from a key upward goes down one path of the tree. What branches off
above the path lies on its side as a whole, and what branches off below it is left out.

Main statements: `Wf.atLeast_eq` and `Wf.atMost_eq`.
-/

namespace SnapStore

universe u

variable {V : Type u}

namespace Node

/-! ## A subtree beside the search -/

section

variable {bound : Key} {ls : List (Leaf V)}

theorem filter_atLeast_eq_self (h : ∀ l ∈ ls, bound ≤ l.key) :
    ls.filter (fun l => bound ≤ l.key) = ls :=
  List.filter_eq_self.2 fun l hl => decide_eq_true (h l hl)

theorem filter_atLeast_eq_nil (h : ∀ l ∈ ls, l.key < bound) :
    ls.filter (fun l => bound ≤ l.key) = [] :=
  List.filter_eq_nil_iff.2 fun l hl hle => of_decide_eq_true hle (h l hl)

theorem filter_atMost_eq_self (h : ∀ l ∈ ls, l.key ≤ bound) :
    ls.filter (fun l => l.key ≤ bound) = ls :=
  List.filter_eq_self.2 fun l hl => decide_eq_true (h l hl)

theorem filter_atMost_eq_nil (h : ∀ l ∈ ls, bound < l.key) :
    ls.filter (fun l => l.key ≤ bound) = [] :=
  List.filter_eq_nil_iff.2 fun l hl hle => of_decide_eq_true hle (h l hl)

end

variable {path : Key}

theorem lt_append_cons (path rest : Key) (b : UInt8) : path < path ++ b :: rest := by
  have h : path ++ [] < path ++ b :: rest := List.append_left_lt (List.nil_lt_cons b rest)
  rwa [List.append_nil] at h

/-- Where a subtree turns off to a smaller byte, all its keys are below the search. -/
theorem lt_of_mem_leaves {shared left right : Key} {c b : UInt8} {n : Node V}
    (hn : n.Wf (path ++ (shared ++ c :: left))) (hcb : c < b) {l : Leaf V} (hl : l ∈ n.leaves) :
    l.key < path ++ (shared ++ b :: right) := by
  rcases isPrefix_of_mem_leaves n hn hl with ⟨tail, ht⟩
  have hkey : l.key = (path ++ shared) ++ c :: (left ++ tail) := by simp [← ht]
  rw [hkey, ← List.append_assoc]
  exact append_lt_append_of_lt hcb _ _

/-- Where a subtree turns off to a larger byte, all its keys are above the search. -/
theorem gt_of_mem_leaves {shared left right : Key} {c b : UInt8} {n : Node V}
    (hn : n.Wf (path ++ (shared ++ c :: left))) (hbc : b < c) {l : Leaf V} (hl : l ∈ n.leaves) :
    path ++ (shared ++ b :: right) < l.key := by
  rcases isPrefix_of_mem_leaves n hn hl with ⟨tail, ht⟩
  have hkey : l.key = (path ++ shared) ++ c :: (left ++ tail) := by simp [← ht]
  rw [hkey, ← List.append_assoc]
  exact append_lt_append_of_lt hbc _ _

/-- Siblings with larger labels hold larger keys. -/
theorem gt_of_mem_leavesOf {ns : List (Node V)} (hns : WfEdges path ns) {b : UInt8} {rest : Key}
    (hb : ∀ n ∈ ns, ∀ c ∈ n.label?, b < c) {l : Leaf V} (hl : l ∈ leavesOf ns) :
    path ++ b :: rest < l.key := by
  rcases exists_label_of_mem_leavesOf hns hl with ⟨n, hn, c, tail, hc, hkey⟩
  rw [hkey]
  exact append_lt_append_of_lt (hb n hn c hc) _ _

theorem mem_leavesDown {n : Node V} {l : Leaf V} : l ∈ n.leavesDown ↔ l ∈ n.leaves := by
  rw [leavesDown_eq, List.mem_reverse]

theorem mem_leavesDownOf {ns : List (Node V)} {l : Leaf V} :
    l ∈ leavesDownOf ns ↔ l ∈ leavesOf ns := by
  rw [leavesDownOf_eq, List.mem_reverse]

/-! ## Upward -/

mutual

/-- The search upward finds the leaves whose keys are not below it. -/
theorem atLeast_eq {path : Key} : ∀ (n : Node V) (search : Key), n.Wf (path ++ n.chunk) →
    n.atLeast search = n.leaves.filter fun l => path ++ search ≤ l.key
  | mk chunk channel leaf edges, search, h => by
    rcases Key.exists_fork chunk search with
      ⟨shared, left, right, hfork, hleft, hright, hparted⟩
    have hkeys := h
    rw [chunk_mk] at h hkeys
    simp only [Wf] at h
    rw [atLeast, hfork]
    rcases right with _ | ⟨b, rest⟩
    · -- the search ends inside the chunk
      rw [filter_atLeast_eq_self]
      intro l hl
      refine List.IsPrefix.le (List.IsPrefix.trans ?_ (isPrefix_of_mem_leaves _ hkeys hl))
      rw [← hleft, ← hright, List.append_nil]
      exact List.prefix_append_right_inj path |>.2 (List.prefix_append shared left)
    · rcases left with _ | ⟨c, left⟩
      · -- the search goes on behind the edges
        rw [List.append_nil] at hleft
        subst hleft
        have hleaf : leaf.toList.filter (fun l => path ++ search ≤ l.key) = [] := by
          refine filter_atLeast_eq_nil fun l hl => ?_
          rw [h.1 l (by simpa using hl), ← hright, ← List.append_assoc]
          exact lt_append_cons _ rest b
        rw [leaves, List.filter_append, hleaf, List.nil_append, ← hright, ← List.append_assoc]
        exact atLeastIn_eq edges b rest h.2
      · -- the search turns off inside the chunk
        have hne : c ≠ b := hparted c rfl b rfl
        rw [← hleft] at hkeys
        dsimp only
        split
        · rename_i hlt
          rw [filter_atLeast_eq_self]
          intro l hl
          rw [← hright]
          exact List.le_of_lt (gt_of_mem_leaves hkeys hlt hl)
        · rename_i hnot
          have hlt : c < b := UInt8.lt_of_le_of_ne (UInt8.not_lt.1 hnot) hne
          rw [filter_atLeast_eq_nil]
          intro l hl
          rw [← hright]
          exact lt_of_mem_leaves hkeys hlt hl

theorem atLeastIn_eq {path : Key} : ∀ (ns : List (Node V)) (b : UInt8) (rest : Key),
    WfEdges path ns →
      atLeastIn ns b (b :: rest) = (leavesOf ns).filter fun l => path ++ b :: rest ≤ l.key
  | [], _, _, _ => by simp [atLeastIn, leavesOf]
  | n :: ns, b, rest, h => by
    have hall := h
    simp only [WfEdges] at h
    rcases h with ⟨hc, _, hn, hb, hns⟩
    rcases List.exists_cons_of_ne_nil hc with ⟨c, chunk, hchunk⟩
    have hlabel : n.label? = some c := by rw [label?, hchunk]; rfl
    rw [atLeastIn, hlabel]
    dsimp only
    split
    · -- the subtree is below the search
      rename_i hlt
      have hbelow : n.leaves.filter (fun l => path ++ b :: rest ≤ l.key) = [] := by
        have hturn : n.Wf (path ++ ([] ++ c :: chunk)) := hchunk ▸ hn
        exact filter_atLeast_eq_nil fun l hl => lt_of_mem_leaves hturn hlt hl
      rw [leavesOf, List.filter_append, hbelow, List.nil_append]
      exact atLeastIn_eq ns b rest hns
    · split
      · -- the search goes on in the subtree, and the siblings behind it are above
        rename_i heq
        subst heq
        have habove : (leavesOf ns).filter (fun l => path ++ c :: rest ≤ l.key) = leavesOf ns := by
          refine filter_atLeast_eq_self fun l hl => List.le_of_lt ?_
          exact gt_of_mem_leavesOf hns (fun m hm d hd => hb m hm c hlabel d hd) hl
        rw [leavesOf, List.filter_append, habove, atLeast_eq n (c :: rest) hn]
      · -- the subtree and the siblings behind it are above the search
        rename_i hnot hne
        have hlt : b < c := UInt8.lt_of_le_of_ne (UInt8.not_lt.1 hnot) (Ne.symm hne)
        rw [filter_atLeast_eq_self]
        intro l hl
        refine List.le_of_lt (gt_of_mem_leavesOf hall (fun m hm d hd => ?_) hl)
        rcases List.mem_cons.1 hm with rfl | hm
        · rw [hlabel] at hd
          exact Option.some.inj hd ▸ hlt
        · exact UInt8.lt_trans hlt (hb m hm c hlabel d hd)

end

/-! ## Downward -/

mutual

/-- The search downward finds the leaves whose keys are not above it. -/
theorem atMost_eq {path : Key} : ∀ (n : Node V) (search : Key), n.Wf (path ++ n.chunk) →
    n.atMost search = n.leavesDown.filter fun l => l.key ≤ path ++ search
  | mk chunk channel leaf edges, search, h => by
    rcases Key.exists_fork chunk search with
      ⟨shared, left, right, hfork, hleft, hright, hparted⟩
    have hkeys := h
    rw [chunk_mk] at h hkeys
    simp only [Wf] at h
    have hleaf (hpre : chunk <+: search) :
        leaf.toList.filter (fun l => l.key ≤ path ++ search) = leaf.toList := by
      refine filter_atMost_eq_self fun l hl => ?_
      rw [h.1 l (by simpa using hl)]
      exact List.IsPrefix.le ((List.prefix_append_right_inj path).2 hpre)
    rw [atMost, hfork]
    rcases left with _ | ⟨c, left⟩
    · -- the chunk is a stem of the search
      rw [List.append_nil] at hleft
      subst hleft
      have hstem : shared <+: search := ⟨right, hright⟩
      rw [leavesDown, List.filter_append, hleaf hstem]
      rcases right with _ | ⟨b, rest⟩
      · rw [List.append_nil] at hright
        subst hright
        have habove : (leavesDownOf edges).filter (fun l => l.key ≤ path ++ shared) = [] := by
          refine filter_atMost_eq_nil fun l hl => ?_
          rcases exists_label_of_mem_leavesOf h.2 (mem_leavesDownOf.1 hl) with
            ⟨_, _, b, rest, _, hk⟩
          rw [hk]
          exact lt_append_cons _ rest b
        rw [habove, List.nil_append]
      · rw [← hright, ← List.append_assoc, ← atMostIn_eq edges b rest h.2]
    · rcases right with _ | ⟨b, rest⟩
      · -- every key goes on behind the search
        rw [List.append_nil] at hright
        subst hright
        rw [filter_atMost_eq_nil]
        intro l hl
        rcases isPrefix_of_mem_leaves _ hkeys (mem_leavesDown.1 hl) with ⟨tail, ht⟩
        have hkey : l.key = (path ++ shared) ++ c :: (left ++ tail) := by simp [← ht, ← hleft]
        rw [hkey]
        exact lt_append_cons _ _ c
      · -- the search turns off inside the chunk
        have hne : c ≠ b := hparted c rfl b rfl
        rw [← hleft] at hkeys
        dsimp only
        split
        · rename_i hlt
          rw [filter_atMost_eq_self]
          intro l hl
          rw [← hright]
          exact List.le_of_lt (lt_of_mem_leaves hkeys hlt (mem_leavesDown.1 hl))
        · rename_i hnot
          have hlt : b < c := UInt8.lt_of_le_of_ne (UInt8.not_lt.1 hnot) (Ne.symm hne)
          rw [filter_atMost_eq_nil]
          intro l hl
          rw [← hright]
          exact gt_of_mem_leaves hkeys hlt (mem_leavesDown.1 hl)

theorem atMostIn_eq {path : Key} : ∀ (ns : List (Node V)) (b : UInt8) (rest : Key),
    WfEdges path ns →
      atMostIn ns b (b :: rest) = (leavesDownOf ns).filter fun l => l.key ≤ path ++ b :: rest
  | [], _, _, _ => by simp [atMostIn, leavesDownOf]
  | n :: ns, b, rest, h => by
    have hall := h
    simp only [WfEdges] at h
    rcases h with ⟨hc, _, hn, hb, hns⟩
    rcases List.exists_cons_of_ne_nil hc with ⟨c, chunk, hchunk⟩
    have hlabel : n.label? = some c := by rw [label?, hchunk]; rfl
    rw [atMostIn, hlabel]
    dsimp only
    split
    · -- the subtree is below the search
      rename_i hlt
      have hbelow : n.leavesDown.filter (fun l => l.key ≤ path ++ b :: rest) = n.leavesDown := by
        have hturn : n.Wf (path ++ ([] ++ c :: chunk)) := hchunk ▸ hn
        refine filter_atMost_eq_self fun l hl => List.le_of_lt ?_
        exact lt_of_mem_leaves hturn hlt (mem_leavesDown.1 hl)
      rw [leavesDownOf, List.filter_append, hbelow, atMostIn_eq ns b rest hns]
    · split
      · -- the search goes on in the subtree, and the siblings behind it are above
        rename_i heq
        subst heq
        have habove : (leavesDownOf ns).filter (fun l => l.key ≤ path ++ c :: rest) = [] := by
          refine filter_atMost_eq_nil fun l hl => ?_
          exact gt_of_mem_leavesOf hns (fun m hm d hd => hb m hm c hlabel d hd)
            (mem_leavesDownOf.1 hl)
        rw [leavesDownOf, List.filter_append, habove, List.nil_append, atMost_eq n (c :: rest) hn]
      · -- the subtree and the siblings behind it are above the search
        rename_i hnot hne
        have hlt : b < c := UInt8.lt_of_le_of_ne (UInt8.not_lt.1 hnot) (Ne.symm hne)
        rw [filter_atMost_eq_nil]
        intro l hl
        refine gt_of_mem_leavesOf hall (fun m hm d hd => ?_) (mem_leavesDownOf.1 hl)
        rcases List.mem_cons.1 hm with rfl | hm
        · rw [hlabel] at hd
          exact Option.some.inj hd ▸ hlt
        · exact UInt8.lt_trans hlt (hb m hm c hlabel d hd)

end

end Node

namespace Tree

variable {t : Tree V}

theorem leavesDown_eq (t : Tree V) : t.leavesDown = t.leaves.reverse :=
  Node.leavesDown_eq t.root

/-- The entries from a key upward, ascending. -/
theorem Wf.atLeast_eq (h : t.Wf) (key : Key) :
    t.atLeast key = t.leaves.filter fun l => key ≤ l.key := by
  have hroot : t.root.Wf ([] ++ t.root.chunk) := by
    rw [h.chunk]
    exact h.root
  exact Node.atLeast_eq t.root key hroot

/-- The entries from a key downward, descending. -/
theorem Wf.atMost_eq (h : t.Wf) (key : Key) :
    t.atMost key = t.leavesDown.filter fun l => l.key ≤ key := by
  have hroot : t.root.Wf ([] ++ t.root.chunk) := by
    rw [h.chunk]
    exact h.root
  exact Node.atMost_eq t.root key hroot

end Tree

end SnapStore
