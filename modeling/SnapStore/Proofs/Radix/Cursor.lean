import Mathlib.Data.List.Basic
import Mathlib.Data.List.TakeWhile
import SnapStore.Radix.Cursor
import SnapStore.Proofs.Radix.Bounds
import SnapStore.Proofs.Radix.Refinement
import SnapStore.Proofs.Radix.Spots

/-! # What cursors find

What a cursor has still to find is told by its stack: the leaves of its frames, one frame after
another. A call takes the first of them and leaves the others, so a run of calls finds them all in
this order and then nothing more. What is left is to see which leaves a stack starts with: those of
the root, those of the node of a stem, or those on one side of a key.

Main statements: `next_eq` (one call), `visits_pending` (all calls), `pending_framesAtLeast` and
`pending_framesAtMost` (the stack on the way to a key), and for every tree that edits lead to
`cursors_complete`, `cursors_from_key` and `cursors_of_stem`.
-/

namespace SnapStore

universe u

variable {V : Type u}

namespace Frame

/-- The leaves of a frame, ascending. -/
def leaves : Frame V → List (Leaf V)
  | node n => n.leaves
  | leaf l => [l]

/-- The leaves of a frame, descending. -/
def leavesDown : Frame V → List (Leaf V)
  | node n => n.leavesDown
  | leaf l => [l]

@[simp] theorem leaves_nodes (ns : List (Node V)) :
    (nodes ns).flatMap leaves = Node.leavesOf ns := by
  induction ns with
  | nil => rfl
  | cons n ns ih =>
    show n.leaves ++ (nodes ns).flatMap leaves = _
    rw [ih, Node.leavesOf]

@[simp] theorem leavesDown_nodes (ns : List (Node V)) :
    (nodes ns).reverse.flatMap leavesDown = Node.leavesDownOf ns := by
  induction ns with
  | nil => rfl
  | cons n ns ih =>
    have hcons : nodes (n :: ns) = node n :: nodes ns := rfl
    rw [hcons, List.reverse_cons, List.flatMap_append, ih, Node.leavesDownOf]
    simp [leavesDown]

@[simp] theorem leavesDown_leaf (leaf : Option (Leaf V)) :
    (leaf.toList.map Frame.leaf).flatMap leavesDown = leaf.toList := by
  cases leaf <;> rfl

end Frame

/-! ## Running a cursor -/

namespace Cursor

/-- The leaves that a cursor has still to find, in the order in which it finds them. -/
def pending : Cursor V → List (Leaf V)
  | up stack => stack.flatMap Frame.leaves
  | down stack => stack.flatMap Frame.leavesDown

/-- The cursor finds exactly the given leaves, in this order: run to its first answer without a
leaf, and called any number of times, also after its end. -/
structure Visits (c : Cursor V) (ls : List (Leaf V)) : Prop where
  toList : c.toList = ls
  take : ∀ n, (c.take n).1 = (ls.take n).map some ++ List.replicate (n - ls.length) none

theorem popUp_eq (stack : List (Frame V)) :
    (popUp stack).1 = (stack.flatMap Frame.leaves).head? ∧
      (popUp stack).2.flatMap Frame.leaves = (stack.flatMap Frame.leaves).tail := by
  fun_induction popUp stack with
  | case1 => simp
  | case2 l stack => simp [Frame.leaves]
  | case3 chunk channel l edges stack => simp [Frame.leaves, Node.leaves]
  | case4 chunk channel edges stack ih =>
    -- a node without a leaf holds what its children hold
    have hsame : (Frame.nodes edges ++ stack).flatMap Frame.leaves =
        (.node (.mk chunk channel none edges) :: stack).flatMap Frame.leaves := by
      simp [Frame.leaves, Node.leaves]
    rwa [hsame] at ih

theorem popDown_eq (stack : List (Frame V)) :
    (popDown stack).1 = (stack.flatMap Frame.leavesDown).head? ∧
      (popDown stack).2.flatMap Frame.leavesDown = (stack.flatMap Frame.leavesDown).tail := by
  fun_induction popDown stack with
  | case1 => simp
  | case2 l stack => simp [Frame.leavesDown]
  | case3 chunk channel leaf edges stack ih =>
    have hsame : ((Frame.nodes edges).reverse ++
        (leaf.toList.map Frame.leaf ++ stack)).flatMap Frame.leavesDown =
          (.node (.mk chunk channel leaf edges) :: stack).flatMap Frame.leavesDown := by
      simp [Frame.leavesDown, Node.leavesDown]
    rwa [hsame] at ih

/-- A call takes the first of the leaves still to be found. -/
theorem next_eq (c : Cursor V) :
    c.next.1 = c.pending.head? ∧ c.next.2.pending = c.pending.tail := by
  cases c with
  | up stack => exact popUp_eq stack
  | down stack => exact popDown_eq stack

theorem take_eq (n : Nat) (c : Cursor V) :
    (c.take n).1 = (c.pending.take n).map some ++
      List.replicate (n - c.pending.length) none := by
  induction n generalizing c with
  | zero => simp [take]
  | succ n ih =>
    rcases c.next_eq with ⟨hfirst, hrest⟩
    have htail := ih c.next.2
    rw [hrest] at htail
    show c.next.1 :: (c.next.2.take n).1 = _
    rw [hfirst, htail]
    cases c.pending with
    | nil => simp [List.replicate_succ]
    | cons l ls => simp

theorem toList_eq (c : Cursor V) : c.toList = c.pending := by
  fun_induction toList c with
  | case1 c c' h =>
    have hfirst := c.next_eq.1
    rw [h] at hfirst
    exact (List.head?_eq_none_iff.1 hfirst.symm).symm
  | case2 c l c' h ih =>
    rcases c.next_eq with ⟨hfirst, hrest⟩
    rw [h] at hfirst hrest
    rw [ih, hrest]
    exact List.cons_head?_tail hfirst.symm

/-- A cursor finds the leaves that its stack holds. -/
theorem visits_pending {c : Cursor V} {ls : List (Leaf V)} (h : c.pending = ls) : c.Visits ls := by
  subst h
  exact ⟨c.toList_eq, fun n => c.take_eq n⟩

end Cursor

/-! ## The stack on the way to a key -/

/-- Keys that part within a length compare within it as the bytes do at which they part. -/
theorem Key.take_lt_take_iff {a b : UInt8} (hab : a ≠ b) (shared left right : Key) {n : Nat}
    (hn : shared.length < n) :
    (shared ++ a :: left).take n < (shared ++ b :: right).take n ↔ a < b := by
  induction shared generalizing n with
  | nil =>
    obtain ⟨n, rfl⟩ : ∃ k, n = k + 1 := ⟨n - 1, by simp at hn; omega⟩
    simp [List.cons_lt_cons_iff, hab]
  | cons x shared ih =>
    obtain ⟨n, rfl⟩ : ∃ k, n = k + 1 := ⟨n - 1, by simp at hn; omega⟩
    have hn : shared.length < n := by simpa using hn
    simpa [List.cons_lt_cons_iff] using ih hn

namespace Node

variable {path : Key} {n : Node V} {ns : List (Node V)} {b c : UInt8}

/-- Nothing is taken up through edges none of which has the label of the search. -/
theorem framesAtLeastIn_of_label {search : Key} (stack : List (Frame V))
    (h : ∀ m ∈ ns, m.label? ≠ search.head?) : framesAtLeastIn ns search stack = stack := by
  induction ns with
  | nil => rfl
  | cons m ns ih =>
    rcases List.forall_mem_cons.1 h with ⟨hm, hns⟩
    rw [framesAtLeastIn, if_neg hm, ih hns]

theorem framesAtMostIn_of_label {search : Key} (stack : List (Frame V))
    (h : ∀ m ∈ ns, m.label? ≠ search.head?) : framesAtMostIn ns search stack = stack := by
  induction ns with
  | nil => rfl
  | cons m ns ih =>
    rcases List.forall_mem_cons.1 h with ⟨hm, hns⟩
    rw [framesAtMostIn, if_neg hm, ih hns]

/-- The siblings behind a child have larger labels. -/
theorem exists_label_gt (hns : WfEdges path ns) (hb : ∀ m ∈ ns, n.Before m)
    (hlabel : n.label? = some c) : ∀ m ∈ ns, ∃ x, m.label? = some x ∧ c < x := by
  intro m hm
  rcases (hns.stands hm).exists_label with ⟨x, _, _, hx, _⟩
  exact ⟨x, hx, hb m hm c hlabel x hx⟩

/-- Children with larger labels are all taken up. -/
theorem larger_of_all (h : ∀ m ∈ ns, ∃ x, m.label? = some x ∧ b < x) : larger b ns = ns := by
  have hall : ∀ m ∈ ns.reverse, m.label?.any (b < ·) = true := by
    intro m hm
    rcases h m (List.mem_reverse.1 hm) with ⟨x, hx, hlt⟩
    simp [hx, hlt]
  rw [larger, List.takeWhile_eq_self_iff.2 hall, List.reverse_reverse]

/-- A first child whose label is not larger is left out. -/
theorem larger_cons_of_not (ns : List (Node V)) (hlabel : n.label? = some c) (h : ¬ b < c) :
    larger b (n :: ns) = larger b ns := by
  have hlast : [n].takeWhile (fun m => m.label?.any (b < ·)) = [] := by
    simp [hlabel, h]
  rw [larger, larger, List.reverse_cons, List.takeWhile_append, hlast, List.append_nil]
  split
  · -- all others are taken up
    rename_i hlength
    rw [(List.takeWhile_prefix _).eq_of_length hlength]
  · rfl

/-- As far as both go, a chunk and a search are the same if one of them is a stem of the other. -/
theorem take_min_of_stem (shared : Key) {left right : Key} (h : left = [] ∨ right = []) :
    (shared ++ left).take (min (shared ++ left).length (shared ++ right).length) = shared ∧
      (shared ++ right).take (min (shared ++ left).length (shared ++ right).length) = shared := by
  rcases h with rfl | rfl <;> simp

/-! ### Upward -/

/-- What is put on the stack at a node hangs on where its chunk and the search part. -/
theorem framesAtLeast_eq (chunk : Key) (channel : Channel) (leaf : Option (Leaf V))
    (edges : List (Node V)) (search : Key) (stack : List (Frame V)) :
    (mk chunk channel leaf edges).framesAtLeast search stack =
      match Key.fork chunk search with
      | ⟨_, _, []⟩ => .node (mk chunk channel leaf edges) :: stack
      | ⟨_, c :: _, b :: _⟩ => if b < c then .node (mk chunk channel leaf edges) :: stack else stack
      | ⟨_, [], b :: rest⟩ =>
        framesAtLeastIn edges (b :: rest) (Frame.nodes (larger b edges) ++ stack) := by
  rcases Key.exists_fork chunk search with ⟨shared, left, right, hfork, rfl, rfl, hparted⟩
  rw [framesAtLeast, hfork]
  -- where one is a stem of the other, both go the same way, and the lengths decide
  rcases right with _ | ⟨b, rest⟩
  · have hsame := @take_min_of_stem shared left [] (.inr rfl)
    have hdrop : (shared ++ []).drop (shared ++ left).length = [] := by simp
    simp only [hsame, List.lt_irrefl, if_false, hdrop]
  · rcases left with _ | ⟨c, left⟩
    · have hsame := @take_min_of_stem shared [] (b :: rest) (.inl rfl)
      have hdrop : (shared ++ b :: rest).drop (shared ++ []).length = b :: rest := by simp
      simp only [hsame, List.lt_irrefl, if_false, hdrop]
    · have hne : c ≠ b := hparted c rfl b rfl
      have hlen : shared.length <
          min (shared ++ c :: left).length (shared ++ b :: rest).length := by simp
      simp only [Key.take_lt_take_iff hne.symm _ _ _ hlen, Key.take_lt_take_iff hne _ _ _ hlen]
      by_cases hbc : b < c
      · simp only [hbc, if_true]
      · have hcb : c < b := UInt8.lt_of_le_of_ne (UInt8.not_lt.1 hbc) hne
        simp only [hbc, hcb, if_true, if_false]

mutual

/-- Upward, the stack holds what a search for the leaves from a key upward finds. -/
theorem pending_framesAtLeast {path : Key} : ∀ (n : Node V) (search : Key) (stack : List (Frame V)),
    n.Wf (path ++ n.chunk) →
      (n.framesAtLeast search stack).flatMap Frame.leaves =
        n.atLeast search ++ stack.flatMap Frame.leaves
  | mk chunk channel leaf edges, search, stack, h => by
    simp only [chunk_mk, Wf] at h
    rw [atLeast, framesAtLeast_eq]
    rcases Key.fork chunk search with ⟨shared, left, right⟩
    rcases right with _ | ⟨b, rest⟩
    · rfl
    · rcases left with _ | ⟨c, left⟩
      · exact pending_framesAtLeastIn edges b rest stack h.2
      · by_cases hbc : b < c
        · simp [hbc, Frame.leaves]
        · simp [hbc]

theorem pending_framesAtLeastIn {path : Key} : ∀ (ns : List (Node V)) (b : UInt8) (rest : Key)
    (stack : List (Frame V)), WfEdges path ns →
      (framesAtLeastIn ns (b :: rest) (Frame.nodes (larger b ns) ++ stack)).flatMap Frame.leaves =
        atLeastIn ns b (b :: rest) ++ stack.flatMap Frame.leaves
  | [], b, rest, stack, _ => by simp [framesAtLeastIn, larger, Frame.nodes, atLeastIn]
  | n :: ns, b, rest, stack, h => by
    simp only [WfEdges] at h
    rcases h with ⟨hc, _, hn, hb, hns⟩
    rcases List.exists_cons_of_ne_nil hc with ⟨c, chunk, hchunk⟩
    have hlabel : n.label? = some c := by rw [label?, hchunk]; rfl
    have hbehind := exists_label_gt hns hb hlabel
    rw [atLeastIn, framesAtLeastIn, hlabel]
    simp only [List.head?_cons, Option.some.injEq]
    by_cases hcb : c = b
    · -- the search goes on in this child, and its siblings are above
      subst hcb
      rw [larger_cons_of_not ns hlabel (UInt8.lt_irrefl c), larger_of_all hbehind]
      simp only [if_true, UInt8.lt_irrefl, if_false]
      rw [pending_framesAtLeast n (c :: rest) _ hn]
      simp
    · simp only [hcb, if_false]
      by_cases hlt : c < b
      · -- this child is below the search
        rw [if_pos hlt, larger_cons_of_not ns hlabel (UInt8.not_lt.2 (UInt8.le_of_lt hlt))]
        exact pending_framesAtLeastIn ns b rest stack hns
      · -- this child and all behind it are above the search, and none goes the same way
        have hbc : b < c := UInt8.lt_of_le_of_ne (UInt8.not_lt.1 hlt) (Ne.symm hcb)
        have hall : ∀ m ∈ n :: ns, ∃ x, m.label? = some x ∧ b < x := by
          refine List.forall_mem_cons.2 ⟨⟨c, hlabel, hbc⟩, fun m hm => ?_⟩
          rcases hbehind m hm with ⟨x, hx, hcx⟩
          exact ⟨x, hx, UInt8.lt_trans hbc hcx⟩
        have hmiss : ∀ m ∈ ns, m.label? ≠ (b :: rest).head? := by
          intro m hm
          rcases hall m (List.mem_cons_of_mem n hm) with ⟨x, hx, hbx⟩
          simp [hx, (UInt8.ne_of_lt hbx).symm]
        rw [if_neg hlt, larger_of_all hall, framesAtLeastIn_of_label _ hmiss]
        simp

end

/-! ### Downward -/

/-- What is put on the stack at a node hangs on where its chunk and the search part. -/
theorem framesAtMost_eq (chunk : Key) (channel : Channel) (leaf : Option (Leaf V))
    (edges : List (Node V)) (search : Key) (stack : List (Frame V)) :
    (mk chunk channel leaf edges).framesAtMost search stack =
      match Key.fork chunk search with
      | ⟨_, c :: _, b :: _⟩ => if c < b then .node (mk chunk channel leaf edges) :: stack else stack
      | ⟨_, _ :: _, []⟩ => stack
      | ⟨_, [], []⟩ => leaf.toList.map .leaf ++ stack
      | ⟨_, [], b :: rest⟩ =>
        framesAtMostIn edges (b :: rest)
          ((Frame.nodes (smaller b edges)).reverse ++ (leaf.toList.map .leaf ++ stack)) := by
  rcases Key.exists_fork chunk search with ⟨shared, left, right, hfork, rfl, rfl, hparted⟩
  rw [framesAtMost, hfork]
  -- where one is a stem of the other, both go the same way, and the lengths decide
  rcases left with _ | ⟨c, left⟩
  · have hsame := @take_min_of_stem shared [] right (.inl rfl)
    have hlen : ¬ (shared ++ right).length < (shared ++ []).length := by simp
    have hdrop : (shared ++ right).drop (shared ++ []).length = right := by simp
    simp only [hsame, List.lt_irrefl, if_false, hlen, hdrop]
    cases right <;> rfl
  · rcases right with _ | ⟨b, rest⟩
    · have hsame := @take_min_of_stem shared (c :: left) [] (.inr rfl)
      have hlen : (shared ++ []).length < (shared ++ c :: left).length := by simp
      simp only [hsame, List.lt_irrefl, if_false, hlen, if_true]
    · have hne : c ≠ b := hparted c rfl b rfl
      have hlen : shared.length <
          min (shared ++ c :: left).length (shared ++ b :: rest).length := by simp
      simp only [Key.take_lt_take_iff hne.symm _ _ _ hlen, Key.take_lt_take_iff hne _ _ _ hlen]
      by_cases hcb : c < b
      · have hbc : ¬ b < c := UInt8.not_lt.2 (UInt8.le_of_lt hcb)
        simp only [hcb, hbc, if_true, if_false]
      · have hbc : b < c := UInt8.lt_of_le_of_ne (UInt8.not_lt.1 hcb) hne.symm
        simp only [hcb, hbc, if_true, if_false]

mutual

/-- Downward, the stack holds what a search for the leaves from a key downward finds. -/
theorem pending_framesAtMost {path : Key} : ∀ (n : Node V) (search : Key) (stack : List (Frame V)),
    n.Wf (path ++ n.chunk) →
      (n.framesAtMost search stack).flatMap Frame.leavesDown =
        n.atMost search ++ stack.flatMap Frame.leavesDown
  | mk chunk channel leaf edges, search, stack, h => by
    simp only [chunk_mk, Wf] at h
    rw [atMost, framesAtMost_eq]
    rcases Key.fork chunk search with ⟨shared, left, right⟩
    rcases left with _ | ⟨c, left⟩
    · rcases right with _ | ⟨b, rest⟩
      · simp
      · dsimp only
        rw [pending_framesAtMostIn edges b rest _ h.2]
        simp
    · rcases right with _ | ⟨b, rest⟩
      · rfl
      · by_cases hcb : c < b
        · simp [hcb, Frame.leavesDown]
        · simp [hcb]

theorem pending_framesAtMostIn {path : Key} : ∀ (ns : List (Node V)) (b : UInt8) (rest : Key)
    (stack : List (Frame V)), WfEdges path ns →
      (framesAtMostIn ns (b :: rest)
        ((Frame.nodes (smaller b ns)).reverse ++ stack)).flatMap Frame.leavesDown =
          atMostIn ns b (b :: rest) ++ stack.flatMap Frame.leavesDown
  | [], b, rest, stack, _ => by simp [framesAtMostIn, smaller, Frame.nodes, atMostIn]
  | n :: ns, b, rest, stack, h => by
    simp only [WfEdges] at h
    rcases h with ⟨hc, _, hn, hb, hns⟩
    rcases List.exists_cons_of_ne_nil hc with ⟨c, chunk, hchunk⟩
    have hlabel : n.label? = some c := by rw [label?, hchunk]; rfl
    have hbehind := exists_label_gt hns hb hlabel
    rw [atMostIn, framesAtMostIn, hlabel]
    simp only [List.head?_cons, Option.some.injEq]
    by_cases hcb : c = b
    · -- the search goes on in this child, and no sibling is below
      subst hcb
      have hnone : smaller c (n :: ns) = [] := by simp [smaller, hlabel]
      rw [hnone]
      simp only [if_true, UInt8.lt_irrefl, if_false]
      rw [pending_framesAtMost n (c :: rest) _ hn]
      simp [Frame.nodes]
    · simp only [hcb, if_false]
      by_cases hlt : c < b
      · -- this child is below the search, and comes after all that is found behind it
        have hcons : (Frame.nodes (smaller b (n :: ns))).reverse ++ stack =
            (Frame.nodes (smaller b ns)).reverse ++ (.node n :: stack) := by
          simp [smaller, hlabel, hlt, Frame.nodes]
        rw [if_pos hlt, hcons, pending_framesAtMostIn ns b rest _ hns]
        simp [Frame.leavesDown]
      · -- this child and all behind it are above the search
        have hbc : b < c := UInt8.lt_of_le_of_ne (UInt8.not_lt.1 hlt) (Ne.symm hcb)
        have hnone : smaller b (n :: ns) = [] := by simp [smaller, hlabel, hlt]
        have hmiss : ∀ m ∈ ns, m.label? ≠ (b :: rest).head? := by
          intro m hm
          rcases hbehind m hm with ⟨x, hx, hcx⟩
          simp [hx, (UInt8.ne_of_lt (UInt8.lt_trans hbc hcx)).symm]
        rw [if_neg hlt, hnone, framesAtMostIn_of_label _ hmiss]
        simp [Frame.nodes]

end

/-! ## The ends -/

mutual

/-- Below a well-formed node, the smallest leaf is the first one. -/
theorem first?_eq {path : Key} : ∀ n : Node V, n.Wf path → n.first? = n.leaves.head?
  | mk _ _ (some l) _, _ => by simp [first?, leaves]
  | mk _ _ none edges, h => by
    rw [first?, firstIn?_eq edges (wf_iff.1 h).2]
    simp [leaves]

theorem firstIn?_eq {path : Key} : ∀ ns : List (Node V), WfEdges path ns →
    firstIn? ns = (leavesOf ns).head?
  | [], _ => rfl
  | n :: ns, h => by
    have hn : n.Stands path := h.stands List.mem_cons_self
    have hne : n.leaves ≠ [] := leaves_ne_nil n hn.wf hn.full
    rw [firstIn?, first?_eq n hn.wf, leavesOf, List.head?_append_of_ne_nil n.leaves hne]

end

mutual

/-- Below a well-formed node, the largest leaf is the last one. -/
theorem last?_eq {path : Key} : ∀ n : Node V, n.Wf path → n.last? = n.leaves.getLast?
  | mk _ _ leaf edges, h => lastIn?_eq leaf edges (wf_iff.1 h).2

theorem lastIn?_eq {path : Key} (leaf : Option (Leaf V)) : ∀ ns : List (Node V), WfEdges path ns →
    lastIn? leaf ns = (leaf.toList ++ leavesOf ns).getLast?
  | [], _ => by cases leaf <;> simp [lastIn?, leavesOf]
  | [n], h => by
    have hn : n.Stands path := h.stands List.mem_cons_self
    have hne : n.leaves ≠ [] := leaves_ne_nil n hn.wf hn.full
    rw [lastIn?, last?_eq n hn.wf, leavesOf, leavesOf, List.append_nil,
      List.getLast?_append_of_ne_nil _ hne]
  | m :: n :: ns, h => by
    have hn : n.Stands path := h.stands (List.mem_cons_of_mem m List.mem_cons_self)
    have hne : leavesOf (n :: ns) ≠ [] := by
      simp [leavesOf, leaves_ne_nil n hn.wf hn.full]
    have hcons : leavesOf (m :: n :: ns) = m.leaves ++ leavesOf (n :: ns) := rfl
    rw [WfEdges] at h
    rw [lastIn?, lastIn?_eq leaf (n :: ns) h.2.2.2.2, hcons, ← List.append_assoc,
      List.getLast?_append_of_ne_nil _ hne, List.getLast?_append_of_ne_nil _ hne]

end

end Node

/-! ## The cursors of a tree -/

namespace Tree

variable {t : Tree V}

theorem visits_ascend (t : Tree V) : t.ascend.Visits t.leaves := by
  apply Cursor.visits_pending
  simp [ascend, Cursor.pending, Frame.leaves, leaves]

theorem visits_descend (t : Tree V) : t.descend.Visits t.leavesDown := by
  apply Cursor.visits_pending
  simp [descend, Cursor.pending, Frame.leavesDown, leavesDown]

/-- The cursor over a stem finds what a seek lists. -/
theorem visits_ascendOf (t : Tree V) (stem : Key) :
    (t.ascendOf stem).2.Visits (t.seek stem).2 ∧ (t.ascendOf stem).1 = (t.seek stem).1 := by
  rw [ascendOf, seek]
  rcases t.root.seek stem with ⟨channel, _ | n⟩
  · exact ⟨Cursor.visits_pending rfl, rfl⟩
  · refine ⟨Cursor.visits_pending ?_, rfl⟩
    simp [Cursor.pending, Frame.leaves]

theorem visits_descendOf (t : Tree V) (stem : Key) :
    (t.descendOf stem).2.Visits (t.seekDown stem).2 ∧
      (t.descendOf stem).1 = (t.seekDown stem).1 := by
  rw [descendOf, seekDown]
  rcases t.root.seek stem with ⟨channel, _ | n⟩
  · exact ⟨Cursor.visits_pending rfl, rfl⟩
  · refine ⟨Cursor.visits_pending ?_, rfl⟩
    simp [Cursor.pending, Frame.leavesDown]

/-- The cursor on the way to a key finds what a search from the key lists. -/
theorem Wf.visits_ascendFrom (h : t.Wf) (key : Key) :
    (t.ascendFrom key).Visits (t.atLeast key) := by
  have hroot : t.root.Wf ([] ++ t.root.chunk) := by
    rw [h.chunk]
    exact h.root
  have hframes := Node.pending_framesAtLeast t.root key [] hroot
  apply Cursor.visits_pending
  simpa [ascendFrom, Cursor.pending, atLeast] using hframes

theorem Wf.visits_descendFrom (h : t.Wf) (key : Key) :
    (t.descendFrom key).Visits (t.atMost key) := by
  have hroot : t.root.Wf ([] ++ t.root.chunk) := by
    rw [h.chunk]
    exact h.root
  have hframes := Node.pending_framesAtMost t.root key [] hroot
  apply Cursor.visits_pending
  simpa [descendFrom, Cursor.pending, atMost] using hframes

end Tree

/-! ## All trees -/

namespace Draft

variable {d : Draft V} {m : Catalog Key V}

/-- The leaves are those of a tree whose keys `p` holds of, each once and ascending, and what they
hold is what the map has at these keys. -/
structure Selects (t : Tree V) (m : Catalog Key V) (p : Key → Prop) [DecidablePred p]
    (ls : List (Leaf V)) : Prop where
  mem : ∀ l, l ∈ ls ↔ l ∈ t.leaves ∧ p l.key
  ascending : ls.Pairwise (·.key < ·.key)
  entries : ls.map Leaf.entry = m.filter (p ·.1)

/-- In a tree that edits lead to, a filter of the leaves by their keys is one of the map. -/
theorem Arises.selects (h : d.Arises m) (p : Key → Prop) [DecidablePred p] :
    Selects d.tree m p (d.tree.leaves.filter (p ·.key)) where
  mem l := by simp
  ascending := h.wf.pairwise_leaves.filter _
  entries := by
    rw [← h.entries_eq, Tree.entries, List.filter_map]
    rfl

/-- The cursors over a whole tree are complete. In every tree that edits of drafts lead to, the
cursor upward finds the entries that the map with the same past has, each once, in strictly
ascending order of the keys under which they were inserted; the cursor downward finds the same
ones in the opposite order. The smallest and the largest entry are the first and the last of
them, missing just if the tree is empty, and the size is their number. -/
theorem cursors_complete (h : d.Arises m) :
    ∃ ls : List (Leaf V), d.tree.ascend.Visits ls ∧ d.tree.descend.Visits ls.reverse ∧
      ls.Pairwise (·.key < ·.key) ∧ ls.map Leaf.entry = m ∧
      (∀ key l, d.tree.root.find? key = some l ↔ l ∈ ls ∧ l.key = key) ∧
      d.tree.first? = ls.head? ∧ d.tree.last? = ls.getLast? ∧
      (d.tree.first? = none ↔ d.tree.isEmpty = true) ∧
      (d.tree.last? = none ↔ d.tree.isEmpty = true) ∧
      d.tree.size = ls.length ∧ d.tree.leaves = ls ∧ d.tree.leavesDown = ls.reverse := by
  have hw := h.wf
  have hfirst : d.tree.first? = d.tree.leaves.head? := Node.first?_eq d.tree.root hw.root
  have hlast : d.tree.last? = d.tree.leaves.getLast? := Node.last?_eq d.tree.root hw.root
  have hempty : d.tree.isEmpty = true ↔ d.tree.leaves = [] := by
    rw [Tree.isEmpty, hw.size, beq_iff_eq, List.length_eq_zero_iff]
  refine ⟨d.tree.leaves, d.tree.visits_ascend, ?_, hw.pairwise_leaves, h.entries_eq, ?_, hfirst,
    hlast, ?_, ?_, hw.size, rfl, d.tree.leavesDown_eq⟩
  · exact d.tree.leavesDown_eq ▸ d.tree.visits_descend
  · intro key l
    exact hw.find?_eq_some_iff
  · rw [hfirst, List.head?_eq_none_iff, hempty]
  · rw [hlast, List.getLast?_eq_none_iff, hempty]

/-- Three keys of which one is empty and one is a stem of another one; a fourth one came and went,
so that an edge was split and joined again. -/
theorem cursors_complete_bytes :
    let d : Draft Nat := ((Tree.empty ⟨⟨0, 0, 0⟩, 0, .node⟩).edit ⟨1, 0, 0⟩).applyAll
      [.insert [0, 255, 0] 2, .insert [0, 254] 4, .insert [] 3, .insert [0, 255] 1, .erase [0, 254]]
    let m : Catalog Key Nat := [([], 3), ([0, 255], 1), ([0, 255, 0], 2)]
    d.Arises m ∧
      ∃ ls : List (Leaf Nat), d.tree.ascend.Visits ls ∧ d.tree.descend.Visits ls.reverse ∧
        ls.Pairwise (·.key < ·.key) ∧ ls.map Leaf.entry = m ∧
        (∀ key l, d.tree.root.find? key = some l ↔ l ∈ ls ∧ l.key = key) ∧
        d.tree.first? = ls.head? ∧ d.tree.last? = ls.getLast? ∧
        (d.tree.first? = none ↔ d.tree.isEmpty = true) ∧
        (d.tree.last? = none ↔ d.tree.isEmpty = true) ∧
        d.tree.size = ls.length ∧ d.tree.leaves = ls ∧ d.tree.leavesDown = ls.reverse := by
  intro d m
  have harises : d.Arises m := (Arises.empty _ _).applyAll _
  exact ⟨harises, cursors_complete harises⟩

/-- The cursors on the way to a key are exact. In every tree that edits of drafts lead to and for
every key, the cursor upward finds just the entries whose keys are not below it, ascending, and
the cursor downward just those whose keys are not above it, descending; and so do the searches
behind queries. -/
theorem cursors_from_key (h : d.Arises m) (key : Key) :
    ∃ above below : List (Leaf V),
      (d.tree.ascendFrom key).Visits above ∧ Selects d.tree m (key ≤ ·) above ∧
      (d.tree.descendFrom key).Visits below.reverse ∧ Selects d.tree m (· ≤ key) below ∧
      d.tree.atLeast key = above ∧ d.tree.atMost key = below.reverse := by
  have hatLeast := h.wf.atLeast_eq key
  have hatMost : d.tree.atMost key = (d.tree.leaves.filter (·.key ≤ key)).reverse := by
    rw [h.wf.atMost_eq key, d.tree.leavesDown_eq, List.filter_reverse]
  refine ⟨_, _, ?_, h.selects (key ≤ ·), ?_, h.selects (· ≤ key), hatLeast, hatMost⟩
  · rw [← hatLeast]
    exact h.wf.visits_ascendFrom key
  · rw [← hatMost]
    exact h.wf.visits_descendFrom key

/-- A key that goes on behind one of the entries and parts from the next one inside an edge. -/
theorem cursors_from_key_bytes :
    let d : Draft Nat := ((Tree.empty ⟨⟨0, 0, 0⟩, 0, .node⟩).edit ⟨1, 0, 0⟩).applyAll
      [.insert [1, 1] 0, .insert [1, 2, 3] 1, .insert [2] 2, .insert [2, 1] 3, .insert [3] 4]
    let m : Catalog Key Nat := [([1, 1], 0), ([1, 2, 3], 1), ([2], 2), ([2, 1], 3), ([3], 4)]
    d.Arises m ∧
      ∃ above below : List (Leaf Nat),
        (d.tree.ascendFrom [2, 0, 5]).Visits above ∧
        (d.tree.descendFrom [2, 0, 5]).Visits below.reverse ∧
        above.map Leaf.entry = [([2, 1], 3), ([3], 4)] ∧
        below.map Leaf.entry = [([1, 1], 0), ([1, 2, 3], 1), ([2], 2)] := by
  intro d m
  have harises : d.Arises m := (Arises.empty _ _).applyAll _
  rcases cursors_from_key harises [2, 0, 5] with ⟨above, below, hup, habove, hdown, hbelow, _⟩
  exact ⟨harises, above, below, hup, hdown, habove.entries, hbelow.entries⟩

/-- The cursors over a stem are exact. In every tree that edits of drafts lead to and for every
stem, the cursor upward finds just the entries whose keys start with the stem, ascending, and the
cursor downward the same ones, descending; both come with the same channel, and so do the seeks
behind queries. Every key starts with the empty stem. -/
theorem cursors_of_stem (h : d.Arises m) (stem : Key) :
    ∃ ls : List (Leaf V), Selects d.tree m (stem <+: ·) ls ∧
      (d.tree.ascendOf stem).2.Visits ls ∧ (d.tree.descendOf stem).2.Visits ls.reverse ∧
      (d.tree.ascendOf stem).1 = (d.tree.descendOf stem).1 ∧
      d.tree.seek stem = ((d.tree.ascendOf stem).1, ls) ∧
      d.tree.seekDown stem = ((d.tree.ascendOf stem).1, ls.reverse) ∧
      (stem = [] → ls = d.tree.leaves ∧ ls.map Leaf.entry = m) := by
  have hseek : (d.tree.seek stem).2 = d.tree.leaves.filter (stem <+: ·.key) := by
    rw [h.wf.seek_eq]
    refine List.filter_congr fun l _ => ?_
    rw [Bool.eq_iff_iff, Key.startsWith_iff, decide_eq_true_iff]
  rcases d.tree.visits_ascendOf stem with ⟨hup, hupchannel⟩
  rcases d.tree.visits_descendOf stem with ⟨hdown, hdownchannel⟩
  rw [d.tree.seekDown_eq stem] at hdown hdownchannel ⊢
  refine ⟨(d.tree.seek stem).2, hseek ▸ h.selects (stem <+: ·), hup, hdown,
    hupchannel.trans hdownchannel.symm, ?_, ?_, ?_⟩
  · rw [hupchannel]
  · rw [hupchannel]
  · rintro rfl
    have hall : (d.tree.seek []).2 = d.tree.leaves := by simp [hseek]
    exact ⟨hall, hall ▸ h.entries_eq⟩

/-- A stem that ends inside an edge behind which three of the entries stand. -/
theorem cursors_of_stem_bytes :
    let d : Draft Nat := ((Tree.empty ⟨⟨0, 0, 0⟩, 0, .node⟩).edit ⟨1, 0, 0⟩).applyAll
      [.insert [6, 7, 7] 0, .insert [6, 7, 7, 1] 1, .insert [6, 7, 2] 2, .insert [2, 1] 3]
    let m : Catalog Key Nat := [([2, 1], 3), ([6, 7, 2], 2), ([6, 7, 7], 0), ([6, 7, 7, 1], 1)]
    d.Arises m ∧
      ∃ ls : List (Leaf Nat), (d.tree.ascendOf [6]).2.Visits ls ∧
        (d.tree.descendOf [6]).2.Visits ls.reverse ∧
        (d.tree.ascendOf [6]).1 = (d.tree.descendOf [6]).1 ∧
        ls.map Leaf.entry = [([6, 7, 2], 2), ([6, 7, 7], 0), ([6, 7, 7, 1], 1)] := by
  intro d m
  have harises : d.Arises m := (Arises.empty _ _).applyAll _
  rcases cursors_of_stem harises [6] with ⟨ls, hls, hup, hdown, hchannel, _⟩
  exact ⟨harises, ls, hup, hdown, hchannel, hls.entries⟩

end Draft

end SnapStore
