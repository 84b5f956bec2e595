import SnapStore.Proofs.Radix.Descent

/-! # Edits by position

An edit by position copies the nodes on its way: a copy gets another child at a position, one more,
or one less, a chunk is cut where the search parts from it, and a node that is left with one child
only takes it over. In a well-formed tree none of these steps fails, the nested calls are as few as
the turns of a walk, and the edits of a node come out. Counting what goes never takes a size below
zero.

Main statements: `insert_eq`, `erase_eq` and `eraseStem_eq`, one for each edit of a node, and for
drafts `insertInto_eq`, `eraseFrom_eq` and `eraseStemFrom_eq`.
-/

namespace SnapStore

universe u v

variable {V : Type u} {α : Type v}

namespace Checked

/-! ## Insertion -/

/-- How far two keys go together. -/
def common (a b : Key) : Nat :=
  ((a.zip b).takeWhile fun p => p.1 == p.2).length

/-- Puts a child among others, in place of the one with its label. -/
def addEdge (ns : List (Node V)) (n : Node V) : Except Fault (List (Node V)) :=
  (label n).bind fun b =>
    (position ns b).bind fun
      | .found i => replace ns i n
      | .missing i => place ns i n

section Insertion

variable (s : Stamp) (key : Key) (value : V)

/-- The node in place of a child from whose chunk the search parts after `len` bytes. -/
def split (depth : Nat) (child : Node V) (search : Key) (len : Nat) : Except Fault (Node V) :=
  (upTo search len).bind fun shared =>
    (behind child.chunk len).bind fun left =>
      (addEdge [] (child.stub s depth left)).bind fun edges =>
        (behind search len).bind fun rest =>
          if rest.isEmpty then
            .ok (.mk shared (s.channel depth .fork) (some (Node.newLeaf s depth key value)) edges)
          else
            (addEdge edges (Node.twig s depth key value rest)).bind fun edges =>
              .ok (.mk shared (s.channel depth .fork) none edges)

/-- Puts a leaf where `search` ends, with so many nested calls at most, and answers with the value
that was there. -/
def insert : Nat → Nat → Node V → Key → Except Fault (Node V × Option V)
  | 0, _, _, _ => .error .unfinished
  | calls + 1, depth, n, search =>
    if search.isEmpty then
      .ok (.mk n.chunk (s.channel depth .node) (some (Node.newLeaf s depth key value)) n.edges,
        n.leaf.map Leaf.value)
    else
      (item search 0).bind fun b =>
        (position n.edges b).bind fun
          | .missing i =>
            (place n.edges i (Node.twig s depth key value search)).bind fun edges =>
              .ok (.mk n.chunk (s.channel depth .node) n.leaf edges, none)
          | .found i =>
            (item n.edges i).bind fun child =>
              let len := common search child.chunk
              if len = child.chunk.length then
                (behind search len).bind fun rest =>
                  (insert calls (depth + 1) child rest).bind fun e =>
                    (replace n.edges i e.1).bind fun edges =>
                      .ok (.mk n.chunk (s.channel depth .node) n.leaf edges, e.2)
              else
                (split s key value depth child search len).bind fun fork =>
                  (replace n.edges i fork).bind fun edges =>
                    .ok (.mk n.chunk (s.channel depth .node) n.leaf edges, none)

end Insertion

/-! ## Removal -/

section Removal

variable (s : Stamp)

/-- A node that takes over the only child it has. -/
def takeOver (chunk : Key) (channel : Channel) (edges : List (Node V)) :
    Except Fault (Node V) :=
  (item edges 0).bind fun child =>
    .ok (.mk (chunk ++ child.chunk) channel child.leaf child.edges)

/-- The copy of a node with what is left of the child at a position. Below the root, a copy
without a leaf takes over the only child that it may be left with. -/
def replaceEdge (depth : Nat) (n : Node V) (i : Nat) : Option (Node V) → Except Fault (Node V)
  | some child =>
    (replace n.edges i child).bind fun edges =>
      .ok (.mk n.chunk (s.channel depth .node) n.leaf edges)
  | none =>
    (remove n.edges i).bind fun edges =>
      if depth ≠ 0 ∧ edges.length = 1 ∧ n.leaf.isNone then
        takeOver n.chunk (s.channel depth .node) edges
      else .ok (.mk n.chunk (s.channel depth .node) n.leaf edges)

/-- Removes something behind the edge that a search takes: `tail` tells what is left of the search
behind a chunk, if it leads there, and `go` removes it from the child. -/
def removeBelow (tail : Key → Key → Except Fault (Option Key))
    (go : Node V → Key → Except Fault (Option (Option (Node V) × α))) (depth : Nat) (n : Node V)
    (search : Key) : Except Fault (Option (Option (Node V) × α)) :=
  (item search 0).bind fun b =>
    (position n.edges b).bind fun
      | .missing _ => .ok none
      | .found i =>
        (item n.edges i).bind fun child =>
          (tail child.chunk search).bind fun
            | none => .ok none
            | some rest =>
              (go child rest).bind fun
                | none => .ok none
                | some e =>
                  (replaceEdge s depth n i e.1).bind fun n' => .ok (some (some n', e.2))

/-- What is left of a key behind a chunk, if the key starts with it. -/
def keyBehind (chunk search : Key) : Except Fault (Option Key) :=
  if search.startsWith chunk then
    (behind search chunk.length).bind fun rest => .ok (some rest)
  else .ok none

/-- Removes the leaf that `search` leads to, with so many nested calls at most, and answers with
it; nothing if there is none. -/
def erase : Nat → Nat → Node V → Key → Except Fault (Option (Option (Node V) × Leaf V))
  | 0, _, _, _ => .error .unfinished
  | calls + 1, depth, n, search =>
    if search.isEmpty then
      match n.leaf with
      | none => .ok none
      | some leaf =>
        if depth ≠ 0 ∧ n.edges.isEmpty then .ok (some (none, leaf))
        else if depth ≠ 0 ∧ n.edges.length = 1 then
          (takeOver n.chunk (s.channel depth .node) n.edges).bind fun n' =>
            .ok (some (some n', leaf))
        else .ok (some (some (.mk n.chunk (s.channel depth .node) none n.edges), leaf))
    else
      removeBelow s keyBehind (fun child rest => erase calls (depth + 1) child rest) depth n search

mutual

/-- The number of leaves of a node, counted one by one. -/
def count : Node V → Nat
  | .mk _ _ leaf edges => leaf.toList.length + countOf edges

/-- The number of leaves of several nodes. -/
def countOf : List (Node V) → Nat
  | [] => 0
  | n :: ns => count n + countOf ns

end

/-- What is left of a stem behind a chunk: nothing is left if the stem ends inside the chunk, and
the stem leads elsewhere if it parts from it. -/
def stemBehind (chunk search : Key) : Except Fault (Option Key) :=
  if search.startsWith chunk then
    (behind search chunk.length).bind fun rest => .ok (some rest)
  else if chunk.startsWith search then
    (behind search search.length).bind fun rest => .ok (some rest)
  else .ok none

/-- Removes the subtree of every key with the stem `search`, with so many nested calls at most, and
answers with the number of its leaves; nothing if no node has such a key. -/
def eraseStem : Nat → Nat → Node V → Key → Except Fault (Option (Option (Node V) × Nat))
  | 0, _, _, _ => .error .unfinished
  | calls + 1, depth, n, search =>
    if search.isEmpty then .ok (some (none, count n))
    else
      removeBelow s stemBehind (fun child rest => eraseStem calls (depth + 1) child rest) depth n
        search

end Removal

/-! ## Drafts -/

/-- `Draft.insert` by position. -/
def insertInto (calls : Nat) (d : Draft V) (key : Key) (value : V) :
    Except Fault (Tree V × Option V) :=
  (insert d.stamp key value calls 0 d.tree.root key).bind fun e =>
    .ok (⟨e.1, if e.2.isNone then d.size + 1 else d.size⟩, e.2)

/-- `Draft.erase` by position. -/
def eraseFrom (calls : Nat) (d : Draft V) (key : Key) : Except Fault (Tree V × Option V) :=
  (erase d.stamp calls 0 d.tree.root key).bind fun
    | none => .ok (d.tree, none)
    | some e =>
      (minus d.size 1).bind fun size => .ok (⟨e.1.getD d.tree.root, size⟩, some e.2.value)

/-- `Draft.eraseStem` by position. -/
def eraseStemFrom (calls : Nat) (d : Draft V) (stem : Key) : Except Fault (Tree V × Bool) :=
  (eraseStem d.stamp calls 0 d.tree.root stem).bind fun
    | none => .ok (d.tree, false)
    | some e =>
      (minus d.size e.2).bind fun size => .ok (⟨d.rootOf e.1, size⟩, decide (0 < e.2))

/-! ## Edits of nodes, told by the place of a label -/

section Places

variable {s : Stamp} {depth : Nat} {n c : Node V} {front back : List (Node V)} {b : UInt8}
  {rest : Key}

theorem find?_eq_descend (n : Node V) (search : Key) :
    n.find? search = (Reader.watch.descend n search).2 := by
  rw [Reader.descend_watch, Node.watch_snd]

theorem find?_of_found (split : n.edges = front ++ c :: back) (hlabel : c.label? = some b)
    (hfront : Below b front) :
    n.find? (b :: rest) = (c.chunk.after? (b :: rest)).bind c.find? := by
  rw [find?_eq_descend, Reader.descend_of_found Reader.watch split hlabel hfront]
  cases c.chunk.after? (b :: rest) with
  | none => rfl
  | some tail => exact (find?_eq_descend c tail).symm

theorem find?_of_missing (split : n.edges = front ++ back) (hfront : Below b front)
    (hback : Above b back) : n.find? (b :: rest) = none := by
  rw [find?_eq_descend, Reader.descend_of_missing Reader.watch split hfront hback]
  rfl

/-- An insertion passes by siblings with smaller labels. -/
theorem insertIn_append {key : Key} {value : V} {parent : Channel} {search : Key}
    (hfront : Below b front) (ns : List (Node V)) :
    (Node.insertIn s key value depth parent (front ++ ns) b search).1 =
      front ++ (Node.insertIn s key value depth parent ns b search).1 := by
  induction front with
  | nil => rfl
  | cons m front ih =>
    rcases List.forall_mem_cons.1 hfront with ⟨⟨c, hc, hlt⟩, hfront⟩
    have hne : c ≠ b := UInt8.ne_of_lt hlt
    have hnotlt : ¬ b < c := UInt8.not_lt.2 (UInt8.le_of_lt hlt)
    simp only [List.cons_append, Node.insertIn, hc, if_neg hne, if_neg hnotlt, ih hfront]

/-- A new edge stands before all siblings with larger labels. -/
theorem insertIn_of_above {key : Key} {value : V} {parent : Channel} {search : Key}
    (hback : Above b back) :
    (Node.insertIn s key value depth parent back b search).1 =
      Node.twig s depth key value search :: back := by
  cases back with
  | nil => rfl
  | cons m back =>
    obtain ⟨c, hc, hlt⟩ := hback m List.mem_cons_self
    have hne : c ≠ b := (UInt8.ne_of_lt hlt).symm
    simp only [Node.insertIn, hc, if_neg hne, if_pos hlt]

theorem insert_of_missing {key : Key} {value : V} (split : n.edges = front ++ back)
    (hfront : Below b front) (hback : Above b back) :
    (n.insert s key value depth (b :: rest)).1 = .mk n.chunk (s.channel depth .node) n.leaf
      (front ++ Node.twig s depth key value (b :: rest) :: back) := by
  rcases n with ⟨chunk, channel, leaf, edges⟩
  obtain rfl : edges = front ++ back := split
  simp only [Node.insert, insertIn_append hfront, insertIn_of_above hback]
  rfl

/-- Behind a label, an insertion goes on at the child, or splits its edge. -/
theorem insert_of_found {key : Key} {value : V} (split : n.edges = front ++ c :: back)
    (hlabel : c.label? = some b) (hfront : Below b front) {shared left right : Key}
    (hfork : Key.fork c.chunk (b :: rest) = ⟨shared, left, right⟩) :
    (n.insert s key value depth (b :: rest)).1 = .mk n.chunk (s.channel depth .node) n.leaf
      (front ++ (if left.isEmpty then (c.insert s key value (depth + 1) right).1
        else c.split s depth key value ⟨shared, left, right⟩) :: back) := by
  rcases n with ⟨chunk, channel, leaf, edges⟩
  obtain rfl : edges = front ++ c :: back := split
  simp only [Node.insert, insertIn_append hfront, Node.insertIn, hlabel, if_true, hfork]
  cases left <;> rfl

/-- What passes by one sibling without the label of the search passes by several. -/
theorem append_of_cons {search : Key}
    {f : List (Node V) → Option (List (Node V) × List Channel)}
    (hcons : ∀ m ns, m.label? ≠ search.head? → f (m :: ns) = (f ns).map fun e => (m :: e.1, e.2))
    (hfront : ∀ m ∈ front, m.label? ≠ search.head?) (ns : List (Node V)) :
    f (front ++ ns) = (f ns).map fun e => (front ++ e.1, e.2) := by
  induction front with
  | nil => simp
  | cons m front ih =>
    rcases List.forall_mem_cons.1 hfront with ⟨hm, hfront⟩
    rw [List.cons_append, hcons m _ hm, ih hfront]
    cases f ns <;> rfl

theorem eraseIn_append {search : Key} (hfront : ∀ m ∈ front, m.label? ≠ search.head?)
    (ns : List (Node V)) :
    Node.eraseIn s depth (front ++ ns) search =
      (Node.eraseIn s depth ns search).map fun e => (front ++ e.1, e.2) := by
  refine append_of_cons (f := (Node.eraseIn s depth · search)) (fun m ns hm => ?_) hfront ns
  rw [Node.eraseIn, if_neg hm]
  cases Node.eraseIn s depth ns search <;> rfl

theorem eraseStemIn_append {search : Key} (hfront : ∀ m ∈ front, m.label? ≠ search.head?)
    (ns : List (Node V)) :
    Node.eraseStemIn s depth (front ++ ns) search =
      (Node.eraseStemIn s depth ns search).map fun e => (front ++ e.1, e.2) := by
  refine append_of_cons (f := (Node.eraseStemIn s depth · search)) (fun m ns hm => ?_) hfront ns
  rw [Node.eraseStemIn, if_neg hm]
  cases Node.eraseStemIn s depth ns search <;> rfl

/-- What a removal leaves of a node, with the leaf that goes. -/
def erased (s : Stamp) (depth : Nat) (n : Node V) (search : Key) :
    Option (Option (Node V) × Leaf V) :=
  (n.erase s depth search).bind fun e => (n.find? search).map fun l => (e.1, l)

theorem erased_of_found (split : n.edges = front ++ c :: back) (hlabel : c.label? = some b)
    (hfront : Below b front) :
    erased s depth n (b :: rest) =
      (c.chunk.after? (b :: rest)).bind fun tail => (erased s (depth + 1) c tail).map fun e =>
        ((Node.settle s depth n.chunk n.leaf (front ++ (e.1.toList ++ back))).1, e.2) := by
  have hhead : c.label? = (b :: rest).head? := hlabel
  rw [erased, find?_of_found split hlabel hfront]
  rcases n with ⟨chunk, channel, leaf, edges⟩
  obtain rfl : edges = front ++ c :: back := split
  rw [Node.erase, eraseIn_append hfront.ne, Node.eraseIn, if_pos hhead]
  cases c.chunk.after? (b :: rest) with
  | none => rfl
  | some tail =>
    simp only [erased, Option.bind_some]
    cases c.erase s (depth + 1) tail with
    | none => rfl
    | some e => cases c.find? tail <;> rfl

theorem erased_of_missing (split : n.edges = front ++ back) (hfront : Below b front)
    (hback : Above b back) : erased s depth n (b :: rest) = none := by
  rw [erased, find?_of_missing split hfront hback]
  cases n.erase s depth (b :: rest) <;> rfl

/-- What the removal of a stem leaves of a node, with the number of leaves that go. -/
def erasedStem (s : Stamp) (depth : Nat) (n : Node V) (stem : Key) :
    Option (Option (Node V) × Nat) :=
  (n.eraseStem s depth stem).map fun e => (e.1, (Node.found (n.seek stem)).length)

/-- What is left of a stem behind a chunk, if one of the two starts with the other. -/
def stemBehind? (chunk stem : Key) : Option Key :=
  match chunk.after? stem with
  | some rest => some rest
  | none => if chunk.startsWith stem then some [] else none

theorem length_of_stemBehind? {chunk stem rest : Key} (hchunk : chunk ≠ []) (hstem : stem ≠ [])
    (h : stemBehind? chunk stem = some rest) : rest.length < stem.length := by
  have hpos := List.length_pos_iff.2 hstem
  rw [stemBehind?] at h
  cases hafter : chunk.after? stem with
  | some tail =>
    obtain rfl : tail = rest := by simpa [hafter] using h
    exact Key.length_lt_of_after? hchunk hafter
  | none =>
    obtain ⟨_, rfl⟩ : chunk.startsWith stem = true ∧ [] = rest := by simpa [hafter] using h
    exact hpos

theorem erasedStem_nil (s : Stamp) (depth : Nat) (n : Node V) :
    erasedStem s depth n [] = some (none, n.leaves.length) := by
  rcases n with ⟨chunk, channel, leaf, edges⟩
  rfl

theorem erasedStem_of_found (split : n.edges = front ++ c :: back) (hlabel : c.label? = some b)
    (hfront : Below b front) :
    erasedStem s depth n (b :: rest) =
      (stemBehind? c.chunk (b :: rest)).bind fun tail => (erasedStem s (depth + 1) c tail).map
        fun e => ((Node.settle s depth n.chunk n.leaf (front ++ (e.1.toList ++ back))).1, e.2) := by
  have hhead : c.label? = (b :: rest).head? := hlabel
  have hseek : n.seek (b :: rest) =
      match c.chunk.after? (b :: rest) with
      | none => Reader.seek.part n.channel c (b :: rest)
      | some tail => c.seek tail := by
    rw [← Reader.descend_seek, Reader.descend_of_found Reader.seek split hlabel hfront]
    cases c.chunk.after? (b :: rest) with
    | none => rfl
    | some tail => exact Reader.descend_seek c tail
  rw [erasedStem, hseek, stemBehind?]
  rcases n with ⟨chunk, channel, leaf, edges⟩
  obtain rfl : edges = front ++ c :: back := split
  rw [Node.eraseStem, eraseStemIn_append hfront.ne, Node.eraseStemIn, if_pos hhead]
  cases c.chunk.after? (b :: rest) with
  | none =>
    cases hstem : c.chunk.startsWith (b :: rest) with
    | false => rfl
    | true => simp [erasedStem_nil, Node.found, Reader.seek, hstem]
  | some tail =>
    simp only [erasedStem, Option.bind_some]
    cases c.eraseStem s (depth + 1) tail <;> rfl

theorem erasedStem_of_missing (split : n.edges = front ++ back) (hfront : Below b front)
    (hback : Above b back) : erasedStem s depth n (b :: rest) = none := by
  have hseek : (n.seek (b :: rest)).2 = none := by
    rw [← Reader.descend_seek, Reader.descend_of_missing Reader.seek split hfront hback]
    rfl
  rw [erasedStem, (Node.eraseStem_eq_none_iff s n depth (b :: rest)).2 hseek]
  rfl

end Places

/-! ## Edits of nodes by position -/

theorem common_eq (a b : Key) : common b a = (Key.fork a b).shared.length := by
  fun_induction Key.fork a b with
  | case1 b => cases b <;> rfl
  | case2 a => rfl
  | case3 x a b f ih =>
    rw [common] at ih ⊢
    simp only [List.zip_cons_cons, List.takeWhile_cons, beq_self_eq_true, if_true,
      List.length_cons]
    exact congrArg (· + 1) ih
  | case4 x a y b hne => simp [common, Ne.symm hne]

theorem position_singleton {m : Node V} {a : UInt8} (h : m.label? = some a) (b : UInt8) :
    position [m] b =
      .ok (if a = b then .found 0 else if a < b then .missing 1 else .missing 0) := by
  have hturn : bisect [m] b (0, 1) = .ok
      (if a = b then .done (.found 0) else if a < b then .next (1, 1) else .next (0, 0)) :=
    bisect_eq [] [] Nat.zero_lt_one rfl h
  rw [position, List.length_singleton, loop, hturn]
  split
  · rfl
  · split <;> rfl

/-- A node put beside another one. -/
theorem addEdge_pair {m n : Node V} {a b : UInt8} (hm : m.label? = some a)
    (hn : n.label? = some b) (hne : a ≠ b) : addEdge [m] n = .ok (Node.pair m n) := by
  simp only [addEdge, label_eq_ok hn, position_singleton hm, ok_bind, if_neg hne, Node.pair, hm, hn]
  by_cases hlt : a < b
  · have hnotlt : ¬ b < a := UInt8.not_lt.2 (UInt8.le_of_lt hlt)
    rw [if_pos hlt, if_neg hnotlt]
    rfl
  · have hgt : b < a := UInt8.lt_of_le_of_ne (UInt8.not_lt.1 hlt) (Ne.symm hne)
    rw [if_neg hlt, if_pos hgt]
    rfl

theorem addEdge_nil {n : Node V} {b : UInt8} (hn : n.label? = some b) :
    addEdge [] n = .ok [n] := by
  rw [addEdge, label_eq_ok hn, ok_bind]
  rfl

section Insertion

variable {s : Stamp} {key : Key} {value : V}

theorem split_eq {depth : Nat} {child : Node V} {search shared left right : Key} {c : UInt8}
    (hfork : Key.fork child.chunk search = ⟨shared, c :: left, right⟩) :
    split s key value depth child search shared.length =
      .ok (child.split s depth key value ⟨shared, c :: left, right⟩) := by
  have hchunk : shared ++ c :: left = child.chunk := by
    simpa [hfork] using Key.fork_left child.chunk search
  have hsearch : shared ++ right = search := by
    simpa [hfork] using Key.fork_right child.chunk search
  have hparted := Key.fork_parted child.chunk search
  rw [hfork] at hparted
  have hstub : (child.stub s depth (c :: left)).label? = some c := rfl
  rw [split, ← hchunk, ← hsearch, upTo_append, ok_bind, behind_append, ok_bind,
    addEdge_nil hstub, ok_bind, behind_append, ok_bind]
  cases right with
  | nil => rfl
  | cons b right =>
    have htwig : (Node.twig s depth key value (b :: right)).label? = some b := rfl
    have hne : c ≠ b := hparted c rfl b rfl
    simp only [List.isEmpty_cons, Bool.false_eq_true, if_false, addEdge_pair hstub htwig hne,
      ok_bind]
    rfl

/-- A search that parts from a chunk does not start with it. -/
theorem after?_of_fork {chunk search shared left right : Key} {a : UInt8}
    (hfork : Key.fork chunk search = ⟨shared, a :: left, right⟩) : chunk.after? search = none := by
  cases hafter : chunk.after? search with
  | none => rfl
  | some tail =>
    have hnil : (Key.fork chunk search).left = [] :=
      Key.fork_left_eq_nil_iff.2 ⟨tail, (Key.after?_eq_some_iff.1 hafter).symm⟩
    rw [hfork] at hnil
    cases hnil

/-- An insertion by position does not fail, and inserts. -/
theorem insert_eq {calls : Nat} : ∀ {n : Node V} {path search : Key} {depth : Nat}, n.Wf path →
    min n.height search.length < calls →
      insert s key value calls depth n search =
        .ok ((n.insert s key value depth search).1, (n.find? search).map Leaf.value) := by
  -- a nested call is made at a child, with less of the search
  induction calls with
  | zero =>
    intro n path search depth _ hlt
    omega
  | succ calls ih =>
    intro n path search depth h hlt
    have hedges : Node.WfEdges path n.edges := (Node.wf_iff.1 h).2
    rw [insert]
    cases search with
    | nil =>
      cases n
      rfl
    | cons b rest =>
      obtain ⟨p, hp, haround⟩ := exists_place hedges b
      simp only [List.isEmpty_cons, Bool.false_eq_true, if_false, item_cons_zero, ok_bind, hp]
      cases haround with
      | @missing front back split below above =>
        rw [find?_of_missing split below above, insert_of_missing split below above]
        simp only [split, place_append, ok_bind]
        rfl
      | @found front back c split hlabel below above =>
        obtain ⟨hstands, hheight⟩ := h.child split
        obtain ⟨shared, left, right, hfork, hleft, hright, _⟩ := Key.exists_fork c.chunk (b :: rest)
        rw [find?_of_found split hlabel below, insert_of_found split hlabel below hfork]
        simp only [split, item_append, ok_bind, common_eq, hfork]
        cases left with
        | nil =>
          -- the search goes on below this child
          obtain rfl : shared = c.chunk := by simpa using hleft
          have hafter := Key.after?_eq_some_iff.2 hright.symm
          have hlength := Key.length_lt_of_after? hstands.chunk_ne_nil hafter
          have hcloser : min c.height right.length < calls := by omega
          rw [behind_of_after? hafter, ok_bind, ih hstands.wf hcloser, hafter]
          simp only [if_true, ok_bind, replace_append]
          rfl
        | cons a left =>
          -- the search parts from the edge, or ends inside it
          have hlonger : shared.length ≠ c.chunk.length := by
            have hlength := congrArg List.length hleft
            rw [List.length_append, List.length_cons] at hlength
            omega
          rw [after?_of_fork hfork]
          simp only [if_neg hlonger, split_eq hfork, ok_bind, replace_append]
          rfl

end Insertion

section Removal

variable {s : Stamp}

theorem settle_of_full {depth : Nat} {chunk : Key} {leaf : Option (Leaf V)}
    {edges : List (Node V)} (h : depth = 0 ∨ leaf.isSome = true ∨ 2 ≤ edges.length) :
    (Node.settle s depth chunk leaf edges).1 =
      some (.mk chunk (s.channel depth .node) leaf edges) := by
  cases depth with
  | zero => rw [Node.settle_root]
  | succ depth =>
    cases leaf with
    | some leaf => rfl
    | none =>
      match edges, h with
      | [], h => simp at h
      | [c], h => simp at h
      | _ :: _ :: _, _ => rfl

/-- A child can be replaced or removed by position: its parent is the root, or has something
besides it. -/
theorem replaceEdge_eq {depth : Nat} {n c : Node V} {front back : List (Node V)}
    (hfull : depth = 0 ∨ n.Full) (split : n.edges = front ++ c :: back) (n' : Option (Node V)) :
    ∃ m, replaceEdge s depth n front.length n' = .ok m ∧
      (Node.settle s depth n.chunk n.leaf (front ++ (n'.toList ++ back))).1 = some m := by
  have hlength := congrArg List.length split
  rw [List.length_append, List.length_cons] at hlength
  cases n' with
  | some child =>
    have hreplace : replaceEdge s depth n front.length (some child) =
        .ok (.mk n.chunk (s.channel depth .node) n.leaf (front ++ child :: back)) := by
      rw [replaceEdge, split, replace_append, ok_bind]
    refine ⟨_, hreplace, settle_of_full ?_⟩
    rcases hfull with hroot | hleaf | hmany
    · exact .inl hroot
    · exact .inr (.inl hleaf)
    · refine .inr (.inr ?_)
      simp only [Option.toList_some, List.length_append, List.length_cons, List.length_nil]
      omega
  | none =>
    simp only [replaceEdge, split, remove_append, ok_bind, Option.toList_none, List.nil_append]
    by_cases hone : depth ≠ 0 ∧ (front ++ back).length = 1 ∧ n.leaf.isNone = true
    · -- the only child that is left is taken over
      obtain ⟨hdepth, hlen, hleaf⟩ := hone
      obtain ⟨depth, rfl⟩ := Nat.exists_eq_succ_of_ne_zero hdepth
      obtain ⟨child, hchild⟩ := List.length_eq_one_iff.1 hlen
      rw [if_pos ⟨hdepth, hlen, hleaf⟩, hchild, Option.isNone_iff_eq_none.1 hleaf]
      exact ⟨_, rfl, rfl⟩
    · rw [if_neg hone]
      refine ⟨_, rfl, settle_of_full ?_⟩
      by_cases hdepth : depth = 0
      · exact .inl hdepth
      · refine .inr ?_
        cases hleaf : n.leaf with
        | some leaf => exact .inl rfl
        | none =>
          have hmany : 2 ≤ n.edges.length := by simpa [hdepth, Node.Full, hleaf] using hfull
          have hnone : n.leaf.isNone = true := Option.isNone_iff_eq_none.2 hleaf
          have hlen : (front ++ back).length ≠ 1 := fun hlen => hone ⟨hdepth, hlen, hnone⟩
          rw [List.length_append] at hlen ⊢
          exact .inr (by omega)

/-- Behind an edge, a removal by position does not fail if it does not fail at the child. What it
comes to is told by what the place of the label tells of the siblings. -/
theorem removeBelow_eq {tail : Key → Key → Except Fault (Option Key)}
    {tail? : Key → Key → Option Key}
    {go : Node V → Key → Except Fault (Option (Option (Node V) × α))}
    {gone : Node V → Key → Option (Option (Node V) × α)} {depth : Nat} {n : Node V}
    {path rest : Key} {b : UInt8} {result : Option (Option (Node V) × α)} (h : n.Wf path)
    (hfull : depth = 0 ∨ n.Full)
    (htail : ∀ chunk search, tail chunk search = .ok (tail? chunk search))
    (hgo : ∀ c search, c.Stands path → c.height < n.height →
      tail? c.chunk (b :: rest) = some search → go c search = .ok (gone c search))
    (hmissing : ∀ front back, n.edges = front ++ back → Below b front → Above b back →
      result = none)
    (hfound : ∀ front c back, n.edges = front ++ c :: back → c.label? = some b → Below b front →
      result = (tail? c.chunk (b :: rest)).bind fun search => (gone c search).map fun e =>
        ((Node.settle s depth n.chunk n.leaf (front ++ (e.1.toList ++ back))).1, e.2)) :
    removeBelow s tail go depth n (b :: rest) = .ok result := by
  obtain ⟨p, hp, haround⟩ := exists_place (Node.wf_iff.1 h).2 b
  rw [removeBelow, item_cons_zero, ok_bind, hp, ok_bind]
  cases haround with
  | missing split below above => rw [hmissing _ _ split below above]
  | @found front back c split hlabel below above =>
    obtain ⟨hstands, hheight⟩ := h.child split
    have hitem : item n.edges front.length = .ok c := by rw [split, item_append]
    simp only [hitem, ok_bind, htail, hfound front c back split hlabel below]
    cases hsearch : tail? c.chunk (b :: rest) with
    | none => rfl
    | some search =>
      simp only [hgo c search hstands hheight hsearch, ok_bind, Option.bind_some]
      cases gone c search with
      | none => rfl
      | some e =>
        obtain ⟨m, hreplace, hsettle⟩ := replaceEdge_eq (s := s) hfull split e.1
        simp only [hreplace, ok_bind, Option.map_some, hsettle]

theorem keyBehind_eq (chunk search : Key) :
    keyBehind chunk search = .ok (chunk.after? search) := by
  rw [keyBehind]
  cases hafter : chunk.after? search with
  | none =>
    rw [startsWith_of_none hafter]
    rfl
  | some rest => rw [startsWith_of_some hafter, if_pos rfl, behind_of_after? hafter, ok_bind]

theorem stemBehind_eq (chunk search : Key) :
    stemBehind chunk search = .ok (stemBehind? chunk search) := by
  have hend : behind search search.length = .ok [] := by
    rw [behind_of_le (Nat.le_refl _), List.drop_length]
  rw [stemBehind, stemBehind?]
  cases hafter : chunk.after? search with
  | some rest =>
    rw [startsWith_of_some hafter, if_pos rfl, behind_of_after? hafter, ok_bind]
  | none =>
    rw [startsWith_of_none hafter, hend]
    cases chunk.startsWith search <;> rfl

/-- A removal by position does not fail, and removes. -/
theorem erase_eq {calls : Nat} : ∀ {n : Node V} {path search : Key} {depth : Nat}, n.Wf path →
    depth = 0 ∨ n.Full → min n.height search.length < calls →
      erase s calls depth n search = .ok (erased s depth n search) := by
  induction calls with
  | zero =>
    intro n path search depth _ _ hlt
    omega
  | succ calls ih =>
    intro n path search depth h hfull hlt
    rw [erase]
    cases search with
    | nil =>
      rcases n with ⟨chunk, channel, leaf, edges⟩
      cases leaf with
      | none => rfl
      | some leaf =>
        -- the root stays; another node goes with its last child, or takes it over
        match depth, edges with
        | 0, _ => rfl
        | _ + 1, [] => rfl
        | _ + 1, [_] => rfl
        | _ + 1, _ :: _ :: _ => rfl
    | cons b rest =>
      refine removeBelow_eq h hfull keyBehind_eq ?_ (fun _ _ => erased_of_missing)
        (fun _ _ _ => erased_of_found)
      intro c tail hstands hheight htail
      have hlength := Key.length_lt_of_after? hstands.chunk_ne_nil htail
      exact ih hstands.wf (.inr hstands.full) (by omega)

mutual

/-- The leaves counted one by one are the leaves listed. -/
theorem count_eq : ∀ n : Node V, count n = n.leaves.length
  | .mk _ _ leaf edges => by rw [count, Node.leaves, List.length_append, countOf_eq edges]

theorem countOf_eq : ∀ ns : List (Node V), countOf ns = (Node.leavesOf ns).length
  | [] => rfl
  | n :: ns => by rw [countOf, Node.leavesOf, List.length_append, count_eq n, countOf_eq ns]

end

/-- A removal of a stem by position does not fail, and removes as many leaves as it says. -/
theorem eraseStem_eq {calls : Nat} : ∀ {n : Node V} {path search : Key} {depth : Nat}, n.Wf path →
    depth = 0 ∨ n.Full → min n.height search.length < calls →
      eraseStem s calls depth n search = .ok (erasedStem s depth n search) := by
  induction calls with
  | zero =>
    intro n path search depth _ _ hlt
    omega
  | succ calls ih =>
    intro n path search depth h hfull hlt
    rw [eraseStem]
    cases search with
    | nil =>
      rw [erasedStem_nil, count_eq]
      rfl
    | cons b rest =>
      refine removeBelow_eq h hfull stemBehind_eq ?_ (fun _ _ => erasedStem_of_missing)
        (fun _ _ _ => erasedStem_of_found)
      intro c tail hstands hheight htail
      have hlength := length_of_stemBehind? hstands.chunk_ne_nil (List.cons_ne_nil b rest) htail
      exact ih hstands.wf (.inr hstands.full) (by omega)

end Removal

/-! ## Edits of drafts by position -/

section Drafts

variable {calls : Nat} {d : Draft V} {key : Key}

/-- An insertion into a draft by position does not fail, and comes to what the draft comes to. -/
theorem insertInto_eq (h : d.tree.Wf) (hlt : min d.tree.root.height key.length < calls)
    (value : V) :
    insertInto calls d key value = .ok ((d.insert key value).1.tree, (d.insert key value).2) := by
  rw [insertInto, insert_eq h.root hlt, ok_bind, Draft.insert, Draft.get?, Tree.get?]
  cases d.tree.root.find? key <;> rfl

/-- A removal from a draft by position does not fail: there is an entry to be taken off the size. -/
theorem eraseFrom_eq (h : d.tree.Wf) (hlt : min d.tree.root.height key.length < calls) :
    eraseFrom calls d key = .ok ((d.erase key).1.tree, (d.erase key).2) := by
  rw [eraseFrom, erase_eq h.root (.inl rfl) hlt, ok_bind, Draft.erase_snd, Draft.erase, erased,
    Draft.get?, Tree.get?]
  cases hfind : d.tree.root.find? key with
  | none =>
    rw [(Node.erase_eq_none_iff d.stamp d.tree.root 0 key).2 hfind]
    rfl
  | some leaf =>
    have hsome : d.tree.root.erase d.stamp 0 key ≠ none := by
      rw [ne_eq, Node.erase_eq_none_iff, hfind]
      exact Option.some_ne_none leaf
    obtain ⟨r, hr⟩ := Option.ne_none_iff_exists'.1 hsome
    -- the root stays, whatever is left below it
    obtain ⟨_, _, hroot, _⟩ := Node.exists_settle_of_erase d.stamp _ 0 key r h.root hr
    rw [Node.settle_root] at hroot
    have hsize : 1 ≤ d.size := by
      have hmem : leaf ∈ d.tree.leaves := (h.find?_eq_some_iff.1 hfind).1
      rw [Draft.size, h.size]
      exact List.length_pos_of_mem hmem
    simp only [hr, Option.bind_some, Option.map_some, minus_of_le hsize, ok_bind, hroot,
      Draft.tree_after, Draft.rootOf, Option.getD_some]

-- a size that has not counted the entry would fall below zero
example :
    let channel : Channel := ⟨⟨0, 0, 0⟩, 0, .node⟩
    let t : Tree Nat := ⟨.mk [] channel (some ⟨[], 5, channel⟩) [], 0⟩
    eraseFrom 1 (t.edit ⟨1, 0, 0⟩) [] = .error .underflow := rfl

/-- A removal of a stem from a draft by position does not fail: all leaves below it are entries
of the draft, which its size has counted. -/
theorem eraseStemFrom_eq (h : d.tree.Wf) (hlt : min d.tree.root.height key.length < calls) :
    eraseStemFrom calls d key = .ok ((d.eraseStem key).1.tree, (d.eraseStem key).2) := by
  have hfound : Node.found (d.tree.root.seek key) = (d.tree.seek key).2 := by
    rw [Tree.seek_eq_root, Node.found]
  have hsize : (d.tree.seek key).2.length ≤ d.size := by
    rw [h.seek_eq, Draft.size, h.size]
    exact List.length_filter_le _ _
  rw [eraseStemFrom, eraseStem_eq h.root (.inl rfl) hlt, ok_bind, Draft.eraseStem, erasedStem,
    hfound]
  cases d.tree.root.eraseStem d.stamp 0 key with
  | none => rfl
  | some r =>
    simp only [Option.map_some, minus_of_le hsize, ok_bind, Draft.tree_after]
    cases (d.tree.seek key).2 <;> rfl

end Drafts

end Checked

end SnapStore
