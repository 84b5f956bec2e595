import SnapStore.Radix.Tree

/-! # Cursors

A cursor visits the entries of a tree one at a time, upward or downward. It holds a stack
of what it has still to visit, the next thing first, and takes a node apart only when its
turn comes: upward the leaf comes before the children and the first child before the
others, downward the other way round. A cursor may start at the root, at the node of a
stem, or on the way to a key; then its stack holds what branches off the way on the side
that the cursor goes to. Nodes are values, so a cursor keeps its answers whatever becomes
of the tree.

Main statement: `weight_next` (every leaf that a cursor finds brings it closer to its end).
-/

namespace SnapStore

universe u

variable {V : Type u}

/-- What a cursor has still to visit: a whole subtree, or a leaf by itself. -/
inductive Frame (V : Type u) where
  | node (n : Node V)
  | leaf (l : Leaf V)

namespace Frame

/-- Several subtrees, one after another. -/
def nodes (ns : List (Node V)) : List (Frame V) :=
  ns.map node

/-- The channels of what is still to be visited. -/
def channels : Frame V → List Channel
  | node n => n.channels
  | leaf l => [l.channel]

/-- How many channels the frames of a stack have. Taking a node apart spends its own. -/
def weight : List (Frame V) → Nat
  | [] => 0
  | f :: stack => f.channels.length + weight stack

@[simp] theorem weight_nil : weight ([] : List (Frame V)) = 0 := rfl

@[simp] theorem weight_cons (f : Frame V) (stack : List (Frame V)) :
    weight (f :: stack) = f.channels.length + weight stack := rfl

@[simp] theorem weight_append (fs stack : List (Frame V)) :
    weight (fs ++ stack) = weight fs + weight stack := by
  induction fs with
  | nil => simp
  | cons f fs ih =>
    rw [List.cons_append, weight_cons, weight_cons, ih]
    omega

@[simp] theorem weight_reverse (fs : List (Frame V)) : weight fs.reverse = weight fs := by
  induction fs with
  | nil => rfl
  | cons f fs ih =>
    rw [List.reverse_cons, weight_append, ih, weight_cons, weight_cons, weight_nil]
    omega

@[simp] theorem weight_nodes (ns : List (Node V)) :
    weight (nodes ns) = (Node.channelsOf ns).length := by
  induction ns with
  | nil => rfl
  | cons n ns ih =>
    have hcons : nodes (n :: ns) = node n :: nodes ns := rfl
    simp [hcons, ih, channels, Node.channelsOf]

@[simp] theorem weight_map_leaf (leaf : Option (Leaf V)) :
    weight (leaf.toList.map Frame.leaf) = leaf.toList.length := by
  cases leaf <;> rfl

theorem length_channels_node (chunk : Key) (channel : Channel) (leaf : Option (Leaf V))
    (edges : List (Node V)) :
    (node (.mk chunk channel leaf edges)).channels.length =
      1 + leaf.toList.length + (Node.channelsOf edges).length := by
  simp [channels, Node.channels]
  omega

end Frame

/-! ## One leaf at a time -/

/-- A cursor: the frames still to visit, the next one first, and the direction in which
it visits what they hold. -/
inductive Cursor (V : Type u) where
  | up (stack : List (Frame V))
  | down (stack : List (Frame V))

namespace Cursor

/-- The first leaf on a stack, and the stack behind it. The leaf of a node comes before
its children. -/
def popUp : List (Frame V) → Option (Leaf V) × List (Frame V)
  | [] => (none, [])
  | .leaf l :: stack => (some l, stack)
  | .node (.mk _ _ (some l) edges) :: stack => (some l, Frame.nodes edges ++ stack)
  | .node (.mk _ _ none edges) :: stack => popUp (Frame.nodes edges ++ stack)
termination_by stack => Frame.weight stack
decreasing_by
  simp only [Frame.weight_append, Frame.weight_nodes, Frame.weight_cons,
    Frame.length_channels_node]
  omega

/-- The last leaf on a stack, and the stack before it. The leaf of a node waits below its
children, and of these the last one lies on top. -/
def popDown : List (Frame V) → Option (Leaf V) × List (Frame V)
  | [] => (none, [])
  | .leaf l :: stack => (some l, stack)
  | .node (.mk _ _ leaf edges) :: stack =>
    popDown ((Frame.nodes edges).reverse ++ (leaf.toList.map .leaf ++ stack))
termination_by stack => Frame.weight stack
decreasing_by
  simp only [Frame.weight_append, Frame.weight_reverse, Frame.weight_nodes,
    Frame.weight_map_leaf, Frame.weight_cons, Frame.length_channels_node]
  omega

/-- The next leaf, or none at the end, and the cursor behind it. -/
def next : Cursor V → Option (Leaf V) × Cursor V
  | up stack =>
    let (leaf, stack) := popUp stack
    (leaf, up stack)
  | down stack =>
    let (leaf, stack) := popDown stack
    (leaf, down stack)

/-- The answers of so many calls of `next`, and the cursor behind them. -/
def take : Nat → Cursor V → List (Option (Leaf V)) × Cursor V
  | 0, c => ([], c)
  | n + 1, c =>
    let (leaf, c) := c.next
    let (leaves, c) := take n c
    (leaf :: leaves, c)

/-- How many channels a cursor has still to pass. -/
def weight : Cursor V → Nat
  | up stack => Frame.weight stack
  | down stack => Frame.weight stack

theorem weight_popUp (stack : List (Frame V)) {l : Leaf V} (h : (popUp stack).1 = some l) :
    Frame.weight (popUp stack).2 < Frame.weight stack := by
  fun_induction popUp stack with
  | case1 => simp at h
  | case2 l' stack => simp [Frame.channels]
  | case3 _ _ l' edges stack =>
    simp only [Frame.weight_append, Frame.weight_nodes, Frame.weight_cons,
      Frame.length_channels_node]
    omega
  | case4 _ _ edges stack ih =>
    have hlt := ih h
    simp only [Frame.weight_append, Frame.weight_nodes, Frame.weight_cons,
      Frame.length_channels_node] at hlt ⊢
    omega

theorem weight_popDown (stack : List (Frame V)) {l : Leaf V} (h : (popDown stack).1 = some l) :
    Frame.weight (popDown stack).2 < Frame.weight stack := by
  fun_induction popDown stack with
  | case1 => simp at h
  | case2 l' stack => simp [Frame.channels]
  | case3 _ _ leaf edges stack ih =>
    have hlt := ih h
    simp only [Frame.weight_append, Frame.weight_reverse, Frame.weight_nodes,
      Frame.weight_map_leaf, Frame.weight_cons, Frame.length_channels_node] at hlt ⊢
    omega

/-- A call that finds a leaf comes closer to the end. -/
theorem weight_next {c c' : Cursor V} {l : Leaf V} (h : c.next = (some l, c')) :
    c'.weight < c.weight := by
  cases c with
  | up stack =>
    simp only [next, Prod.mk.injEq] at h
    rcases h with ⟨hl, rfl⟩
    exact weight_popUp stack hl
  | down stack =>
    simp only [next, Prod.mk.injEq] at h
    rcases h with ⟨hl, rfl⟩
    exact weight_popDown stack hl

/-- All leaves up to the first answer without one. -/
def toList (c : Cursor V) : List (Leaf V) :=
  match _h : c.next with
  | (none, _) => []
  | (some l, c') => l :: c'.toList
termination_by c.weight
decreasing_by exact weight_next _h

end Cursor

/-! ## On the way to a key -/

namespace Node

/-- The children at the end of the list whose labels are larger than a byte. -/
def larger (b : UInt8) (ns : List (Node V)) : List (Node V) :=
  (ns.reverse.takeWhile fun n => n.label?.any (b < ·)).reverse

/-- The children at the front of the list whose labels are smaller than a byte. -/
def smaller (b : UInt8) (ns : List (Node V)) : List (Node V) :=
  ns.takeWhile fun n => n.label?.any (· < b)

mutual

/-- Puts what is `search` or above it, from this node's chunk on, on top of a stack. -/
def framesAtLeast : Node V → Key → List (Frame V) → List (Frame V)
  | n@(mk chunk _ _ edges), search, stack =>
    -- chunk and search are compared as far as both go
    let len := min chunk.length search.length
    if search.take len < chunk.take len then .node n :: stack
    else if chunk.take len < search.take len then stack
    else
      match search.drop chunk.length with
      -- every key below goes on behind the search
      | [] => .node n :: stack
      -- the leaf here ends before the search does, so it is left out
      | b :: rest => framesAtLeastIn edges (b :: rest) (Frame.nodes (larger b edges) ++ stack)

/-- Goes on through the edge that the search takes, if there is one. -/
def framesAtLeastIn : List (Node V) → Key → List (Frame V) → List (Frame V)
  | [], _, stack => stack
  | n :: ns, search, stack =>
    if n.label? = search.head? then n.framesAtLeast search stack
    else framesAtLeastIn ns search stack

end

mutual

/-- Puts what is `search` or below it, from this node's chunk on, on top of a stack. -/
def framesAtMost : Node V → Key → List (Frame V) → List (Frame V)
  | n@(mk chunk _ leaf edges), search, stack =>
    let len := min chunk.length search.length
    if search.take len < chunk.take len then stack
    else if chunk.take len < search.take len then .node n :: stack
    -- every key below goes on behind the search
    else if search.length < chunk.length then stack
    else
      let stack := leaf.toList.map .leaf ++ stack
      match search.drop chunk.length with
      | [] => stack
      | b :: rest =>
        framesAtMostIn edges (b :: rest) ((Frame.nodes (smaller b edges)).reverse ++ stack)

/-- Goes on through the edge that the search takes, if there is one. -/
def framesAtMostIn : List (Node V) → Key → List (Frame V) → List (Frame V)
  | [], _, stack => stack
  | n :: ns, search, stack =>
    if n.label? = search.head? then n.framesAtMost search stack
    else framesAtMostIn ns search stack

end

end Node

/-! ## The cursors of a tree -/

namespace Tree

/-- The cursor over all entries, upward. -/
def ascend (t : Tree V) : Cursor V :=
  .up [.node t.root]

/-- The cursor over all entries, downward. -/
def descend (t : Tree V) : Cursor V :=
  .down [.node t.root]

/-- The cursor over the entries whose keys have a stem, upward, with the channel that
fires when something among them changes. -/
def ascendOf (t : Tree V) (stem : Key) : Channel × Cursor V :=
  match t.root.seek stem with
  | (channel, some n) => (channel, .up [.node n])
  | (channel, none) => (channel, .up [])

/-- Like `ascendOf`, downward. -/
def descendOf (t : Tree V) (stem : Key) : Channel × Cursor V :=
  match t.root.seek stem with
  | (channel, some n) => (channel, .down [.node n])
  | (channel, none) => (channel, .down [])

/-- The cursor over the entries from a key upward. -/
def ascendFrom (t : Tree V) (key : Key) : Cursor V :=
  .up (t.root.framesAtLeast key [])

/-- The cursor over the entries from a key downward. -/
def descendFrom (t : Tree V) (key : Key) : Cursor V :=
  .down (t.root.framesAtMost key [])

end Tree

end SnapStore
