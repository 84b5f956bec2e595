import SnapStore.Key
import SnapStore.Channel

/-! # Nodes of a radix tree

A node holds the chunk of key on the edge that leads to it, at most one leaf (the
entry whose key ends here), and its children, ascending by the first byte of their
chunks. The chunk of the root is empty. Nodes are values: an edit builds new nodes
and shares the rest.

Every function here reads. `leaves` is the view that the others are measured by:
`find?` and `watch` look one key up, `seek` finds the subtree of a stem, `first?` and
`last?` are its ends, `atLeast` and `atMost` its two halves around a key.
-/

namespace SnapStore

universe u

variable {V : Type u}

/-- An entry of a tree: a key with its value, and the channel that fires when this
entry is replaced or removed. -/
structure Leaf (V : Type u) where
  key : Key
  value : V
  channel : Channel
  deriving DecidableEq, Repr

/-- A node of a radix tree. -/
inductive Node (V : Type u) where
  | mk (chunk : Key) (channel : Channel) (leaf : Option (Leaf V)) (edges : List (Node V))

namespace Node

/-- The chunk of key on the edge that leads here. -/
def chunk : Node V → Key
  | mk chunk _ _ _ => chunk

/-- The channel that fires when this node is replaced. -/
def channel : Node V → Channel
  | mk _ channel _ _ => channel

/-- The entry whose key ends here. -/
def leaf : Node V → Option (Leaf V)
  | mk _ _ leaf _ => leaf

/-- The children, ascending by label. -/
def edges : Node V → List (Node V)
  | mk _ _ _ edges => edges

/-- The first byte of the chunk, which tells a node from its siblings. -/
def label? (n : Node V) : Option UInt8 :=
  n.chunk.head?

/-! ## Views -/

mutual

/-- The leaves of a subtree, in ascending order of their keys. -/
def leaves : Node V → List (Leaf V)
  | mk _ _ leaf edges => leaf.toList ++ leavesOf edges

/-- The leaves of several subtrees, one after another. -/
def leavesOf : List (Node V) → List (Leaf V)
  | [] => []
  | n :: ns => n.leaves ++ leavesOf ns

end

mutual

/-- The leaves of a subtree, in descending order of their keys. -/
def leavesDown : Node V → List (Leaf V)
  | mk _ _ leaf edges => leavesDownOf edges ++ leaf.toList

/-- The leaves of several subtrees, the last subtree first. -/
def leavesDownOf : List (Node V) → List (Leaf V)
  | [] => []
  | n :: ns => leavesDownOf ns ++ n.leavesDown

end

mutual

/-- The channels of a subtree: of the node, of its leaf, and of all below. -/
def channels : Node V → List Channel
  | mk _ channel leaf edges => channel :: (leaf.toList.map Leaf.channel ++ channelsOf edges)

/-- The channels of several subtrees. -/
def channelsOf : List (Node V) → List Channel
  | [] => []
  | n :: ns => n.channels ++ channelsOf ns

end

/-! ## One key -/

mutual

/-- The leaf that `search` leads to from here. -/
def find? : Node V → Key → Option (Leaf V)
  | mk _ _ leaf _, [] => leaf
  | mk _ _ _ edges, b :: rest => findIn? edges (b :: rest)

/-- The leaf that `search` leads to through one of the edges. -/
def findIn? : List (Node V) → Key → Option (Leaf V)
  | [], _ => none
  | n :: ns, search =>
    if n.label? = search.head? then
      match n.chunk.after? search with
      | none => none
      | some rest => n.find? rest
    else findIn? ns search

end

mutual

/-- The leaf that `search` leads to, with the closest channel that fires when the
entry for it changes: the leaf's own, or without a leaf the channel of the deepest
node on the way. -/
def watch : Node V → Key → Channel × Option (Leaf V)
  | mk _ channel none _, [] => (channel, none)
  | mk _ _ (some leaf) _, [] => (leaf.channel, some leaf)
  | mk _ channel _ edges, b :: rest => watchIn channel edges (b :: rest)

/-- Like `watch` through one of the edges of a node with the given channel. -/
def watchIn (channel : Channel) : List (Node V) → Key → Channel × Option (Leaf V)
  | [], _ => (channel, none)
  | n :: ns, search =>
    if n.label? = search.head? then
      match n.chunk.after? search with
      | none => (channel, none)
      | some rest => n.watch rest
    else watchIn channel ns search

end

/-! ## One stem -/

mutual

/-- The subtree that holds every key with the stem `search`, if some key has it, and
the channel that fires when an entry with this stem comes, goes or changes. -/
def seek : Node V → Key → Channel × Option (Node V)
  | n@(mk _ channel _ _), [] => (channel, some n)
  | mk _ channel _ edges, b :: rest => seekIn channel edges (b :: rest)

/-- Like `seek` through one of the edges of a node with the given channel. A stem
that ends inside an edge is held by the child behind it; one that parts from an edge
inside it would have to split that child. -/
def seekIn (channel : Channel) : List (Node V) → Key → Channel × Option (Node V)
  | [], _ => (channel, none)
  | n :: ns, search =>
    if n.label? = search.head? then
      match n.chunk.after? search with
      | some rest => n.seek rest
      | none => if n.chunk.startsWith search then (n.channel, some n) else (n.channel, none)
    else seekIn channel ns search

end

/-! ## The ends -/

mutual

/-- The leaf with the smallest key. -/
def first? : Node V → Option (Leaf V)
  | mk _ _ (some leaf) _ => some leaf
  | mk _ _ none edges => firstIn? edges

/-- The leaf with the smallest key of the first subtree. -/
def firstIn? : List (Node V) → Option (Leaf V)
  | [] => none
  | n :: _ => n.first?

end

mutual

/-- The leaf with the largest key. -/
def last? : Node V → Option (Leaf V)
  | mk _ _ leaf edges => lastIn? leaf edges

/-- The leaf with the largest key of the last subtree, or the given one if there is
no subtree. -/
def lastIn? (leaf : Option (Leaf V)) : List (Node V) → Option (Leaf V)
  | [] => leaf
  | [n] => n.last?
  | _ :: n :: ns => lastIn? leaf (n :: ns)

end

/-! ## The two sides of a key -/

mutual

/-- The leaves whose key, from this node's chunk on, is `search` or above it, in
ascending order. -/
def atLeast : Node V → Key → List (Leaf V)
  | n@(mk chunk _ _ edges), search =>
    match Key.fork chunk search with
    | ⟨_, _, []⟩ => n.leaves
    -- the subtree lies on one side of the search
    | ⟨_, c :: _, b :: _⟩ => if b < c then n.leaves else []
    -- the leaf here ends before the search does, so it lies below
    | ⟨_, [], b :: rest⟩ => atLeastIn edges b (b :: rest)

/-- The part of `atLeast` that lies behind the edges, for a search that starts with
the byte `b`. -/
def atLeastIn : List (Node V) → UInt8 → Key → List (Leaf V)
  | [], _, _ => []
  | n :: ns, b, search =>
    match n.label? with
    | none => atLeastIn ns b search
    | some c =>
      if c < b then atLeastIn ns b search
      else if c = b then n.atLeast search ++ leavesOf ns
      else leavesOf (n :: ns)

end

mutual

/-- The leaves whose key, from this node's chunk on, is `search` or below it, in
descending order. -/
def atMost : Node V → Key → List (Leaf V)
  | n@(mk chunk _ leaf edges), search =>
    match Key.fork chunk search with
    -- the subtree lies on one side of the search
    | ⟨_, c :: _, b :: _⟩ => if c < b then n.leavesDown else []
    -- every key here goes on behind the search
    | ⟨_, _ :: _, []⟩ => []
    | ⟨_, [], []⟩ => leaf.toList
    | ⟨_, [], b :: rest⟩ => atMostIn edges b (b :: rest) ++ leaf.toList

/-- The part of `atMost` that lies behind the edges, for a search that starts with
the byte `b`. -/
def atMostIn : List (Node V) → UInt8 → Key → List (Leaf V)
  | [], _, _ => []
  | n :: ns, b, search =>
    match n.label? with
    | none => atMostIn ns b search
    | some c =>
      if c < b then atMostIn ns b search ++ n.leavesDown
      else if c = b then n.atMost search
      else []

end

end Node

end SnapStore
