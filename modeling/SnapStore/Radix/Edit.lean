import SnapStore.Radix.Node

/-! # Edits of a radix tree

An edit copies the nodes from the root to the change and shares all others. Each
edit answers with the new node and with the channels of the nodes and leaves that it
replaced, so that whoever publishes the result knows whom to tell. Its own new
channels come from its stamp and the depth of their owners; the root has depth 0.

A node below the root that is left without a leaf disappears if it has no child and
joins its child if it has just one (`settle`); so the shape of a tree follows from
its entries alone.
-/

namespace SnapStore

universe u

variable {V : Type u}

namespace Node

/-! ## Building nodes -/

/-- A new leaf, made at the given depth. -/
def newLeaf (s : Stamp) (depth : Nat) (key : Key) (value : V) : Leaf V :=
  ⟨key, value, s.channel depth .leaf⟩

/-- A new node that holds nothing but a new leaf. -/
def twig (s : Stamp) (depth : Nat) (key : Key) (value : V) (chunk : Key) : Node V :=
  mk chunk (s.channel depth .twig) (some (newLeaf s depth key value)) []

/-- The copy of a node with the rest of its chunk, after its edge was split. -/
def stub (s : Stamp) (depth : Nat) (n : Node V) (chunk : Key) : Node V :=
  mk chunk (s.channel depth .stub) n.leaf n.edges

/-- Two nodes, ascending by their labels. -/
def pair (m n : Node V) : List (Node V) :=
  match m.label?, n.label? with
  | some a, some b => if b < a then [n, m] else [m, n]
  | _, _ => [m, n]

/-- Splits the edge of `n` where the new key leaves it. `f` is the fork of the chunk
of `n` and the search: the shared part leads to a new node, which holds the rest of
`n` and, either itself or in a twig, the new leaf. -/
def split (s : Stamp) (depth : Nat) (key : Key) (value : V) (n : Node V) (f : Key.Fork) :
    Node V :=
  match f.right with
  | [] =>
    mk f.shared (s.channel depth .fork) (some (newLeaf s depth key value))
      [n.stub s depth f.left]
  | rest@(_ :: _) =>
    mk f.shared (s.channel depth .fork) none
      (pair (n.stub s depth f.left) (twig s depth key value rest))

/-! ## Insertion -/

mutual

/-- Puts a leaf where `search` ends, replacing the one that stands there. -/
def insert (s : Stamp) (key : Key) (value : V) (depth : Nat) :
    Node V → Key → Node V × List Channel
  | mk chunk channel leaf edges, [] =>
    (mk chunk (s.channel depth .node) (some (newLeaf s depth key value)) edges,
      leaf.toList.map Leaf.channel ++ [channel])
  | mk chunk channel leaf edges, b :: rest =>
    let e := insertIn s key value depth channel edges b (b :: rest)
    (mk chunk (s.channel depth .node) leaf e.1, e.2)

/-- Puts a leaf behind one of the edges of a node at the given depth, for a search
that starts with the byte `b`: behind the edge with this label, splitting it if the
search leaves it midway, or behind a new edge in its place among the others. The node
itself, whose channel is `parent`, is replaced after a child that the search goes on
below, and before one whose edge is split. -/
def insertIn (s : Stamp) (key : Key) (value : V) (depth : Nat) (parent : Channel) :
    List (Node V) → UInt8 → Key → List (Node V) × List Channel
  | [], _, search => ([twig s depth key value search], [parent])
  | n :: ns, b, search =>
    match n.label? with
    | none =>
      let e := insertIn s key value depth parent ns b search
      (n :: e.1, e.2)
    | some c =>
      if c = b then
        match Key.fork n.chunk search with
        | ⟨_, [], rest⟩ =>
          -- the search goes on below this child
          let e := n.insert s key value (depth + 1) rest
          (e.1 :: ns, e.2 ++ [parent])
        | f@⟨_, _ :: _, _⟩ =>
          -- the search leaves the edge midway, or ends there
          (n.split s depth key value f :: ns, [parent, n.channel])
      else if b < c then
        -- no edge has this label, and all from here on have a greater one
        (twig s depth key value search :: n :: ns, [parent])
      else
        let e := insertIn s key value depth parent ns b search
        (n :: e.1, e.2)

end

/-! ## Removal -/

/-- The copy of a node at the given depth with a new leaf and new children. Below the
root, one without a leaf disappears if it has no child, and joins its child if it has
just one; the child is then replaced too. -/
def settle (s : Stamp) (depth : Nat) (chunk : Key) (leaf : Option (Leaf V))
    (edges : List (Node V)) : Option (Node V) × List Channel :=
  match depth, leaf, edges with
  | _ + 1, none, [] => (none, [])
  | _ + 1, none, [n] =>
    -- the chunks of both edges become one
    (some (mk (chunk ++ n.chunk) (s.channel depth .node) n.leaf n.edges), [n.channel])
  | _, leaf, edges => (some (mk chunk (s.channel depth .node) leaf edges), [])

mutual

/-- Removes the leaf that `search` leads to; nothing if there is none. -/
def erase (s : Stamp) (depth : Nat) : Node V → Key → Option (Option (Node V) × List Channel)
  | mk _ _ none _, [] => none
  | mk chunk channel (some leaf) edges, [] =>
    let e := settle s depth chunk none edges
    some (e.1, [leaf.channel, channel] ++ e.2)
  | mk chunk channel leaf edges, b :: rest =>
    match eraseIn s depth edges (b :: rest) with
    | none => none
    | some (edges', displaced) =>
      let e := settle s depth chunk leaf edges'
      some (e.1, displaced ++ [channel] ++ e.2)

/-- Removes the leaf that `search` leads to through one of the edges of a node at the
given depth; nothing if there is none. -/
def eraseIn (s : Stamp) (depth : Nat) :
    List (Node V) → Key → Option (List (Node V) × List Channel)
  | [], _ => none
  | n :: ns, search =>
    if n.label? = search.head? then
      match n.chunk.after? search with
      | none => none
      | some rest =>
        match n.erase s (depth + 1) rest with
        | none => none
        | some (n', displaced) => some (n'.toList ++ ns, displaced)
    else
      match eraseIn s depth ns search with
      | none => none
      | some (ns', displaced) => some (n :: ns', displaced)

end

mutual

/-- Removes the subtree of every key with the stem `search`; nothing if no node has
one. The whole node goes if the stem is empty, also if it is the root. -/
def eraseStem (s : Stamp) (depth : Nat) :
    Node V → Key → Option (Option (Node V) × List Channel)
  | n@(mk _ _ _ _), [] => some (none, n.channels)
  | mk chunk channel leaf edges, b :: rest =>
    match eraseStemIn s depth edges (b :: rest) with
    | none => none
    | some (edges', displaced) =>
      let e := settle s depth chunk leaf edges'
      some (e.1, displaced ++ [channel] ++ e.2)

/-- Removes the subtree of every key with the stem `search` behind one of the edges
of a node at the given depth. A stem that ends inside an edge takes the whole child. -/
def eraseStemIn (s : Stamp) (depth : Nat) :
    List (Node V) → Key → Option (List (Node V) × List Channel)
  | [], _ => none
  | n :: ns, search =>
    if n.label? = search.head? then
      match n.chunk.after? search with
      | some rest =>
        match n.eraseStem s (depth + 1) rest with
        | none => none
        | some (n', displaced) => some (n'.toList ++ ns, displaced)
      | none => if n.chunk.startsWith search then some (ns, n.channels) else none
    else
      match eraseStemIn s depth ns search with
      | none => none
      | some (ns', displaced) => some (n :: ns', displaced)

end

end Node

end SnapStore
