import SnapStore.Radix.Edit
import SnapStore.Board
import SnapStore.Text.Outline

/-! # Trees and drafts

A `Tree` is one immutable version of an ordered map from keys to values. A `Draft` is
a private working copy of it: edits change the draft only, and the tree it started
from keeps answering as before. A draft collects the channels of the nodes and leaves
that its edits displace; they fire once the new version is in place.

Main statements: `displaced_after` (an edit adds what it displaces to the end, if the
draft collects), `isFired_commit` (a commit fires what the draft has displaced, and
nothing else) and `erase_absent` (removing what is not there leaves the draft as it is).
-/

namespace SnapStore

universe u

variable {V : Type u}

/-- An immutable version of an ordered map from keys to values. -/
structure Tree (V : Type u) where
  root : Node V
  size : Nat

/-- A private working copy of a tree: the version it would commit, the stamp of its
next edit, whether it collects the channels its edits displace, and those it has
collected, the latest first. -/
structure Draft (V : Type u) where
  tree : Tree V
  stamp : Stamp
  tracking : Bool := true
  collected : List Channel := []

namespace Tree

/-- The tree without entries, whose root owns the given channel. -/
def empty (channel : Channel) : Tree V :=
  ⟨.mk [] channel none [], 0⟩

/-- Whether the tree has no entries. -/
def isEmpty (t : Tree V) : Bool :=
  t.size == 0

/-- The entries, in ascending order of their keys. -/
def leaves (t : Tree V) : List (Leaf V) :=
  t.root.leaves

/-- The entries, in descending order of their keys. -/
def leavesDown (t : Tree V) : List (Leaf V) :=
  t.root.leavesDown

/-- The value at a key. -/
def get? (t : Tree V) (key : Key) : Option V :=
  (t.root.find? key).map Leaf.value

/-- The value at a key, with a channel that fires when the entry for the key changes
or, without an entry, when one may have come. -/
def watch (t : Tree V) (key : Key) : Channel × Option V :=
  let (channel, leaf) := t.root.watch key
  (channel, leaf.map Leaf.value)

/-- The channel that fires on any change of this version. -/
def channel (t : Tree V) : Channel :=
  t.root.channel

/-- The entry with the smallest key. -/
def first? (t : Tree V) : Option (Leaf V) :=
  t.root.first?

/-- The entry with the largest key. -/
def last? (t : Tree V) : Option (Leaf V) :=
  t.root.last?

/-- The entries whose keys have a stem, in ascending order, with the channel that
fires when something among them changes. -/
def seek (t : Tree V) (stem : Key) : Channel × List (Leaf V) :=
  match t.root.seek stem with
  | (channel, some n) => (channel, n.leaves)
  | (channel, none) => (channel, [])

/-- Like `seek`, in descending order. -/
def seekDown (t : Tree V) (stem : Key) : Channel × List (Leaf V) :=
  match t.root.seek stem with
  | (channel, some n) => (channel, n.leavesDown)
  | (channel, none) => (channel, [])

/-- The entries from a key upward, in ascending order. -/
def atLeast (t : Tree V) (key : Key) : List (Leaf V) :=
  t.root.atLeast key

/-- The entries from a key downward, in descending order. -/
def atMost (t : Tree V) (key : Key) : List (Leaf V) :=
  t.root.atMost key

/-- The channels of all nodes and leaves. -/
def channels (t : Tree V) : List Channel :=
  t.root.channels

/-- A working copy of the tree. Its edits use the given stamp and those after it. -/
def edit (t : Tree V) (stamp : Stamp) : Draft V :=
  { tree := t, stamp := stamp }

/-- The tree in words. -/
def describe (t : Tree V) : String :=
  Outline.record "Tree" [("size", toString t.size)]

end Tree

namespace Draft

@[simp] theorem tree_edit (t : Tree V) (s : Stamp) : (t.edit s).tree = t := rfl

/-- The number of entries. -/
def size (d : Draft V) : Nat :=
  d.tree.size

/-- Whether the working copy has no entries. -/
def isEmpty (d : Draft V) : Bool :=
  d.tree.isEmpty

/-- The value at a key in the working copy. -/
def get? (d : Draft V) (key : Key) : Option V :=
  d.tree.get? key

/-- The channels collected so far, in the order in which they were displaced. -/
def displaced (d : Draft V) : List Channel :=
  d.collected.reverse

/-- The draft after an edit that left the given version and displaced the given
channels. -/
def after (d : Draft V) (tree : Tree V) (channels : List Channel) : Draft V :=
  { d with
    tree := tree
    stamp := d.stamp.next
    collected := if d.tracking then channels.reverseAux d.collected else d.collected }

/-- Sets the value at a key, and answers with the value that was there. -/
def insert (d : Draft V) (key : Key) (value : V) : Draft V × Option V :=
  let old := d.get? key
  let e := d.tree.root.insert d.stamp key value 0 key
  (d.after ⟨e.1, if old.isSome then d.size else d.size + 1⟩ e.2, old)

/-- The root of a working copy after a removal. Where the whole root went, an empty
one takes its place. -/
def rootOf (d : Draft V) (node : Option (Node V)) : Node V :=
  node.getD (.mk [] (d.stamp.channel 0 .node) none [])

/-- Removes a key, and answers with the value that was there. -/
def erase (d : Draft V) (key : Key) : Draft V × Option V :=
  match d.tree.root.erase d.stamp 0 key with
  | none => (d, none)
  | some (node, displaced) =>
    (d.after ⟨d.rootOf node, d.size - 1⟩ displaced, d.get? key)

/-- Removes every key with a stem, and answers whether there was one. -/
def eraseStem (d : Draft V) (stem : Key) : Draft V × Bool :=
  match d.tree.root.eraseStem d.stamp 0 stem with
  | none => (d, false)
  | some (node, displaced) =>
    let removed := (d.tree.seek stem).2.length
    (d.after ⟨d.rootOf node, d.size - removed⟩ displaced, removed != 0)

/-- Turns collecting on or off. Off also forgets what was collected. -/
def track (d : Draft V) (on : Bool) : Draft V :=
  { d with tracking := on, collected := if on then d.collected else [] }

/-- The draft once its collected channels have been handed over to be fired. -/
def drained (d : Draft V) : Draft V :=
  { d with collected := [] }

/-- Fires the collected channels in order and leaves none. -/
def notify (d : Draft V) (b : Board) : Draft V × Board :=
  (d.drained, b.fireAll d.displaced)

/-- Ends the draft: its tree is the new version, and the collected channels fire. -/
def commit (d : Draft V) (b : Board) : Tree V × Board :=
  (d.tree, b.fireAll d.displaced)

/-- The draft in words. -/
def describe (d : Draft V) : String :=
  Outline.record "TreeTxn"
    [("size", toString d.size), ("track_mutate", Outline.bool d.tracking),
      ("tracked", toString d.collected.length)]

theorem erase_absent {d : Draft V} {key : Key}
    (h : d.tree.root.erase d.stamp 0 key = none) : d.erase key = (d, none) := by
  simp [erase, h]

theorem isFired_commit (d : Draft V) (b : Board) (c : Channel) :
    (d.commit b).2.isFired c = (d.displaced.contains c || b.isFired c) :=
  b.isFired_fireAll d.displaced c

theorem displaced_after (d : Draft V) (t : Tree V) (cs : List Channel) :
    (d.after t cs).displaced = if d.tracking then d.displaced ++ cs else d.displaced := by
  by_cases h : d.tracking = true <;> simp [after, displaced, h]

end Draft

/-! ## Versions by a single edit -/

/-- The version with one key set, and the value that was there. -/
def Tree.insert (t : Tree V) (s : Stamp) (key : Key) (value : V) (b : Board) :
    Tree V × Option V × Board :=
  let (d, old) := (t.edit s).insert key value
  let (t, b) := d.commit b
  (t, old, b)

/-- The version without one key, and the value that was there. -/
def Tree.erase (t : Tree V) (s : Stamp) (key : Key) (b : Board) :
    Tree V × Option V × Board :=
  let (d, old) := (t.edit s).erase key
  let (t, b) := d.commit b
  (t, old, b)

/-! ## Edits as data -/

/-- One edit of a working copy. -/
inductive Edit (V : Type u) where
  | insert (key : Key) (value : V)
  | erase (key : Key)
  | eraseStem (stem : Key)
  deriving DecidableEq, Repr

/-- The draft after one edit. -/
def Draft.apply (d : Draft V) : Edit V → Draft V
  | .insert key value => (d.insert key value).1
  | .erase key => (d.erase key).1
  | .eraseStem stem => (d.eraseStem stem).1

/-- The draft after several edits, in order. -/
def Draft.applyAll (d : Draft V) (edits : List (Edit V)) : Draft V :=
  edits.foldl Draft.apply d

end SnapStore
