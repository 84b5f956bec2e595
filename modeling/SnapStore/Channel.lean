/-! # Channels

A channel is a fire-once signal. Every node and every leaf of a tree owns one, and
it fires when a published edit replaces that node or leaf. A channel is known by
where it was made: the edit that made it (a `Stamp`), and the place of its owner
within that edit. Two edits with different stamps make different channels, so no
counter has to be carried through the edits of a tree.
-/

namespace SnapStore

/-- One edit of one working copy: `region` names who opened the copy, `slot` which
copy of that owner it is, and `turn` how many edits the copy saw before. -/
structure Stamp where
  region : Nat
  slot : Nat := 0
  turn : Nat := 0
  deriving DecidableEq, Repr, Hashable

/-- What an edit makes at one depth of a tree. -/
inductive Part where
  /-- The copy of the node that stood at this depth. -/
  | node
  /-- A new leaf. -/
  | leaf
  /-- A new node for a new leaf. -/
  | twig
  /-- The node that now holds the shared part of a split edge. -/
  | fork
  /-- The rest of the node whose edge was split. -/
  | stub
  deriving DecidableEq, Repr, Hashable

/-- A fire-once signal, known by where it was made. -/
structure Channel where
  stamp : Stamp
  depth : Nat := 0
  part : Part := .node
  deriving DecidableEq, Repr, Hashable

/-- The channel an edit makes for one part at one depth. -/
def Stamp.channel (s : Stamp) (depth : Nat) (part : Part) : Channel :=
  ⟨s, depth, part⟩

/-- The stamp of the next edit of the same working copy. -/
def Stamp.next (s : Stamp) : Stamp :=
  { s with turn := s.turn + 1 }

end SnapStore
