import SnapStore.Index.Indexer

/-! # Indexes over truth values

The key of a truth value is one byte. The value may stand in a field, may tell whether
a field is set, or may be the outcome of a condition, which can refuse an object.
-/

namespace SnapStore.FlagIndex

universe u

variable {α : Type u}

/-- The key of a truth value. -/
def key (b : Bool) : Key :=
  [if b then 1 else 0]

/-- Keys of one argument that is a truth value. -/
def args : ArgKeys :=
  .ofSingle fun
    | .bool b => .ok (key b)
    | arg => .error (.notWanted .bool arg)

/-- The index over a field that holds a truth value. -/
def field (get : α → Option Bool) : SingleIndexer α where
  toArgKeys := args
  ofObject o := .ok ((get o).map key)

/-- The index that tells objects with a field from those without. -/
def isSet (set : α → Bool) : SingleIndexer α where
  toArgKeys := args
  ofObject o := .ok (some (key (set o)))

/-- The index over the outcome of a condition. The condition may refuse an object, with
its reason. -/
def condition (holds : α → Except String Bool) : SingleIndexer α where
  toArgKeys := args
  ofObject o := (holds o |>.map fun b => some (key b)).mapError .value

end SnapStore.FlagIndex
