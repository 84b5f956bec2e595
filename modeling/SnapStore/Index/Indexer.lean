import SnapStore.Key
import SnapStore.Index.Failure

/-! # Indexers

An indexer derives keys: from an object the keys under which an index holds it, and
from query arguments the key, or the stem of keys, to look for. A single indexer
derives at most one key from an object, a multi indexer any number of them.
-/

namespace SnapStore

universe u

/-- How query arguments become keys. -/
structure ArgKeys where
  /-- The key that the arguments stand for. -/
  key : List Arg → Except KeyError Key
  /-- The stem of the keys that the arguments stand for; nothing if the index cannot
  be searched by stems. -/
  stem? : List Arg → Option (Except KeyError Key)

/-- An indexer that derives at most one key from an object. -/
structure SingleIndexer (α : Type u) extends ArgKeys where
  ofObject : α → Except KeyError (Option Key)

/-- An indexer that may derive several keys from an object. -/
structure MultiIndexer (α : Type u) extends ArgKeys where
  ofObject : α → Except KeyError (List Key)

/-- An indexer of either sort. -/
inductive Indexer (α : Type u) where
  | single (indexer : SingleIndexer α)
  | multi (indexer : MultiIndexer α)

namespace Indexer

variable {α : Type u}

/-- Whether an indexer derives at most one key from an object. -/
def isSingle : Indexer α → Bool
  | single _ => true
  | multi _ => false

/-- How query arguments become keys. -/
def args : Indexer α → ArgKeys
  | single i => i.toArgKeys
  | multi i => i.toArgKeys

/-- The keys of an object. -/
def keys : Indexer α → α → Except KeyError (List Key)
  | single i, o => (i.ofObject o).map Option.toList
  | multi i, o => i.ofObject o

/-- An indexer in words. -/
def describe : Indexer α → String
  | single _ => "Indexer::Single"
  | multi _ => "Indexer::Multi"

end Indexer

/-! ## Single arguments -/

/-- The keys of an index that takes one argument, without stems. -/
def ArgKeys.ofSingle (key : Arg → Except Misfit Key) : ArgKeys where
  key
    | [arg] => (key arg).mapError .args
    | args => .error (.args (.notSingle args.length))
  stem? _ := none

/-- The keys and stems of an index that takes one argument. -/
def ArgKeys.ofSingleWithStem (key stem : Arg → Except Misfit Key) : ArgKeys where
  key := (ArgKeys.ofSingle key).key
  stem? args := some ((ArgKeys.ofSingle stem).key args)

end SnapStore
