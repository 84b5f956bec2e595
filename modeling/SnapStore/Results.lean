import SnapStore.Board

/-! # Results of queries that find several objects -/

namespace SnapStore

universe u

variable {α : Type u}

/-- The order in which results come. -/
inductive Direction where
  | forward
  | reverse
  deriving DecidableEq, Repr

/-- The direction in a word. -/
def Direction.describe : Direction → String
  | forward => "forward"
  | reverse => "reverse"

/-- The objects still to come, and the channel that fires when the scanned range
changes. The objects themselves never change. -/
structure Results (α : Type u) where
  direction : Direction
  channel : Channel
  objects : List α

namespace Results

/-- The results without the objects that `skip` holds of. -/
def skipping (skip : α → Bool) (r : Results α) : Results α :=
  { r with objects := r.objects.filter (!skip ·) }

/-- The next so many objects, with none where the results have ended, and the results
behind them. -/
def take (n : Nat) (r : Results α) : List (Option α) × Results α :=
  ((r.objects.take n).map some ++ List.replicate (n - r.objects.length) none,
    { r with objects := r.objects.drop n })

/-- The results in words. -/
def describe (b : Board) (r : Results α) : String :=
  Outline.record "IndexIterator"
    [("direction", "\"" ++ r.direction.describe ++ "\""), ("watch", b.describe r.channel)]

end Results

end SnapStore
