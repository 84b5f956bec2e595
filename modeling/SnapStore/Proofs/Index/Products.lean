import SnapStore.Index.Compound

/-! # Compounds of either sort over single indexers

A compound over single indexers walks along its parts and joins one key of each; a compound over
indexers of either sort makes every way to take one key of each part. Where all parts are single
indexers there is at most one way, and both end at the same part for the same reason: at the first
part that fails, at the first part without a key, or at the end.

Main statements: `products_map_single` (the parts of one object) and `multi_agrees_single`.
-/

namespace SnapStore.CompoundIndex

universe u

variable {α : Type u}

/-- Over single indexers there is a way to join keys if and only if the walk along the parts finds
a key, which is then the joined one. What no part after a missing one says is asked for. -/
theorem products_map_single (allowMissing : Bool) (o : α) (parts : List (SingleIndexer α)) :
    products allowMissing o (parts.map Indexer.single) =
      (joined allowMissing o parts).map Option.toList := by
  induction parts with
  | nil => rfl
  | cons p parts ih =>
    simp only [List.map_cons, products, joined, Indexer.keys]
    cases hfound : p.ofObject o with
    | error e => rfl
    | ok found =>
      cases found with
      | none => cases allowMissing <;> rfl
      | some key =>
        -- the rest of the parts has one tail, none, or fails
        simp only [Except.map, Option.toList_some, bind, Except.bind, ih]
        cases joined allowMissing o parts with
        | error e => rfl
        | ok tail => cases tail <;> rfl

/-- At most one key has bytes or has none. -/
theorem filter_toList (found : Option Key) :
    found.toList.filter (!·.isEmpty) = (found.filter (!·.isEmpty)).toList := by
  cases found with
  | none => rfl
  | some key => cases key <;> rfl

/-- Both compounds read arguments with the same parts. -/
theorem args_map_single (parts : List (SingleIndexer α)) :
    (parts.map Indexer.single).map Indexer.args = parts.map (·.toArgKeys) := by
  rw [List.map_map]
  rfl

/-- Compounds of either sort agree over single indexers, whatever these are, compounds themselves
or such that fail. From each object the one derives the keys that the other derives, of which there
is at most one, or it fails for the same reason, and so it is for all arguments of keys and of
stems. -/
theorem multi_agrees_single (parts : List (SingleIndexer α)) (allowMissing : Bool) :
    let many := multi (parts.map .single) allowMissing
    let one := single parts allowMissing
    (∀ o, many.ofObject o = (one.ofObject o).map Option.toList) ∧
      ∀ args, many.key args = one.key args ∧ many.stem? args = one.stem? args := by
  intro many one
  constructor
  · intro o
    simp only [many, one, multi, single, products_map_single]
    cases joined allowMissing o parts with
    | error e => rfl
    | ok found => exact congrArg Except.ok (filter_toList found)
  · intro args
    have hread : many.toArgKeys = one.toArgKeys :=
      congrArg CompoundIndex.args (args_map_single parts)
    rw [hread]
    exact ⟨rfl, rfl⟩

end SnapStore.CompoundIndex
