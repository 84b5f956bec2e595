/-! # Filtered sources

A source is pulled for items one at a time, and may answer with none. What it will
answer to the pulls to come is a list; behind the end of the list it answers with
none. A filter pulls from a source, asks a predicate about each item, and passes on
those for which the answer is not to skip. The predicate may keep a state. Once the
source has answered with none, the filter never pulls again.

Main statement: `next_of_done`.
-/

namespace SnapStore

universe u v

/-- A source behind a predicate: the answers of the source to the pulls to come, the
state of the predicate, whether the source has answered with none, how many times it
was pulled, and on which items the predicate was asked, in order. -/
structure Filter (σ : Type u) (ι : Type v) where
  answers : List (Option ι)
  state : σ
  done : Bool := false
  pulls : Nat := 0
  asked : List ι := []

namespace Filter

variable {σ : Type u} {ι : Type v}

/-- Pulls through the given answers to the first item that is not skipped. -/
def pull (skip : σ → ι → Bool × σ) : List (Option ι) → Filter σ ι → Option ι × Filter σ ι
  | [], f => (none, { f with answers := [], done := true, pulls := f.pulls + 1 })
  | none :: rest, f => (none, { f with answers := rest, done := true, pulls := f.pulls + 1 })
  | some x :: rest, f =>
    let (skipped, state) := skip f.state x
    let f :=
      { f with answers := rest, state := state, pulls := f.pulls + 1, asked := f.asked ++ [x] }
    if skipped then pull skip rest f else (some x, f)

/-- The next item that is not skipped, or none for good once the source has answered
with none. -/
def next (skip : σ → ι → Bool × σ) (f : Filter σ ι) : Option ι × Filter σ ι :=
  if f.done then (none, f) else pull skip f.answers f

/-- The results of so many calls of `next`, and the filter after them. -/
def take (skip : σ → ι → Bool × σ) : Nat → Filter σ ι → List (Option ι) × Filter σ ι
  | 0, f => ([], f)
  | n + 1, f =>
    let (x, f) := f.next skip
    let (xs, f) := take skip n f
    (x :: xs, f)

theorem next_of_done {skip : σ → ι → Bool × σ} {f : Filter σ ι} (h : f.done = true) :
    f.next skip = (none, f) := by
  simp [next, h]

end Filter

end SnapStore
