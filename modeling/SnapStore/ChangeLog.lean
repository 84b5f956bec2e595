import SnapStore.Key
import SnapStore.Text.Quoted
import SnapStore.Text.Outline

/-! # Change logs

A change log keeps, for each object a transaction touches, what stood under its
primary key before the first touch and what stands there after the last. Objects are
listed in the order of their first touch.

Main statement: `find?_record`, a note concerns one primary key of one table, and keeps
what stood there before the first touch.
-/

namespace SnapStore

universe u

variable {α : Type u}

/-- What happened to the object under one primary key of a table. -/
structure Change (α : Type u) where
  table : String
  key : Key
  before : Option α
  after : Option α
  deriving DecidableEq, Repr

/-- The touched objects, in the order of their first touch. -/
structure ChangeLog (α : Type u) where
  entries : List (Change α) := []
  deriving Repr

namespace Change

/-- The object is new. -/
def isCreated (c : Change α) : Bool :=
  c.before.isNone && c.after.isSome

/-- The object was replaced. -/
def isUpdated (c : Change α) : Bool :=
  c.before.isSome && c.after.isSome

/-- The object is gone. -/
def isDeleted (c : Change α) : Bool :=
  c.before.isSome && c.after.isNone

/-- Whether the change is about the given table and primary key. -/
def concerns (c : Change α) (table : String) (key : Key) : Bool :=
  c.table == table && c.key == key

theorem concerns_iff (c : Change α) (table : String) (key : Key) :
    c.concerns table key = true ↔ c.table = table ∧ c.key = key := by
  simp [concerns]

/-- A change in words, given those for objects. -/
def describe (describeObject : α → String) (c : Change α) : String :=
  Outline.record "Change"
    [("table", Quoted.quote c.table), ("before", Outline.option (c.before.map describeObject)),
      ("after", Outline.option (c.after.map describeObject))]

end Change

namespace ChangeLog

/-- Changes the entry of a primary key, or adds one behind all others. -/
def touch (table : String) (key : Key) (before after : Option α) :
    List (Change α) → List (Change α)
  | [] => [⟨table, key, before, after⟩]
  | c :: cs =>
    -- what stood there before the first touch stays
    if c.concerns table key then { c with after := after } :: cs
    else c :: touch table key before after cs

/-- Notes that under a primary key `before` became `after`. -/
def record (log : ChangeLog α) (table : String) (key : Key) (before after : Option α) :
    ChangeLog α :=
  ⟨touch table key before after log.entries⟩

/-- What the log has about a primary key, if it was touched. -/
def find? (log : ChangeLog α) (table : String) (key : Key) : Option (Change α) :=
  log.entries.find? (·.concerns table key)

/-- The changes. An object that came and went again is none. -/
def changes (log : ChangeLog α) : List (Change α) :=
  log.entries.filter fun c => c.before.isSome || c.after.isSome

theorem find?_record (log : ChangeLog α) (table table' : String) (key key' : Key)
    (before after : Option α) :
    (log.record table key before after).find? table' key' =
      if table = table' ∧ key = key' then
        some ⟨table, key, ((log.find? table key).map Change.before).getD before, after⟩
      else log.find? table' key' := by
  rcases log with ⟨entries⟩
  unfold record find?
  induction entries with
  | nil => by_cases h : table = table' ∧ key = key' <;> simp [touch, Change.concerns, h]
  | cons c cs ih =>
    by_cases hc : c.concerns table key = true
    · rcases (c.concerns_iff table key).1 hc with ⟨rfl, rfl⟩
      by_cases h : c.table = table' ∧ c.key = key' <;> simp [touch, Change.concerns, h]
    · by_cases h : c.concerns table' key' = true
      · -- the first entry is about the key asked for, which is not the one noted
        have hne : ¬ (table = table' ∧ key = key') := by
          rintro ⟨rfl, rfl⟩
          exact hc h
        simp [touch, hc, h, hne]
      · simpa [touch, hc, h] using ih

end ChangeLog

end SnapStore
