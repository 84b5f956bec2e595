/-! # Keys

Everything the store orders, it orders by keys: byte strings under the
lexicographic order. This module holds the operations on keys that the tree and
the indexers share: cutting a stem off a key, splitting two keys where they part,
and the ascending list of the different keys among given ones.

Main statements: `after?_eq_some_iff` (what is left behind a stem), `fork_left` and
`fork_right` (a fork loses nothing), `mem_ascending` (sorting keeps the members).
-/

namespace SnapStore

/-- A byte string, ordered lexicographically by its bytes. -/
abbrev Key := List UInt8

namespace Key

/-- The UTF-8 bytes of a text. -/
def ofText (s : String) : Key :=
  s.toList.flatMap String.utf8EncodeChar

/-! ## Stems -/

/-- What is left of a key behind a stem, if the key starts with the stem. -/
def after? : Key → Key → Option Key
  | [], key => some key
  | _ :: _, [] => none
  | a :: stem, b :: key => if a = b then after? stem key else none

theorem after?_eq_some_iff {stem key rest : Key} :
    after? stem key = some rest ↔ key = stem ++ rest := by
  induction stem generalizing key with
  | nil => simp [after?, eq_comm]
  | cons a stem ih =>
    cases key with
    | nil => simp [after?]
    | cons b key => by_cases h : a = b <;> simp [after?, h, ih, eq_comm]

@[simp] theorem after?_append (stem rest : Key) : after? stem (stem ++ rest) = some rest :=
  after?_eq_some_iff.2 rfl

/-- Whether a key starts with a stem. -/
def startsWith (key stem : Key) : Bool :=
  (after? stem key).isSome

theorem startsWith_iff {key stem : Key} : key.startsWith stem = true ↔ stem <+: key := by
  unfold startsWith
  constructor
  · intro h
    rcases Option.isSome_iff_exists.1 h with ⟨rest, h⟩
    exact ⟨rest, (after?_eq_some_iff.1 h).symm⟩
  · rintro ⟨rest, rfl⟩
    simp

/-! ## Forks -/

/-- Two keys split at the first place where they differ: the part they share and
what is left of each. -/
structure Fork where
  shared : Key
  left : Key
  right : Key
  deriving DecidableEq, Repr

/-- Splits two keys at the first place where they differ. -/
def fork : Key → Key → Fork
  | [], right => ⟨[], [], right⟩
  | left, [] => ⟨[], left, []⟩
  | a :: left, b :: right =>
    if a = b then
      let f := fork left right
      ⟨a :: f.shared, f.left, f.right⟩
    else ⟨[], a :: left, b :: right⟩

theorem fork_left (a b : Key) : (fork a b).shared ++ (fork a b).left = a := by
  fun_induction fork a b with
  | case1 => rfl
  | case2 => rfl
  | case3 a left right f ih => simpa using ih
  | case4 => rfl

theorem fork_right (a b : Key) : (fork a b).shared ++ (fork a b).right = b := by
  fun_induction fork a b with
  | case1 => rfl
  | case2 => rfl
  | case3 a left right f ih => simpa using ih
  | case4 => rfl

/-- A key that the fork uses up is a stem of the other one. -/
theorem append_right_of_fork {a b shared right : Key} (h : fork a b = ⟨shared, [], right⟩) :
    a ++ right = b := by
  have hleft := fork_left a b
  have hright := fork_right a b
  rw [h] at hleft hright
  simp only [List.append_nil] at hleft hright
  rw [← hleft, hright]

/-- Where neither key is used up, the two go on with different bytes. -/
theorem fork_parted (a b : Key) :
    ∀ x ∈ (fork a b).left.head?, ∀ y ∈ (fork a b).right.head?, x ≠ y := by
  fun_induction fork a b with
  | case1 => simp
  | case2 => simp
  | case3 a left right f ih => exact ih
  | case4 a left b right hne => simpa using hne

/-- Two keys are what they share, and two rests that part at once. -/
theorem exists_fork (a b : Key) : ∃ shared left right, fork a b = ⟨shared, left, right⟩ ∧
    shared ++ left = a ∧ shared ++ right = b ∧
      ∀ x ∈ left.head?, ∀ y ∈ right.head?, x ≠ y :=
  ⟨_, _, _, rfl, fork_left a b, fork_right a b, fork_parted a b⟩

theorem fork_left_eq_nil_iff {a b : Key} : (fork a b).left = [] ↔ a <+: b := by
  constructor
  · intro h
    have ha : (fork a b).shared = a := by simpa [h] using fork_left a b
    have hb := fork_right a b
    rw [ha] at hb
    exact ⟨(fork a b).right, hb⟩
  · rintro ⟨rest, rfl⟩
    induction a with
    | nil => rfl
    | cons x a ih => simpa [fork] using ih

/-- Keys that start with the same byte share it. -/
theorem head?_fork_shared {a rest : Key} {b : UInt8} (h : a.head? = some b) :
    (fork a (b :: rest)).shared.head? = some b := by
  cases a with
  | nil => simp at h
  | cons x a =>
    simp only [List.head?_cons, Option.some.injEq] at h
    simp [fork, h]

/-! ## Ascending lists of different keys -/

/-- Places a key into an ascending list of different keys, unless it is there. -/
def place (key : Key) : List Key → List Key
  | [] => [key]
  | k :: ks =>
    if key = k then k :: ks
    else if key < k then key :: k :: ks
    else k :: place key ks

/-- The different keys among `keys`, in ascending order. -/
def ascending (keys : List Key) : List Key :=
  keys.foldr place []

@[simp] theorem mem_place {key k : Key} {ks : List Key} :
    k ∈ place key ks ↔ k = key ∨ k ∈ ks := by
  induction ks with
  | nil => simp [place]
  | cons x xs ih =>
    unfold place
    split
    · rename_i h
      simp [h]
    · split
      · simp
      · simp [ih, or_left_comm]

@[simp] theorem mem_ascending {k : Key} {ks : List Key} : k ∈ ascending ks ↔ k ∈ ks := by
  induction ks with
  | nil => simp [ascending]
  | cons x xs ih =>
    change k ∈ place x (ascending xs) ↔ _
    simp [ih]

end Key

end SnapStore
