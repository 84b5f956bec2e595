/-! # Catalogs

A catalog holds one value for each of its keys and lists them in ascending order of
the keys. Schemas, records and the working copies of a transaction are catalogs.

Main statements: `find?_insert` (an insertion changes the value of its key and no other)
and `find?_eq_some_iff` (where no key repeats, a catalog is its pairs).
-/

namespace SnapStore

universe u v

/-- Values by key, ascending. -/
abbrev Catalog (κ : Type u) (β : Type v) := List (κ × β)

namespace Catalog

variable {κ : Type u} {β : Type v} [DecidableEq κ]

/-- The value of a key. -/
def find? : Catalog κ β → κ → Option β
  | [], _ => none
  | (k, b) :: rest, key => if k = key then some b else find? rest key

/-- The keys, ascending. -/
def keys (c : Catalog κ β) : List κ :=
  c.map Prod.fst

theorem mem_of_find? {c : Catalog κ β} {key : κ} {b : β} (h : c.find? key = some b) :
    (key, b) ∈ c := by
  induction c with
  | nil => simp [find?] at h
  | cons p rest ih =>
    rcases p with ⟨k, x⟩
    by_cases hk : k = key
    · subst hk
      obtain rfl : x = b := by simpa [find?] using h
      exact List.mem_cons_self
    · have hrest : find? rest key = some b := by simpa [find?, hk] using h
      exact List.mem_cons_of_mem _ (ih hrest)

/-- Where no key repeats, each pair is found. -/
theorem find?_eq_some_iff {c : Catalog κ β} (hc : c.keys.Nodup) {key : κ} {b : β} :
    c.find? key = some b ↔ (key, b) ∈ c := by
  refine ⟨mem_of_find?, fun h => ?_⟩
  induction c with
  | nil => simp at h
  | cons p rest ih =>
    rcases p with ⟨k, x⟩
    simp only [keys, List.map_cons, List.nodup_cons] at hc
    rcases List.mem_cons.1 h with heq | hmem
    · cases heq
      simp [find?]
    · have hne : k ≠ key := by
        rintro rfl
        exact hc.1 (List.mem_map.2 ⟨(k, b), hmem, rfl⟩)
      simpa [find?, hne] using ih hc.2 hmem

theorem find?_eq_none_iff {c : Catalog κ β} {key : κ} : c.find? key = none ↔ key ∉ c.keys := by
  induction c with
  | nil => simp [find?, keys]
  | cons p rest ih =>
    rcases p with ⟨k, x⟩
    by_cases hk : k = key
    · simp [find?, keys, hk]
    · simpa [find?, keys, hk, Ne.symm hk] using ih

variable [LT κ] [DecidableLT κ]

/-- Sets the value of a key. -/
def insert (key : κ) (value : β) : Catalog κ β → Catalog κ β
  | [] => [(key, value)]
  | (k, b) :: rest =>
    if k = key then (key, value) :: rest
    else if key < k then (key, value) :: (k, b) :: rest
    else (k, b) :: insert key value rest

/-- The catalog of the given pairs; of two pairs with one key the later counts. -/
def ofList (pairs : List (κ × β)) : Catalog κ β :=
  pairs.foldl (fun c (key, value) => insert key value c) []

theorem find?_insert (c : Catalog κ β) (key : κ) (value : β) (k : κ) :
    find? (insert key value c) k = if key = k then some value else find? c k := by
  induction c with
  | nil => rfl
  | cons p rest ih =>
    rcases p with ⟨k', b⟩
    unfold insert
    by_cases hk : k' = key
    · subst hk
      by_cases h : k' = k <;> simp [find?, h]
    · by_cases hlt : key < k'
      · simp [hk, hlt, find?]
      · by_cases h : k' = k
        · subst h
          simp [hk, hlt, find?, Ne.symm hk]
        · simp [hk, hlt, find?, h, ih]

theorem mem_keys_insert {c : Catalog κ β} {key : κ} {value : β} {k : κ} :
    k ∈ keys (insert key value c) ↔ k = key ∨ k ∈ c.keys := by
  have h := find?_insert c key value k
  by_cases hk : key = k
  · subst hk
    have hin : key ∈ keys (insert key value c) := by
      refine Decidable.byContradiction fun hn => ?_
      rw [find?_eq_none_iff.2 hn, if_pos rfl] at h
      simp at h
    simp [hin]
  · rw [if_neg hk] at h
    have hiff : k ∉ keys (insert key value c) ↔ find? (insert key value c) k = none :=
      find?_eq_none_iff.symm
    rw [h, find?_eq_none_iff] at hiff
    simp [Ne.symm hk, Decidable.not_iff_not.1 hiff]

theorem length_le_insert (c : Catalog κ β) (key : κ) (value : β) :
    c.length ≤ (insert key value c).length := by
  induction c with
  | nil => exact Nat.zero_le _
  | cons p rest ih =>
    unfold insert
    grind

/-- A new key makes a catalog longer by one. -/
theorem length_insert_of_none {c : Catalog κ β} {key : κ} (h : c.find? key = none) (value : β) :
    (insert key value c).length = c.length + 1 := by
  induction c with
  | nil => rfl
  | cons p rest ih =>
    rcases p with ⟨k, b⟩
    have hne : k ≠ key := by
      rintro rfl
      simp [find?] at h
    have hrest : find? rest key = none := by simpa [find?, hne] using h
    unfold insert
    rw [if_neg hne]
    split
    · rfl
    · rw [List.length_cons, ih hrest, List.length_cons]

end Catalog

end SnapStore
