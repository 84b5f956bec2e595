import SnapStore.Catalog
import SnapStore.Key

/-! # Catalogs in order

A catalog whose keys ascend is a finite map: no key repeats, and two such catalogs are the
same if each key has the same value in both.

Main statements: `Ascends.insert` and `Ascends.filter` (what keeps the order) and `Ascends.ext`.
-/

namespace SnapStore

universe u

namespace Catalog

variable {κ β : Type u} [DecidableEq κ] [LT κ] [DecidableLT κ]

theorem mem_insert {c : Catalog κ β} {key : κ} {value : β} {p : κ × β}
    (h : p ∈ insert key value c) : p = (key, value) ∨ p ∈ c := by
  induction c with
  | nil => exact .inl (List.mem_singleton.1 h)
  | cons q rest ih =>
    unfold insert at h
    grind

theorem mem_foldl_insert {pairs : List (κ × β)} {c : Catalog κ β} {p : κ × β}
    (h : p ∈ pairs.foldl (fun c (key, value) => insert key value c) c) : p ∈ pairs ∨ p ∈ c := by
  induction pairs generalizing c with
  | nil => exact .inr h
  | cons q rest ih =>
    rcases ih h with hrest | hins
    · exact .inl (List.mem_cons_of_mem q hrest)
    · rcases mem_insert hins with rfl | hc
      · exact .inl List.mem_cons_self
      · exact .inr hc

/-- A catalog holds nothing but the pairs it is made of. -/
theorem mem_ofList {pairs : List (κ × β)} {p : κ × β} (h : p ∈ ofList pairs) : p ∈ pairs :=
  (mem_foldl_insert h).resolve_right List.not_mem_nil

end Catalog

/-- The keys of a catalog ascend. -/
def Ascends {β : Type u} (c : Catalog Key β) : Prop :=
  c.keys.Pairwise (· < ·)

theorem Ascends.nodup {β : Type u} {c : Catalog Key β} (h : Ascends c) : c.keys.Nodup := by
  refine h.imp ?_
  rintro a b hlt rfl
  exact List.lt_irrefl a hlt

/-- An insertion puts its key in order. -/
theorem Ascends.insert {β : Type u} {c : Catalog Key β} (h : Ascends c) (key : Key) (value : β) :
    Ascends (Catalog.insert key value c) := by
  induction c with
  | nil => simp [Ascends, Catalog.insert, Catalog.keys]
  | cons p rest ih =>
    rcases p with ⟨k, x⟩
    have hcons : (∀ k' ∈ Catalog.keys rest, k < k') ∧ Ascends rest := List.pairwise_cons.1 h
    rcases hcons with ⟨hk, hrest⟩
    unfold Catalog.insert
    split
    · rename_i heq
      exact List.pairwise_cons.2 ⟨heq ▸ hk, hrest⟩
    · rename_i hne
      split
      · -- the key comes first
        rename_i hlt
        refine List.pairwise_cons.2 ⟨fun k' hk' => ?_, h⟩
        rcases List.mem_cons.1 hk' with rfl | hk'
        · exact hlt
        · exact List.lt_trans hlt (hk k' hk')
      · rename_i hlt
        refine List.pairwise_cons.2 ⟨fun k' hk' => ?_, ih hrest⟩
        rcases Catalog.mem_keys_insert.1 hk' with rfl | hk'
        · grind
        · exact hk k' hk'

/-- Pairs may be left out. -/
theorem Ascends.filter {β : Type u} {c : Catalog Key β} (h : Ascends c) (p : Key × β → Bool) :
    Ascends (c.filter p) :=
  h.sublist (List.filter_sublist.map Prod.fst)

/-- A key below all others has no value. -/
theorem Ascends.find?_eq_none {β : Type u} {c : Catalog Key β} {k key : Key} {b : β}
    (h : Ascends ((k, b) :: c)) (hlt : key < k) : Catalog.find? ((k, b) :: c) key = none := by
  rw [Catalog.find?_eq_none_iff]
  intro hmem
  rcases List.mem_cons.1 hmem with rfl | hmem
  · exact List.lt_irrefl _ hlt
  · have hk : k < key := (List.pairwise_cons.1 h).1 key hmem
    exact List.lt_irrefl _ (List.lt_trans hlt hk)

/-- Catalogs in order with the same values are the same. -/
theorem Ascends.ext {β : Type u} {c c' : Catalog Key β} (h : Ascends c) (h' : Ascends c')
    (hfind : ∀ key, c.find? key = c'.find? key) : c = c' := by
  induction c generalizing c' with
  | nil =>
    cases c' with
    | nil => rfl
    | cons x' rest' =>
      have hx := hfind x'.1
      simp [Catalog.find?] at hx
  | cons x rest ih =>
    rcases x with ⟨k, b⟩
    cases c' with
    | nil =>
      have hx := hfind k
      simp [Catalog.find?] at hx
    | cons x' rest' =>
      rcases x' with ⟨k', b'⟩
      -- the smaller one of two different first keys would be missing on the other side
      have hk : k = k' := by
        refine Decidable.byContradiction fun hne => ?_
        have hlt : k < k' ∨ k' < k := by grind
        rcases hlt with hlt | hlt
        · have hx := (hfind k).trans (h'.find?_eq_none hlt)
          simp [Catalog.find?] at hx
        · have hx := (hfind k').symm.trans (h.find?_eq_none hlt)
          simp [Catalog.find?] at hx
      subst hk
      have hb : b = b' := by simpa [Catalog.find?] using hfind k
      have hrest : rest = rest' := by
        refine ih (List.pairwise_cons.1 h).2 (List.pairwise_cons.1 h').2 fun key => ?_
        by_cases hkey : k = key
        · subst hkey
          have hnot := (List.nodup_cons.1 h.nodup).1
          have hnot' := (List.nodup_cons.1 h'.nodup).1
          exact (Catalog.find?_eq_none_iff.2 hnot).trans (Catalog.find?_eq_none_iff.2 hnot').symm
        · simpa [Catalog.find?, hkey] using hfind key
      rw [hb, hrest]

end SnapStore
