import SnapStore.Proofs.Catalog
import SnapStore.Proofs.Radix.Guard

/-! # Trees refine finite maps

A finite map is a catalog with ascending keys. It is edited like a draft, but by plain list
operations: an insertion sets the value of its key, a removal leaves out the pairs with a key
or with a stem. Every draft that comes about from an empty tree answers each edit as the map
with the same past does, and holds what the map holds.

Main statements: `entries_apply` and `answer_eq` (one edit), `Arises.entries_eq` (all edits
so far) and `refines_map`.
-/

namespace SnapStore

universe u v

variable {V : Type u}

/-! ## Answers -/

/-- What an edit answers: the value that was there, or whether something was removed. -/
inductive Answer (V : Type u) where
  | value (old : Option V)
  | removed (any : Bool)
  deriving DecidableEq, Repr

/-- What edits answer, one after another, where `apply` carries one out and `answer` tells
what it answers. -/
def Edit.answers {σ : Type v} (apply : σ → Edit V → σ) (answer : σ → Edit V → Answer V) :
    σ → List (Edit V) → List (Answer V)
  | _, [] => []
  | s, e :: es => answer s e :: answers apply answer (apply s e) es

/-- What an edit of a draft answers. -/
def Draft.answer (d : Draft V) : Edit V → Answer V
  | .insert key value => .value (d.insert key value).2
  | .erase key => .value (d.erase key).2
  | .eraseStem stem => .removed (d.eraseStem stem).2

/-- What edits of a draft answer. -/
def Draft.answers (d : Draft V) (edits : List (Edit V)) : List (Answer V) :=
  Edit.answers apply answer d edits

namespace Catalog

/-- The map after an edit. -/
def apply (m : Catalog Key V) : Edit V → Catalog Key V
  | .insert key value => insert key value m
  | .erase key => m.filter (·.1 != key)
  | .eraseStem stem => m.filter (!·.1.startsWith stem)

/-- What an edit of a map answers: what stood under the key, or whether a key has the stem. -/
def answer (m : Catalog Key V) : Edit V → Answer V
  | .insert key _ => .value (m.find? key)
  | .erase key => .value (m.find? key)
  | .eraseStem stem => .removed (m.keys.any (·.startsWith stem))

/-- The map after edits, in order. -/
def applyAll (m : Catalog Key V) (edits : List (Edit V)) : Catalog Key V :=
  edits.foldl apply m

/-- What edits of a map answer. -/
def answers (m : Catalog Key V) (edits : List (Edit V)) : List (Answer V) :=
  Edit.answers apply answer m edits

end Catalog

/-! ## The entries of a tree -/

/-- A key with its value. -/
def Leaf.entry (l : Leaf V) : Key × V :=
  (l.key, l.value)

namespace Tree

/-- The entries as a map. -/
def entries (t : Tree V) : Catalog Key V :=
  t.leaves.map fun l => (l.key, l.value)

namespace Wf

variable {t : Tree V}

theorem ascends_entries (h : t.Wf) : Ascends t.entries := by
  have hkeys : t.entries.keys = t.leaves.map Leaf.key := by
    simp [entries, Catalog.keys, Function.comp_def]
  rw [Ascends, hkeys, List.pairwise_map]
  exact h.pairwise_leaves

/-- The map has at each key what the tree has. -/
theorem find?_entries (h : t.Wf) (key : Key) : t.entries.find? key = t.get? key := by
  refine Option.ext fun value => ?_
  rw [Catalog.find?_eq_some_iff h.ascends_entries.nodup, h.get?_eq_some_iff]
  simp [entries]

theorem length_entries (h : t.Wf) : t.entries.length = t.size := by
  rw [entries, List.length_map, h.size]

end Wf

end Tree

/-! ## One edit -/

namespace Draft

variable {d : Draft V}

theorem entries_insert (h : d.tree.Wf) (key : Key) (value : V) :
    (d.insert key value).1.tree.entries = Catalog.insert key value d.tree.entries := by
  have hw := wf_insert h key value
  refine hw.ascends_entries.ext (h.ascends_entries.insert key value) fun k => ?_
  rw [hw.find?_entries, get?_insert h, Catalog.find?_insert, h.find?_entries]
  simp only [eq_comm]

theorem entries_erase (h : d.tree.Wf) (key : Key) :
    (d.erase key).1.tree.entries = d.tree.entries.filter (·.1 != key) := by
  rw [Tree.entries, (erase_spec h key).2, Tree.entries, List.filter_map]
  rfl

theorem entries_eraseStem (h : d.tree.Wf) (stem : Key) :
    (d.eraseStem stem).1.tree.entries = d.tree.entries.filter (!·.1.startsWith stem) := by
  rw [Tree.entries, (eraseStem_spec h stem).2, Tree.entries, List.filter_map]
  rfl

/-- An edit changes the entries of the tree as it changes a map. -/
theorem entries_apply (h : d.tree.Wf) (e : Edit V) :
    (d.apply e).tree.entries = d.tree.entries.apply e := by
  cases e with
  | insert key value => exact entries_insert h key value
  | erase key => exact entries_erase h key
  | eraseStem stem => exact entries_eraseStem h stem

/-- A removal answers with the value that was there, also where there was none. -/
theorem erase_snd (d : Draft V) (key : Key) : (d.erase key).2 = d.get? key := by
  rw [erase]
  cases he : d.tree.root.erase d.stamp 0 key with
  | none =>
    have hnone := (Node.erase_eq_none_iff d.stamp d.tree.root 0 key).1 he
    simp [get?, Tree.get?, hnone]
  | some r => rfl

/-- The removal of a stem tells whether a seek for it lists anything. -/
theorem eraseStem_snd (d : Draft V) (stem : Key) :
    (d.eraseStem stem).2 = !(d.tree.seek stem).2.isEmpty := by
  rw [eraseStem]
  cases he : d.tree.root.eraseStem d.stamp 0 stem with
  | none =>
    -- no node lies under the stem, so the seek lists nothing
    have hnone := (Node.eraseStem_eq_none_iff d.stamp d.tree.root 0 stem).1 he
    have hseek : (d.tree.seek stem).2 = [] := by
      rw [Tree.seek_eq_root, hnone, Option.elim_none]
    simp [hseek]
  | some r =>
    show ((d.tree.seek stem).2.length != 0) = _
    cases (d.tree.seek stem).2 <;> rfl

theorem any_keys_entries (h : d.tree.Wf) (stem : Key) :
    d.tree.entries.keys.any (·.startsWith stem) = !(d.tree.seek stem).2.isEmpty := by
  rw [h.seek_eq, Bool.eq_iff_iff]
  simp [Tree.entries, Catalog.keys]

/-- An edit answers as it answers over the map of the entries. -/
theorem answer_eq (h : d.tree.Wf) (e : Edit V) : d.answer e = d.tree.entries.answer e := by
  cases e with
  | insert key value => exact congrArg Answer.value (h.find?_entries key).symm
  | erase key =>
    rw [answer, Catalog.answer, erase_snd, h.find?_entries]
    rfl
  | eraseStem stem => rw [answer, Catalog.answer, eraseStem_snd, any_keys_entries h]

end Draft

/-! ## All edits -/

namespace Draft

/-- Drafts lead from an empty tree to the working copy `d`, each opened on the tree that the
one before it left. What the same edits make of an empty map is `m`. -/
inductive Arises : Draft V → Catalog Key V → Prop
  | empty (channel : Channel) (stamp : Stamp) : Arises ((Tree.empty channel).edit stamp) []
  | reopen {d : Draft V} {m : Catalog Key V} (h : Arises d m) (board : Board) (stamp : Stamp) :
    Arises ((d.commit board).1.edit stamp) m
  | edit {d : Draft V} {m : Catalog Key V} (h : Arises d m) (e : Edit V) :
    Arises (d.apply e) (m.apply e)
  | track {d : Draft V} {m : Catalog Key V} (h : Arises d m) (on : Bool) : Arises (d.track on) m
  | notify {d : Draft V} {m : Catalog Key V} (h : Arises d m) (board : Board) :
    Arises (d.notify board).1 m

namespace Arises

variable {d : Draft V} {m : Catalog Key V}

theorem wf (h : d.Arises m) : d.tree.Wf := by
  induction h with
  | empty channel stamp => exact Tree.wf_empty channel
  | reopen _ _ _ ih => exact ih
  | edit _ e ih => exact wf_apply ih e
  | track _ _ ih => exact ih
  | notify _ _ ih => exact ih

/-- The tree holds what the map holds. -/
theorem entries_eq (h : d.Arises m) : d.tree.entries = m := by
  induction h with
  | empty channel stamp => rfl
  | reopen _ _ _ ih => exact ih
  | edit h e ih => rw [entries_apply h.wf, ih]
  | track _ _ ih => exact ih
  | notify _ _ ih => exact ih

theorem ascends (h : d.Arises m) : Ascends m :=
  h.entries_eq ▸ h.wf.ascends_entries

/-- The tree has at each key what the map has. -/
theorem get?_eq (h : d.Arises m) (key : Key) : d.tree.get? key = m.find? key := by
  rw [← h.wf.find?_entries, h.entries_eq]

theorem applyAll (h : d.Arises m) (edits : List (Edit V)) :
    (d.applyAll edits).Arises (m.applyAll edits) := by
  induction edits generalizing d m with
  | nil => exact h
  | cons e edits ih => exact ih (h.edit e)

/-- Edits of the draft answer as the same edits of the map. -/
theorem answers_eq (h : d.Arises m) (edits : List (Edit V)) :
    d.answers edits = m.answers edits := by
  induction edits generalizing d m with
  | nil => rfl
  | cons e edits ih =>
    have hfirst : d.answer e = m.answer e := by rw [answer_eq h.wf, h.entries_eq]
    have hrest : (d.apply e).answers edits = (m.apply e).answers edits := ih (h.edit e)
    calc
      d.answers (e :: edits) = d.answer e :: (d.apply e).answers edits := rfl
      _ = m.answer e :: (m.apply e).answers edits := by rw [hfirst, hrest]

end Arises

/-- A tree refines a finite map. Whatever led to the working copy: any edits of it answer as
the same edits of the map with the same past, and after them the working copy and the tree it
commits have at each key what the map has, and as many entries as the map has keys. -/
theorem refines_map {d : Draft V} {m : Catalog Key V} (h : d.Arises m)
    (edits : List (Edit V)) (board : Board) :
    d.answers edits = m.answers edits ∧
      (∀ key, (d.applyAll edits).get? key = (m.applyAll edits).find? key ∧
        ((d.applyAll edits).commit board).1.get? key = (m.applyAll edits).find? key) ∧
      (m.applyAll edits).keys.Nodup ∧
      (d.applyAll edits).size = (m.applyAll edits).keys.length ∧
      ((d.applyAll edits).commit board).1.size = (m.applyAll edits).keys.length := by
  have hafter := h.applyAll edits
  have hget (key : Key) : (d.applyAll edits).tree.get? key = (m.applyAll edits).find? key := by
    rw [← hafter.wf.find?_entries, hafter.entries_eq]
  have hsize : (d.applyAll edits).tree.size = (m.applyAll edits).keys.length := by
    rw [← hafter.wf.length_entries, hafter.entries_eq, Catalog.keys, List.length_map]
  exact ⟨h.answers_eq edits, fun key => ⟨hget key, hget key⟩, hafter.ascends.nodup, hsize, hsize⟩

/-- A draft is opened on a tree with the empty key and keys that part in the bytes 0 and 255.
Its edits replace a value, split an edge, merge two, and remove stems, one of which ends inside
an edge. -/
theorem refines_map_bytes :
    let first : Draft Nat :=
      (((Tree.empty ⟨⟨0, 0, 0⟩, 0, .node⟩).edit ⟨1, 0, 0⟩).apply (.insert [] 1)).apply
        (.insert [0, 255, 0] 2)
    let d := (first.commit {}).1.edit ⟨2, 0, 0⟩
    let m : Catalog Key Nat := [([], 1), ([0, 255, 0], 2)]
    let edits : List (Edit Nat) :=
      [.insert [] 3, .insert [0, 255] 4, .insert [0, 0] 5, .erase [0, 255], .erase [255],
        .eraseStem [0, 255], .eraseStem [1]]
    d.Arises m ∧
      m.answers edits = [.value (some 1), .value none, .value none, .value (some 4), .value none,
        .removed true, .removed false] ∧
      d.answers edits = m.answers edits ∧
      (∀ key, (d.applyAll edits).get? key = (m.applyAll edits).find? key ∧
        ((d.applyAll edits).commit {}).1.get? key = (m.applyAll edits).find? key) ∧
      (m.applyAll edits).keys.Nodup ∧
      (d.applyAll edits).size = (m.applyAll edits).keys.length ∧
      ((d.applyAll edits).commit {}).1.size = (m.applyAll edits).keys.length := by
  intro first d m edits
  have hfirst : first.Arises m := ((Arises.empty _ _).edit _).edit _
  have harises : d.Arises m := hfirst.reopen {} _
  have hanswers : m.answers edits = [.value (some 1), .value none, .value none, .value (some 4),
      .value none, .removed true, .removed false] := by decide
  exact ⟨harises, hanswers, refines_map harises edits {}⟩

end Draft

end SnapStore
