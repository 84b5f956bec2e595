import SnapStore.Proofs.Catalog
import SnapStore.Proofs.Radix.Guard
import SnapStore.Transaction.Write
import SnapStore.Store

/-! # The trees a transaction sees

A forest gives the tree at each path. The forest of a root is what the root holds; the
forest of a transaction has the draft of each touched index in place of the captured tree.

Main statements: `forest_withEdits` (edits of one index change its tree and no other),
`get?_rootDraft` (the root to publish holds the forest of the transaction) and
`Sound.wf_forest` (every tree of a sound transaction is well-formed).
-/

namespace SnapStore

variable {α : Type}

/-- The trees at all paths. -/
abbrev Forest (α : Type) := Key → Option (Tree α)

namespace Forest

/-- The object that an index of a table holds under a stored key. -/
def value? (F : Forest α) (table index : String) (key : Key) : Option α :=
  (F (indexPath table index)).bind (·.get? key)

theorem value?_eq {F : Forest α} {table index : String} {tree : Tree α}
    (h : F (indexPath table index) = some tree) (key : Key) :
    F.value? table index key = tree.get? key := by
  rw [value?, h, Option.bind_some]

/-- A well-formed tree stands at each declared path, and nothing elsewhere. -/
structure Wf (F : Forest α) (s : Schema α) : Prop where
  isSome_iff : ∀ path, (F path).isSome = true ↔ path ∈ s.paths
  tree : ∀ path tree, F path = some tree → tree.Wf

namespace Wf

variable {F : Forest α} {s : Schema α}

theorem exists_tree (h : F.Wf s) {path : Key} (hp : path ∈ s.paths) :
    ∃ tree, F path = some tree ∧ tree.Wf := by
  rcases Option.isSome_iff_exists.1 ((h.isSome_iff path).2 hp) with ⟨tree, ht⟩
  exact ⟨tree, ht, h.tree path tree ht⟩

end Wf

end Forest

/-! ## Transactions -/

namespace Txn

/-- The trees a transaction sees. -/
def forest (t : Txn α) : Forest α := fun path =>
  match t.handles.find? path with
  | some draft => some draft.tree
  | none => t.root.get? path

/-- The draft a transaction would edit at a path. -/
def draftAt (t : Txn α) (path : Key) : Option (Draft α) :=
  match t.handles.find? path with
  | some draft => some draft
  | none => (t.root.get? path).map fun tree => (tree.edit t.nextStamp).track t.primary

/-- The transaction after edits of the tree at a path. -/
def withEdits (t : Txn α) (path : Key) (edits : List (Edit α)) : Txn α :=
  match t.draftAt path with
  | some draft => { t with handles := Catalog.insert path (draft.applyAll edits) t.handles }
  | none => t

theorem readable_eq (t : Txn α) (table index : String) :
    t.readable table index =
      match t.forest (indexPath table index) with
      | some tree => .ok tree
      | none => .error (.indexNotFound table index) := by
  simp only [readable, forest]
  cases Catalog.find? t.handles (indexPath table index) <;> rfl

theorem writable_eq (t : Txn α) (table index : String) :
    t.writable table index =
      match t.draftAt (indexPath table index) with
      | some draft => .ok draft
      | none => .error (.indexNotFound table index) := by
  simp only [writable, draftAt]
  cases Catalog.find? t.handles (indexPath table index) with
  | some draft => rfl
  | none => cases t.root.get? (indexPath table index) <;> rfl

theorem tree_draftAt (t : Txn α) (path : Key) :
    (t.draftAt path).map Draft.tree = t.forest path := by
  unfold draftAt forest
  cases Catalog.find? t.handles path with
  | some draft => rfl
  | none => cases t.root.get? path <;> rfl

/-- A transaction without drafts sees its root. -/
theorem forest_of_handles {t : Txn α} (h : t.handles = []) : t.forest = t.root.get? := by
  funext path
  rw [forest, h]
  rfl

/-- Edits change the drafts of a transaction and nothing else of it. -/
theorem exists_handles_withEdits (t : Txn α) (path : Key) (edits : List (Edit α)) :
    ∃ handles, t.withEdits path edits = { t with handles := handles } := by
  unfold withEdits
  split
  · exact ⟨_, rfl⟩
  · exact ⟨t.handles, rfl⟩

/-- Edits of one index change its tree and no other. -/
theorem forest_withEdits {t : Txn α} {path : Key} {draft : Draft α}
    (h : t.draftAt path = some draft) (edits : List (Edit α)) (path' : Key) :
    (t.withEdits path edits).forest path' =
      if path' = path then some (draft.applyAll edits).tree else t.forest path' := by
  simp only [withEdits, h, forest, Catalog.find?_insert]
  by_cases hp : path = path'
  · simp [hp]
  · simp [hp, Ne.symm hp]

theorem forest_withEdits_of_ne (t : Txn α) {path path' : Key} (edits : List (Edit α))
    (hne : path' ≠ path) : (t.withEdits path edits).forest path' = t.forest path' := by
  cases hd : t.draftAt path with
  | none => simp only [withEdits, hd]
  | some draft => rw [forest_withEdits hd, if_neg hne]

/-! ## Sound transactions -/

/-- What every transaction keeps to: it reads from a well-formed root with a tree for each
index, and each of its drafts comes by edits from the tree at its path. -/
structure Sound (t : Txn α) : Prop where
  root : t.root.Wf
  trees : Forest.Wf t.root.get? t.schema
  ascends : Ascends t.handles
  drafts : ∀ path draft, t.handles.find? path = some draft → ∃ tree stamp edits,
    t.root.get? path = some tree ∧ draft = ((tree.edit stamp).track t.primary).applyAll edits

namespace Sound

variable {t : Txn α}

theorem wf_forest (h : t.Sound) : t.forest.Wf t.schema := by
  constructor
  · intro path
    rw [← h.trees.isSome_iff path, forest]
    cases hf : t.handles.find? path with
    | none => exact Iff.rfl
    | some draft =>
      rcases h.drafts path draft hf with ⟨tree, _, _, ht, _⟩
      simp [ht]
  · intro path tree ht
    rw [forest] at ht
    cases hf : t.handles.find? path with
    | none =>
      rw [hf] at ht
      exact h.trees.tree path tree ht
    | some draft =>
      rcases h.drafts path draft hf with ⟨tree', stamp, edits, ht', rfl⟩
      rw [hf] at ht
      obtain rfl := Option.some.inj ht
      exact Draft.wf_applyAll (h.trees.tree path tree' ht') edits

theorem exists_draftAt (h : t.Sound) {path : Key} (hp : path ∈ t.schema.paths) :
    ∃ draft, t.draftAt path = some draft ∧ draft.tree.Wf := by
  rcases h.wf_forest.exists_tree hp with ⟨tree, ht, hw⟩
  have hd := t.tree_draftAt path
  rw [ht, Option.map_eq_some_iff] at hd
  rcases hd with ⟨draft, hdraft, rfl⟩
  exact ⟨draft, hdraft, hw⟩

/-- Edits keep a transaction sound. -/
theorem withEdits (h : t.Sound) (path : Key) (edits : List (Edit α)) :
    (t.withEdits path edits).Sound := by
  unfold Txn.withEdits
  cases hd : t.draftAt path with
  | none => exact h
  | some draft =>
    refine ⟨h.root, h.trees, h.ascends.insert path _, fun path' draft' hf => ?_⟩
    rw [Catalog.find?_insert] at hf
    split at hf
    · rename_i heq
      subst heq
      obtain rfl := Option.some.inj hf
      unfold draftAt at hd
      cases hold : t.handles.find? path with
      | some old =>
        -- the edits come behind those that led to the draft
        rw [hold] at hd
        obtain rfl := Option.some.inj hd
        rcases h.drafts path old hold with ⟨tree, stamp, edits', ht, rfl⟩
        refine ⟨tree, stamp, edits' ++ edits, ht, ?_⟩
        rw [Draft.applyAll, Draft.applyAll, Draft.applyAll, List.foldl_append]
      | none =>
        -- the draft is opened on the captured tree
        rw [hold, Option.map_eq_some_iff] at hd
        rcases hd with ⟨tree, ht, rfl⟩
        exact ⟨tree, t.nextStamp, edits, ht, rfl⟩
    · exact h.drafts path' draft' hf

end Sound

/-! ## The root to publish -/

/-- Putting trees in place one after another leaves the last one at each path. -/
theorem get?_foldl_insert (handles : Catalog Key (Draft α)) :
    ∀ d : Draft (Tree α), d.tree.Wf → handles.keys.Nodup →
      (handles.foldl (fun d (path, draft) => (d.insert path draft.tree).1) d).tree.Wf ∧
        ∀ path, (handles.foldl (fun d (path, draft) => (d.insert path draft.tree).1) d).tree.get?
            path =
          match handles.find? path with
          | some draft => some draft.tree
          | none => d.tree.get? path := by
  induction handles with
  | nil =>
    intro d hw _
    exact ⟨hw, fun _ => rfl⟩
  | cons p rest ih =>
    intro d hw hnd
    rcases p with ⟨k, draft⟩
    simp only [Catalog.keys, List.map_cons, List.nodup_cons] at hnd
    rcases ih (d.insert k draft.tree).1 (Draft.wf_insert hw k draft.tree) hnd.2 with ⟨hw', hget⟩
    refine ⟨hw', fun path => ?_⟩
    rw [List.foldl_cons, hget path, Catalog.find?]
    by_cases hk : k = path
    · -- no later tree is put in its place
      subst hk
      rw [Catalog.find?_eq_none_iff.2 hnd.1]
      simp [Draft.get?_insert hw]
    · rw [if_neg hk, Draft.get?_insert hw, if_neg (Ne.symm hk)]

/-- The root draft comes by an insertion for each draft of the transaction. -/
theorem rootDraft_eq (t : Txn α) (stamp : Stamp) (tracking : Bool) :
    t.rootDraft stamp tracking = ((t.root.edit stamp).track tracking).applyAll
      (t.handles.map fun x => .insert x.1 x.2.tree) := by
  rw [rootDraft, Draft.applyAll, List.foldl_map]
  rfl

/-- The root to publish holds the trees the transaction sees. -/
theorem get?_rootDraft {t : Txn α} (h : t.Sound) (stamp : Stamp) (tracking : Bool) :
    (t.rootDraft stamp tracking).tree.Wf ∧
      ∀ path, (t.rootDraft stamp tracking).tree.get? path = t.forest path := by
  obtain ⟨hw, hget⟩ :=
    get?_foldl_insert t.handles ((t.root.edit stamp).track tracking) h.root h.ascends.nodup
  exact ⟨hw, hget⟩

/-- The root that a commit of the transaction puts in place. -/
def published (t : Txn α) : Root α :=
  (t.rootDraft ⟨t.name, 0, 0⟩ t.primary).tree

theorem Sound.get?_published {t : Txn α} (h : t.Sound) : t.published.get? = t.forest :=
  funext (get?_rootDraft h ⟨t.name, 0, 0⟩ t.primary).2

/-- The root of a snapshot holds what the transaction sees. -/
theorem Sound.get?_view {t : Txn α} (h : t.Sound) (name : Nat) :
    (if t.handles.isEmpty then t.root else (t.rootDraft ⟨name, 0, 0⟩ false).tree).get? =
      t.forest := by
  split
  · rename_i hempty
    exact (forest_of_handles (List.isEmpty_iff.1 hempty)).symm
  · exact funext (get?_rootDraft h ⟨name, 0, 0⟩ false).2

end Txn

end SnapStore
