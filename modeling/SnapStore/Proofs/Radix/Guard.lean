import SnapStore.Radix.Tree
import SnapStore.Proofs.Radix.Map
import SnapStore.Proofs.Radix.Walk

/-! # Channels guard what they were given for

A reader of a tree that answers with a channel is guarded by it if every edit displaces the
channel or keeps the answer.

Main statements: `Guarded.applyAll` (over all edits of a draft), and `guarded_watch`,
`guarded_seek`, `guarded_seekDown` and `guarded_channel`, for every reader of a tree.
-/

namespace SnapStore

universe u v w

variable {V : Type u} {β : Type v}

/-! ## Edits of a draft -/

namespace Draft

variable {d : Draft V}

@[simp] theorem tracking_apply (d : Draft V) (e : Edit V) : (d.apply e).tracking = d.tracking := by
  cases e with
  | insert key value => rfl
  | erase key =>
    simp only [apply, erase]
    split <;> rfl
  | eraseStem stem =>
    simp only [apply, eraseStem]
    split <;> rfl

/-- An edit leaves a tree well-formed. -/
theorem wf_apply (h : d.tree.Wf) (e : Edit V) : (d.apply e).tree.Wf := by
  cases e with
  | insert key value => exact wf_insert h key value
  | erase key => exact wf_erase h key
  | eraseStem stem => exact wf_eraseStem h stem

theorem wf_applyAll (h : d.tree.Wf) (edits : List (Edit V)) : (d.applyAll edits).tree.Wf := by
  induction edits generalizing d with
  | nil => exact h
  | cons e edits ih => exact ih (wf_apply h e)

/-- After an edit a value was there before, or the edit has put it in. -/
theorem get?_apply_cases (h : d.tree.Wf) {e : Edit V} {key : Key} {value : V}
    (hget : (d.apply e).tree.get? key = some value) :
    d.tree.get? key = some value ∨ e = .insert key value := by
  cases e with
  | insert key' value' =>
    rw [apply, get?_insert h] at hget
    split at hget
    · rename_i heq
      obtain rfl := Option.some.inj hget
      exact .inr (heq ▸ rfl)
    · exact .inl hget
  | erase key' =>
    rw [apply, get?_erase h] at hget
    split at hget
    · cases hget
    · exact .inl hget
  | eraseStem stem =>
    rw [apply, get?_eraseStem h] at hget
    split at hget
    · cases hget
    · exact .inl hget

/-- After edits a value was there before, or is among those that they put in. -/
theorem get?_applyAll_cases (h : d.tree.Wf) {edits : List (Edit V)} {key : Key} {value : V}
    (hget : (d.applyAll edits).tree.get? key = some value) :
    d.tree.get? key = some value ∨ .insert key value ∈ edits := by
  induction edits generalizing d with
  | nil => exact .inl hget
  | cons e edits ih =>
    rcases ih (wf_apply h e) hget with hbefore | hmem
    · exact (get?_apply_cases h hbefore).imp_right fun heq =>
        List.mem_cons.2 (.inl heq.symm)
    · exact .inr (List.mem_cons_of_mem e hmem)

/-- An edit forgets no channel that was displaced before. -/
theorem displaced_subset_apply (d : Draft V) (e : Edit V) :
    d.displaced ⊆ (d.apply e).displaced := by
  have hafter (t : Tree V) (cs : List Channel) : d.displaced ⊆ (d.after t cs).displaced := by
    rw [displaced_after]
    split
    · exact List.subset_append_left _ _
    · exact List.Subset.refl _
  cases e with
  | insert key value => exact hafter _ _
  | erase key =>
    simp only [apply, erase]
    split
    · exact List.Subset.refl _
    · exact hafter _ _
  | eraseStem stem =>
    simp only [apply, eraseStem]
    split
    · exact List.Subset.refl _
    · exact hafter _ _

theorem displaced_subset_applyAll (d : Draft V) (edits : List (Edit V)) :
    d.displaced ⊆ (d.applyAll edits).displaced := by
  induction edits generalizing d with
  | nil => exact List.Subset.refl _
  | cons e edits ih => exact List.Subset.trans (displaced_subset_apply d e) (ih (d.apply e))

/-- A removal that changes the tree of a tracking draft adds to what the draft has displaced
what the removal from the root displaces. -/
theorem displaced_erase (ht : d.tracking = true) {key : Key}
    {e : Option (Node V) × List Channel} (he : d.tree.root.erase d.stamp 0 key = some e) :
    (d.erase key).1.displaced = d.displaced ++ e.2 ∧ (d.erase key).1.tree.root = d.rootOf e.1 := by
  simp [erase, he, displaced_after, ht]

theorem displaced_eraseStem (ht : d.tracking = true) {stem : Key}
    {e : Option (Node V) × List Channel} (he : d.tree.root.eraseStem d.stamp 0 stem = some e) :
    (d.eraseStem stem).1.displaced = d.displaced ++ e.2 ∧
      (d.eraseStem stem).1.tree.root = d.rootOf e.1 := by
  simp [eraseStem, he, displaced_after, ht]

end Draft

/-- The channel that comes with an answer guards it: an edit of a tracking draft displaces
the channel or keeps the answer. -/
def Guarded (f : Tree V → Channel × β) : Prop :=
  ∀ (d : Draft V) (e : Edit V), d.tree.Wf → d.tracking = true →
    (f d.tree).1 ∈ (d.apply e).displaced ∨ f (d.apply e).tree = f d.tree

namespace Guarded

variable {f : Tree V → Channel × β}

/-- The channel guards whatever is told by the answer. -/
theorem map {γ : Type w} (hf : Guarded f) (g : β → γ) : Guarded fun t => ((f t).1, g (f t).2) := by
  intro d e h ht
  rcases hf d e h ht with hd | hd
  · exact .inl hd
  · right
    simp only [hd]

/-- Over all edits of a draft, the channel is displaced or the answer is kept. -/
theorem applyAll (hf : Guarded f) {d : Draft V} (h : d.tree.Wf) (ht : d.tracking = true)
    (edits : List (Edit V)) :
    (f d.tree).1 ∈ (d.applyAll edits).displaced ∨ f (d.applyAll edits).tree = f d.tree := by
  induction edits generalizing d with
  | nil => exact .inr rfl
  | cons e edits ih =>
    rcases hf d e h ht with hd | hd
    · exact .inl (Draft.displaced_subset_applyAll (d.apply e) edits hd)
    · have hrest := ih (Draft.wf_apply h e) ((Draft.tracking_apply d e).trans ht)
      rwa [hd] at hrest

end Guarded

/-- What a lawful reader answers is guarded. -/
theorem Reader.Lawful.guarded {r : Reader V β} (hr : r.Lawful) (q : Key) :
    Guarded fun t => r.descend t.root q := by
  intro d e h ht
  refine Decidable.or_iff_not_imp_left.2 fun hd => ?_
  cases e with
  | insert key value =>
    -- what was displaced before does not matter, only what this edit displaces
    simp only [Draft.apply, Draft.insert, Draft.displaced_after, ht, if_true, List.mem_append,
      not_or] at hd
    exact Reader.descend_insert hr key value d.tree.root 0 key q h.root hd.2
  | erase key =>
    cases he : d.tree.root.erase d.stamp 0 key with
    | none => simp [Draft.apply, Draft.erase_absent he]
    | some r' =>
      rcases Draft.displaced_erase ht he with ⟨hdisp, hroot⟩
      simp only [Draft.apply, hdisp, List.mem_append, not_or] at hd
      obtain ⟨leaf, edges, heq, hsur⟩ :=
        Reader.survives_erase hr d.tree.root 0 key q r' h.root he hd.2
      -- the root is never joined with its only child
      rw [Node.settle_root] at heq
      simp only [Draft.apply, hroot, Draft.rootOf, heq, Option.getD_some]
      exact hsur.descend _
  | eraseStem stem =>
    cases he : d.tree.root.eraseStem d.stamp 0 stem with
    | none => simp [Draft.apply, Draft.eraseStem, he]
    | some r' =>
      rcases Draft.displaced_eraseStem ht he with ⟨hdisp, hroot⟩
      simp only [Draft.apply, hdisp, List.mem_append, not_or] at hd
      obtain ⟨leaf, edges, heq, hsur⟩ :=
        Reader.survives_eraseStem hr d.tree.root 0 stem q r' h.root he hd.2
      rw [Node.settle_root] at heq
      simp only [Draft.apply, hroot, Draft.rootOf, heq, Option.getD_some]
      exact hsur.descend _

/-! ## The readers of a tree -/

/-- The channel of the root guards everything. -/
theorem guarded_channel (g : Tree V → β) : Guarded fun t => (t.channel, g t) := by
  intro d e _ ht
  cases e with
  | insert key value =>
    left
    simp only [Draft.apply, Draft.insert, Draft.displaced_after, ht, if_true, List.mem_append]
    exact .inr (Reader.channel_mem_insert key value _ _ _)
  | erase key =>
    cases he : d.tree.root.erase d.stamp 0 key with
    | none => simp [Draft.apply, Draft.erase_absent he]
    | some r =>
      left
      simp only [Draft.apply, (Draft.displaced_erase ht he).1, List.mem_append]
      exact .inr (Reader.channel_mem_erase he)
  | eraseStem stem =>
    cases he : d.tree.root.eraseStem d.stamp 0 stem with
    | none => simp [Draft.apply, Draft.eraseStem, he]
    | some r =>
      left
      simp only [Draft.apply, (Draft.displaced_eraseStem ht he).1, List.mem_append]
      exact .inr (Reader.channel_mem_eraseStem he)

/-- A watch is guarded by its channel. -/
theorem guarded_watch (key : Key) : Guarded fun t : Tree V => t.watch key := by
  have h := (Reader.lawful_watch.guarded key).map (Option.map Leaf.value : Option (Leaf V) → _)
  simp only [Reader.descend_watch] at h
  exact h

/-- A seek is guarded by its channel. -/
theorem guarded_seek (stem : Key) : Guarded fun t : Tree V => t.seek stem := by
  have h := (Reader.lawful_seek.guarded stem).map fun n : Option (Node V) => n.elim [] Node.leaves
  simp only [Reader.descend_seek] at h
  have heq : (fun t : Tree V => t.seek stem) =
      fun t => ((t.root.seek stem).1, (t.root.seek stem).2.elim [] Node.leaves) :=
    funext fun t => t.seek_eq_root stem
  rwa [heq]

/-- A descending seek is guarded by its channel. -/
theorem guarded_seekDown (stem : Key) : Guarded fun t : Tree V => t.seekDown stem := by
  simpa only [Tree.seekDown_eq] using (guarded_seek stem).map List.reverse

end SnapStore
