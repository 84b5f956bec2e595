import SnapStore.Proofs.Radix.Refinement

/-! # Channels over many versions

A channel that a version gave away is checked against versions far down the line: drafts are
opened one on the other, each with edits of its own, and what they displaced has fired by the
time the last of them commits.

Main statements: `Guarded.descends` (what holds along the way, for every guarded reader) and
`fired_of_change`.
-/

namespace SnapStore

universe u v

variable {V : Type u} {β : Type v}

namespace Draft

/-- Tracking drafts lead from the version `t` and the board `b` to the working copy `d` and the
board `b'`. Each is opened on the version that the one before it committed, and any of them may
tell early whom it has displaced. Others who share the board fire channels meanwhile, but nobody
takes a signal back. -/
inductive Descends (t : Tree V) (b : Board) : Draft V → Board → Prop
  | first (stamp : Stamp) : Descends t b (t.edit stamp) b
  | edit {d : Draft V} {b' : Board} (h : Descends t b d b') (e : Edit V) :
    Descends t b (d.apply e) b'
  | notify {d : Draft V} {b' : Board} (h : Descends t b d b') :
    Descends t b (d.notify b').1 (d.notify b').2
  | reopen {d : Draft V} {b' : Board} (h : Descends t b d b') (stamp : Stamp) :
    Descends t b ((d.commit b').1.edit stamp) (d.commit b').2
  | meanwhile {d : Draft V} {b' b'' : Board} (h : Descends t b d b')
    (hfired : ∀ c, b'.isFired c = true → b''.isFired c = true) : Descends t b d b''

namespace Descends

variable {t : Tree V} {b b' : Board} {d : Draft V}

theorem wf (h : Descends t b d b') (ht : t.Wf) : d.tree.Wf := by
  induction h with
  | first _ => exact ht
  | edit _ e ih => exact wf_apply ih e
  | notify _ ih => exact ih
  | reopen _ _ ih => exact ih
  | meanwhile _ _ ih => exact ih

theorem tracking (h : Descends t b d b') : d.tracking = true := by
  induction h with
  | first _ => rfl
  | edit _ e ih => rw [tracking_apply, ih]
  | notify _ ih => exact ih
  | reopen _ _ _ => rfl
  | meanwhile _ _ ih => exact ih

end Descends

end Draft

/-! ## What a commit is due to fire -/

namespace Draft

/-- A channel is due if it has fired, or waits among those that the draft has displaced. -/
def Due (d : Draft V) (b : Board) (c : Channel) : Prop :=
  b.isFired c = true ∨ c ∈ d.displaced

variable {d : Draft V} {b : Board} {c : Channel}

theorem isFired_commit_iff : (d.commit b).2.isFired c = true ↔ d.Due b c := by
  rw [isFired_commit, Bool.or_eq_true, List.contains_iff_mem, or_comm]
  rfl

theorem Due.apply (h : d.Due b c) (e : Edit V) : (d.apply e).Due b c :=
  h.imp_right fun hc => displaced_subset_apply d e hc

end Draft

namespace Guarded

variable {f : Tree V → Channel × β} {t : Tree V} {b b' : Board} {d : Draft V}

/-- Along drafts that track, the channel of an answer is due or the answer is kept. -/
theorem descends (hf : Guarded f) (ht : t.Wf) (h : Draft.Descends t b d b') :
    d.Due b' (f t).1 ∨ f d.tree = f t := by
  induction h with
  | first _ => exact .inr rfl
  | edit h e ih =>
    rcases ih with hdue | hkept
    · exact .inl (hdue.apply e)
    · -- the answer is still that of `t`, so its channel guards this edit too
      rcases hf _ e (h.wf ht) h.tracking with hd | hsame
      · exact .inl (.inr (hkept ▸ hd))
      · exact .inr (hsame.trans hkept)
  | notify _ ih => exact ih.imp_left fun hdue => .inl (Draft.isFired_commit_iff.2 hdue)
  | reopen _ _ ih => exact ih.imp_left fun hdue => .inl (Draft.isFired_commit_iff.2 hdue)
  | meanwhile _ hfired ih => exact ih.imp_left fun hdue => hdue.imp_left (hfired _)

/-- Once the last draft has committed, the channel of an answer that differs now has fired. -/
theorem isFired_of_ne (hf : Guarded f) (ht : t.Wf) (h : Draft.Descends t b d b')
    (hne : (f d.tree).2 ≠ (f t).2) : (d.commit b').2.isFired (f t).1 = true := by
  rcases hf.descends ht h with hdue | hkept
  · exact Draft.isFired_commit_iff.2 hdue
  · exact absurd (congrArg Prod.snd hkept) hne

end Guarded

/-- The entry that a watch finds is guarded as it stands: a like value that another entry brings
is a change. -/
theorem guarded_entry (key : Key) : Guarded fun t : Tree V => t.root.watch key := by
  simpa only [Reader.descend_watch] using Reader.lawful_watch.guarded (V := V) key

namespace Draft

/-- No change is missed, however many versions lie between. Let drafts that track lead from a
version `t` to a last commit. If the entry at a key is another one then, has come or has gone,
the channel of the watch of the key in `t` has fired. If the entries with a stem are others or
stand in another order, the channels of both seeks of the stem in `t` have fired. If any entry
is another one, the channel of `t` has fired. Entries are compared with the channels they own,
so that a like value in place of another counts as a change. -/
theorem fired_of_change {origin : Draft V} {m : Catalog Key V} (ho : origin.Arises m)
    {b b' : Board} {d : Draft V} (h : Descends origin.tree b d b') (q : Key) :
    let t := origin.tree
    let t' := (d.commit b').1
    let board := (d.commit b').2
    (t'.root.find? q ≠ t.root.find? q → board.isFired (t.watch q).1 = true) ∧
      (t'.leaves.filter (·.key.startsWith q) ≠ t.leaves.filter (·.key.startsWith q) →
        board.isFired (t.seek q).1 = true ∧ board.isFired (t.seekDown q).1 = true) ∧
      (t'.leaves ≠ t.leaves → board.isFired t.channel = true) := by
  intro t t' board
  have ht : t.Wf := ho.wf
  have hseek (hne : t'.leaves.filter (·.key.startsWith q) ≠ t.leaves.filter (·.key.startsWith q)) :
      (d.tree.seek q).2 ≠ (t.seek q).2 := by
    rwa [(h.wf ht).seek_eq q, ht.seek_eq q]
  refine ⟨fun hne => ?_, fun hne => ⟨?_, ?_⟩, fun hne => ?_⟩
  · refine (guarded_entry q).isFired_of_ne ht h ?_
    rwa [Node.watch_snd, Node.watch_snd]
  · exact (guarded_seek q).isFired_of_ne ht h (hseek hne)
  · -- both directions list the same entries under the same channel
    refine (guarded_seekDown q).isFired_of_ne ht h ?_
    rw [Tree.seekDown_eq, Tree.seekDown_eq]
    exact fun heq => hseek hne (List.reverse_inj.1 heq)
  · exact (guarded_channel Tree.leaves).isFired_of_ne ht h hne

/-- A key is watched that no entry has yet: it ends at a node that parts two others. The first
draft removes one of them, so that the other absorbs the node, and the second splits it again to
set the key. -/
theorem fired_of_change_bytes :
    let origin : Draft Nat :=
      (((Tree.empty ⟨⟨0, 0, 0⟩, 0, .node⟩).edit ⟨1, 0, 0⟩).apply (.insert [7, 0] 1)).apply
        (.insert [7, 255] 2)
    let first := (origin.tree.edit ⟨2, 0, 0⟩).apply (.eraseStem [7, 255])
    let second := ((first.commit {}).1.edit ⟨3, 0, 0⟩).apply (.insert [7] 3)
    let b' := (first.commit {}).2
    let t := origin.tree
    let t' := (second.commit b').1
    let board := (second.commit b').2
    origin.Arises [([7, 0], 1), ([7, 255], 2)] ∧ Descends t {} second b' ∧
      t'.root.find? [7] ≠ t.root.find? [7] ∧
      t'.leaves.filter (·.key.startsWith [7]) ≠ t.leaves.filter (·.key.startsWith [7]) ∧
      t'.leaves ≠ t.leaves ∧
      board.isFired (t.watch [7]).1 = true ∧ board.isFired (t.seek [7]).1 = true ∧
      board.isFired (t.seekDown [7]).1 = true ∧ board.isFired t.channel = true := by
  intro origin first second b' t t' board
  have ho : origin.Arises [([7, 0], 1), ([7, 255], 2)] := ((Arises.empty _ _).edit _).edit _
  have hd : Descends t {} second b' := (((Descends.first _).edit _).reopen _).edit _
  have hfind : t'.root.find? [7] ≠ t.root.find? [7] := by decide +kernel
  have hstem : t'.leaves.filter (·.key.startsWith [7]) ≠
      t.leaves.filter (·.key.startsWith [7]) := by
    decide +kernel
  have hall : t'.leaves ≠ t.leaves := by decide +kernel
  rcases fired_of_change ho hd [7] with ⟨hwatch, hseek, hroot⟩
  exact ⟨ho, hd, hfind, hstem, hall, hwatch hfind, (hseek hstem).1, (hseek hstem).2, hroot hall⟩

end Draft

end SnapStore
