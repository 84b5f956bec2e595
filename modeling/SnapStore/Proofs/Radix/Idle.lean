import SnapStore.Proofs.Radix.Touch

/-! # Removals that find nothing

A removal that answers that nothing was there leaves the draft as it is: the same root with the
same channel, the same size, and nothing more displaced. There is one exception. The removal of the
empty stem takes the root first and asks later whether it had entries; so it replaces and displaces
the root of a tree without entries too.

Main statements: `Idle.apply_eq`, `apply_eraseStem_nil` and `idle_leaves_no_trace`.
-/

namespace SnapStore

universe u

variable {V : Type u}

/-- A tree without entries has no node but its root. -/
theorem Tree.Wf.root_eq {t : Tree V} (h : t.Wf) (hnil : t.leaves = []) :
    t.root = .mk [] t.channel none [] := by
  rcases t with ⟨⟨chunk, channel, leaf, edges⟩, size⟩
  obtain rfl : chunk = [] := h.chunk
  rw [Tree.leaves, Node.leaves, List.append_eq_nil_iff] at hnil
  obtain rfl : leaf = none := by simpa using hnil.1
  cases edges with
  | nil => rfl
  | cons n ns =>
    have hn : n.Stands [] := (Node.wf_iff.1 h.root).2.stands List.mem_cons_self
    have hleaves : n.leaves = [] := (List.append_eq_nil_iff.1 hnil.2).1
    exact absurd hleaves (Node.leaves_ne_nil n hn.wf hn.full)

namespace Draft

variable {d : Draft V} {e : Edit V}

/-- The edit is a removal that answers that nothing was there. -/
def Idle (d : Draft V) : Edit V → Prop
  | .insert _ _ => False
  | .erase key => (d.erase key).2 = none
  | .eraseStem stem => (d.eraseStem stem).2 = false

/-- Each of the edits is idle when its turn comes. -/
def Idles (d : Draft V) : List (Edit V) → Prop
  | [] => True
  | e :: edits => d.Idle e ∧ (d.apply e).Idles edits

theorem Idle.erase_eq {key : Key} (h : d.Idle (.erase key)) : d.erase key = (d, none) := by
  refine erase_absent ((Node.erase_eq_none_iff d.stamp d.tree.root 0 key).2 ?_)
  have hget : d.get? key = none := (erase_snd d key).symm.trans h
  simpa [get?, Tree.get?] using hget

theorem Idle.seek_eq_nil {stem : Key} (h : d.Idle (.eraseStem stem)) :
    (d.tree.seek stem).2 = [] := by
  have hanswer := (eraseStem_snd d stem).symm.trans h
  simpa using hanswer

/-- The removal of the empty stem finds nothing only in a tree without entries. -/
theorem Idle.leaves_eq_nil (h : d.Idle (.eraseStem [])) : d.tree.leaves = [] := by
  have hall : (d.tree.seek []).2 = d.tree.leaves := by
    rcases d.tree with ⟨⟨chunk, channel, leaf, edges⟩, size⟩
    rfl
  exact hall.symm.trans h.seek_eq_nil

/-- The idle edits are those that alter nothing. -/
theorem idle_iff (hw : d.tree.Wf) : d.Idle e ↔ ∀ key, ¬ e.Alters d.tree key := by
  cases e with
  | insert key value => exact ⟨False.elim, fun hno => hno key rfl⟩
  | erase key =>
    have hanswer : d.Idle (.erase key) ↔ d.tree.get? key = none := by
      rw [Idle, erase_snd]
      rfl
    simp [hanswer, Edit.Alters]
  | eraseStem stem =>
    have hanswer : d.Idle (.eraseStem stem) ↔ (d.tree.seek stem).2 = [] := by
      rw [Idle, eraseStem_snd]
      simp
    rw [hanswer, hw.seek_eq_nil_iff]
    simp [Edit.Alters]

/-- If the removal of a stem takes a node without leaves, it is the root. -/
theorem stem_eq_nil_of_eraseStem (hw : d.tree.Wf) {stem : Key}
    {r : Option (Node V) × List Channel} (hr : d.tree.root.eraseStem d.stamp 0 stem = some r)
    (hnil : (d.tree.seek stem).2 = []) : stem = [] := by
  cases hs : (d.tree.root.seek stem).2 with
  | none =>
    rw [(Node.eraseStem_eq_none_iff d.stamp d.tree.root 0 stem).2 hs] at hr
    cases hr
  | some m =>
    have hm : m.leaves = [] := by rwa [Tree.seek_eq_root, hs] at hnil
    rcases (Node.spot_of_seek d.tree.root stem hw.root hs).2 with ⟨rfl, _⟩ | ⟨r, hr, _⟩
    · rfl
    · have hstands := (Node.stands_of_spot d.tree.root hw.root hr).2
      exact absurd hm (Node.leaves_ne_nil m hstands.wf hstands.full)

/-- An idle edit leaves the draft as it is, unless it removes the empty stem. -/
theorem Idle.apply_eq (hw : d.tree.Wf) (h : d.Idle e) (hne : e ≠ .eraseStem []) :
    d.apply e = d := by
  cases e with
  | insert key value => exact h.elim
  | erase key => exact congrArg Prod.fst h.erase_eq
  | eraseStem stem =>
    cases hr : d.tree.root.eraseStem d.stamp 0 stem with
    | none => simp [apply, eraseStem, hr]
    | some r => exact absurd (congrArg _ (stem_eq_nil_of_eraseStem hw hr h.seek_eq_nil)) hne

/-- The removal of the empty stem replaces the root, also one without entries. -/
theorem apply_eraseStem_nil (hw : d.tree.Wf) (hnil : d.tree.leaves = []) :
    d.apply (.eraseStem []) = d.after (Tree.empty (d.stamp.channel 0 .node)) [d.tree.channel] := by
  have hroot := hw.root_eq hnil
  have hsize : d.size = 0 := by rw [size, hw.size, hnil, List.length_nil]
  have herase : d.tree.root.eraseStem d.stamp 0 [] = some (none, [d.tree.channel]) := by
    rw [hroot]
    rfl
  simp [apply, eraseStem, herase, hsize, rootOf, Tree.empty]

/-- Idle edits leave the draft as it is, unless one of them removes the empty stem. -/
theorem Idles.applyAll_eq {edits : List (Edit V)} (hw : d.tree.Wf) (h : d.Idles edits)
    (hno : .eraseStem [] ∉ edits) : d.applyAll edits = d := by
  induction edits with
  | nil => rfl
  | cons e edits ih =>
    rw [List.mem_cons, not_or] at hno
    have hsame : d.apply e = d := h.1.apply_eq hw (Ne.symm hno.1)
    have hrest : (d.apply e).Idles edits := h.2
    rw [hsame] at hrest
    calc
      d.applyAll (e :: edits) = (d.apply e).applyAll edits := applyAll_cons d e edits
      _ = d.applyAll edits := by rw [hsame]
      _ = d := ih hrest hno.2

/-- Idle edits that remove the empty stem displace the root. -/
theorem Idles.displaced {edits : List (Edit V)} (hw : d.tree.Wf) (ht : d.tracking = true)
    (h : d.Idles edits) (hmem : .eraseStem [] ∈ edits) :
    d.tree.leaves = [] ∧ d.tree.channel ∈ (d.applyAll edits).displaced := by
  induction edits with
  | nil => cases hmem
  | cons e edits ih =>
    by_cases he : e = .eraseStem []
    · subst he
      have hnil := h.1.leaves_eq_nil
      refine ⟨hnil, displaced_subset_applyAll (d.apply (.eraseStem [])) edits ?_⟩
      rw [apply_eraseStem_nil hw hnil, displaced_after, ht, if_pos rfl]
      exact List.mem_append_right _ (List.mem_singleton_self _)
    · have hsame : d.apply e = d := h.1.apply_eq hw he
      have hrest : (d.apply e).Idles edits := h.2
      rw [hsame] at hrest
      have hfound := ih hrest ((List.mem_cons.1 hmem).resolve_left (Ne.symm he))
      rwa [applyAll_cons, hsame]

/-- What removals that find nothing leave behind. Each of them leaves the working copy as it is,
except for the removal of the empty stem, which finds nothing only in a tree without entries: that
one puts a new root in the place of the old one, and a draft that tracks displaces the old one.
So a draft with such removals only commits the version on which it was opened and fires nothing,
unless the empty stem is among them; then the channel of the version fires although nothing in it
has changed. -/
theorem idle_leaves_no_trace {b : Board} (h : d.Reached b) :
    (∀ e, d.Idle e → e ≠ .eraseStem [] → d.apply e = d) ∧
      (d.Idle (.eraseStem []) →
        d.tree.leaves = [] ∧
          (d.apply (.eraseStem [])).tree = Tree.empty (d.stamp.channel 0 .node) ∧
          (d.apply (.eraseStem [])).tree.channel ≠ d.tree.channel ∧
          (d.apply (.eraseStem [])).displaced =
            if d.tracking then d.displaced ++ [d.tree.channel] else d.displaced) ∧
      ∀ (s : Stamp) (edits : List (Edit V)) (board : Board), (d.tree.edit s).Idles edits →
        (.eraseStem [] ∉ edits →
          ((d.tree.edit s).applyAll edits).commit board = (d.tree, board)) ∧
        (.eraseStem [] ∈ edits → d.tree.leaves = [] ∧
          (((d.tree.edit s).applyAll edits).commit board).2.isFired d.tree.channel = true) := by
  refine ⟨fun e he hne => he.apply_eq h.wf hne, fun he => ?_, fun s edits board hidles => ?_⟩
  · have hnil := he.leaves_eq_nil
    have happly := apply_eraseStem_nil h.wf hnil
    refine ⟨hnil, by rw [happly, tree_after], fun hsame => ?_, by rw [happly, displaced_after]⟩
    -- the channel of the new root is one that the draft makes only now
    have hold : d.tree.channel ∈ d.tree.channels := Node.channel_mem_channels d.tree.root
    rw [happly, tree_after] at hsame
    exact h.live.stamp_ne (.inl hold) (hsame ▸ rfl)
  · have hw : (d.tree.edit s).tree.Wf := h.wf
    refine ⟨fun hno => ?_, fun hmem => ?_⟩
    · rw [hidles.applyAll_eq hw hno]
      rfl
    · rcases hidles.displaced hw rfl hmem with ⟨hnil, hdisplaced⟩
      exact ⟨hnil, isFired_commit_iff.2 (.inr hdisplaced)⟩

/-- Removals of keys and stems around an entry that stays: shorter, longer, and beside it. -/
theorem idle_leaves_no_trace_bytes :
    let d : Draft Nat :=
      ((Tree.empty ⟨⟨0, 0, 0⟩, 0, .node⟩).edit ⟨1, 0, 0⟩).apply (.insert [7, 0] 1)
    let s : Stamp := ⟨2, 0, 0⟩
    let edits : List (Edit Nat) :=
      [.erase [7], .erase [], .erase [7, 0, 0], .eraseStem [7, 0, 0], .eraseStem [7, 1],
        .eraseStem [8]]
    d.Reached {} ∧ d.Idle (.erase [7]) ∧ (d.tree.edit s).Idles edits ∧
      d.apply (.erase [7]) = d ∧
      ((d.tree.edit s).applyAll edits).commit {} = (d.tree, ({} : Board)) := by
  intro d s edits
  have hempty : Stamp.Fresh ⟨1, 0, 0⟩ (Tree.empty ⟨⟨0, 0, 0⟩, 0, .node⟩ : Tree Nat) {} :=
    Stamp.fresh_of_region (by decide)
  have hd : d.Reached {} := (Reached.empty _ _ {} rfl hempty).edit _
  have hidle : d.Idle (.erase [7]) := rfl
  have hidles : (d.tree.edit s).Idles edits := ⟨rfl, rfl, rfl, rfl, rfl, rfl, trivial⟩
  rcases idle_leaves_no_trace hd with ⟨heach, _, hall⟩
  exact ⟨hd, hidle, hidles, heach _ hidle (by decide), (hall s edits {} hidles).1 (by decide)⟩

/-- On a tree without entries the removal of the empty stem answers that it removed nothing. It has
replaced the root and displaced its channel, which fires with the commit. -/
theorem empty_stem_leaves_trace :
    let t : Tree Nat := Tree.empty ⟨⟨0, 0, 0⟩, 0, .node⟩
    let d := t.edit ⟨1, 0, 0⟩
    let d' := d.apply (.eraseStem [])
    d.Reached {} ∧ (d.eraseStem []).2 = false ∧ d'.tree.channel ≠ d.tree.channel ∧
      d.displaced = [] ∧ d'.displaced = [t.channel] ∧
      (d.commit {}).2.isFired t.channel = false ∧ (d'.commit {}).2.isFired t.channel = true := by
  intro t d d'
  have hempty : Stamp.Fresh ⟨1, 0, 0⟩ t {} := Stamp.fresh_of_region (by decide)
  exact ⟨Reached.empty _ _ {} rfl hempty, by decide, by decide, by decide, by decide, by decide,
    by decide⟩

end Draft

end SnapStore
