import SnapStore.Proofs.Radix.Replaced
import SnapStore.Proofs.Radix.Lineage
import SnapStore.Proofs.Radix.Spots

/-! # What an edit touches

An edit covers the keys that it sets or removes, and it alters those that it sets and those that
it covers and the tree has. It leaves every other entry as it is, the channel included, whatever it
does to the nodes on the way. An owner of a channel goes with one of the edits of a draft and does
not come back.

Main statements: `mem_leaves_apply_iff` (which entries an edit leaves), `Accounts.gone_iff` (an
owner has gone once some edit has let it go) and `watch_fires_iff`.
-/

namespace SnapStore

universe u

variable {V : Type u}

namespace Edit

/-- The edit sets the key or removes it, whether or not it is there. -/
def Covers (key : Key) : Edit V → Prop
  | insert k _ => k = key
  | erase k => k = key
  | eraseStem stem => stem <+: key

/-- The edit sets the key, or removes it from a tree that has it. -/
def Alters (t : Tree V) (key : Key) : Edit V → Prop
  | insert k _ => k = key
  | erase k => k = key ∧ t.get? key ≠ none
  | eraseStem stem => stem <+: key ∧ t.get? key ≠ none

instance (key : Key) : ∀ e : Edit V, Decidable (e.Covers key)
  | insert k _ => inferInstanceAs (Decidable (k = key))
  | erase k => inferInstanceAs (Decidable (k = key))
  | eraseStem stem => inferInstanceAs (Decidable (stem <+: key))

theorem Alters.covers {t : Tree V} {key : Key} : ∀ {e : Edit V}, e.Alters t key → e.Covers key
  | insert _ _, h => h
  | erase _, h => h.1
  | eraseStem _, h => h.1

end Edit

/-- A stamp claims no channel that another name has made. -/
theorem Stamp.not_claims_of_region {s : Stamp} {cs : List Channel}
    (h : ∀ c ∈ cs, c.stamp.region ≠ s.region) : ∀ c ∈ cs, ¬ s.Claims c :=
  fun c hc hclaims => h c hc hclaims.1

/-! ## Leaves among the owners -/

namespace Node

mutual

/-- The leaves that own a channel are those of the tree. -/
theorem leaf_mem_owners {l : Leaf V} : ∀ n : Node V, .leaf l ∈ n.owners ↔ l ∈ n.leaves
  | mk _ _ leaf edges => by simp [owners, leaves, leaf_mem_ownersOf edges]

theorem leaf_mem_ownersOf {l : Leaf V} : ∀ ns : List (Node V),
    .leaf l ∈ ownersOf ns ↔ l ∈ leavesOf ns
  | [] => by simp [ownersOf, leavesOf]
  | n :: ns => by simp [ownersOf, leavesOf, leaf_mem_owners n, leaf_mem_ownersOf ns]

end

mutual

/-- A watch that finds a leaf comes with the leaf's own channel. -/
theorem watch_fst {l : Leaf V} : ∀ (n : Node V) (search : Key), n.find? search = some l →
    (n.watch search).1 = l.channel
  | mk _ _ none _, [], h => nomatch h
  | mk _ _ (some leaf) _, [], h => by
    obtain rfl : leaf = l := Option.some.inj h
    rfl
  | mk _ channel none edges, b :: rest, h => watchIn_fst channel edges (b :: rest) h
  | mk _ channel (some _) edges, b :: rest, h => watchIn_fst channel edges (b :: rest) h

theorem watchIn_fst {l : Leaf V} (channel : Channel) : ∀ (ns : List (Node V)) (search : Key),
    findIn? ns search = some l → (watchIn channel ns search).1 = l.channel
  | [], _, h => nomatch h
  | n :: ns, search, h => by
    rw [findIn?] at h
    rw [watchIn]
    split at h
    · rename_i hlabel
      rw [if_pos hlabel]
      cases ha : n.chunk.after? search with
      | none => simp [ha] at h
      | some rest =>
        rw [ha] at h
        exact watch_fst n rest h
    · rename_i hlabel
      rw [if_neg hlabel]
      exact watchIn_fst channel ns search h

end

end Node

theorem Tree.channel_mem_of_leaf {t : Tree V} {l : Leaf V} (hl : l ∈ t.leaves) :
    l.channel ∈ t.channels :=
  t.channel_mem ((Node.leaf_mem_owners t.root).2 hl)

theorem Tree.Wf.get?_ne_none_iff {t : Tree V} (h : t.Wf) {key : Key} :
    t.get? key ≠ none ↔ ∃ l ∈ t.leaves, l.key = key := by
  rw [ne_eq, Draft.get?_eq_none_iff h]
  simp

namespace Draft

variable {d : Draft V} {b : Board} {e : Edit V} {l : Leaf V}

theorem Reached.wf (h : d.Reached b) : d.tree.Wf := by
  induction h with
  | empty channel _ _ _ _ => exact Tree.wf_empty channel
  | edit _ e ih => exact wf_apply ih e
  | track _ _ ih => exact ih
  | notify _ ih => exact ih
  | reopen _ _ _ ih => exact ih
  | meanwhile _ _ ih => exact ih

/-! ## Which entries an edit leaves -/

/-- Of the entries that it did not make itself, an edit leaves those whose keys it does not
cover. -/
theorem mem_leaves_apply_iff (hw : d.tree.Wf) (hl : l.channel.stamp ≠ d.stamp) :
    l ∈ (d.apply e).tree.leaves ↔ l ∈ d.tree.leaves ∧ ¬ e.Covers l.key := by
  cases e with
  | insert key value =>
    rcases leaves_insert hw key value with ⟨depth, hperm⟩
    have hnew : l ≠ Node.newLeaf d.stamp depth key value := fun heq => hl (heq ▸ rfl)
    rw [apply, hperm.mem_iff, List.mem_cons, List.mem_filter, bne_iff_ne]
    simp only [hnew, false_or]
    exact and_congr_right fun _ => ne_comm
  | erase key =>
    rw [apply, (erase_spec hw key).2, List.mem_filter, bne_iff_ne]
    exact and_congr_right fun _ => ne_comm
  | eraseStem stem =>
    rw [apply, (eraseStem_spec hw stem).2]
    simp [Edit.Covers, ← Key.startsWith_iff]

/-- Where an edit alters a key, an entry with this key comes or goes. -/
theorem exists_leaf_of_alters (hl : d.Live b) (hw : d.tree.Wf) {key : Key}
    (h : e.Alters d.tree key) :
    ∃ l : Leaf V, l.key = key ∧ ¬ (l ∈ (d.apply e).tree.leaves ↔ l ∈ d.tree.leaves) := by
  have hold {l : Leaf V} (hmem : l ∈ d.tree.leaves) : l.channel.stamp ≠ d.stamp :=
    hl.stamp_ne (.inl (Tree.channel_mem_of_leaf hmem))
  by_cases hkey : d.tree.get? key = none
  · -- only an insertion alters a key that is not there
    cases e with
    | insert k value =>
      obtain rfl : k = key := h
      rcases leaves_insert hw k value with ⟨depth, hperm⟩
      refine ⟨Node.newLeaf d.stamp depth k value, rfl, fun hiff => ?_⟩
      exact hold (hiff.1 (hperm.mem_iff.2 List.mem_cons_self)) rfl
    | erase k => exact absurd hkey h.2
    | eraseStem stem => exact absurd hkey h.2
  · rcases hw.get?_ne_none_iff.1 hkey with ⟨l, hmem, rfl⟩
    refine ⟨l, rfl, fun hiff => ?_⟩
    exact ((mem_leaves_apply_iff hw (hold hmem)).1 (hiff.2 hmem)).2 h.covers

/-! ## When an owner goes -/

@[simp] theorem applyAll_nil (d : Draft V) : d.applyAll [] = d := rfl

@[simp] theorem applyAll_cons (d : Draft V) (e : Edit V) (edits : List (Edit V)) :
    d.applyAll (e :: edits) = (d.apply e).applyAll edits := rfl

/-- An owner that has gone does not come back. -/
theorem Accounts.gone_apply {t : Tree V} {x : Owner V} (h : Accounts t d) (hl : d.Live b)
    (ht : d.tracking = true) (hx : x ∈ t.root.owners) (hgone : x ∉ d.tree.root.owners) :
    x ∉ (d.apply e).tree.root.owners :=
  (h.apply hl ht e x hx).1 (displaced_subset_apply d e ((h x hx).2 hgone))

/-- What holds of one way to part a list with a first element. -/
theorem exists_parts_cons {α : Type u} {x : α} {xs : List α} {Q : List α → α → Prop} :
    (∃ before y after, x :: xs = before ++ y :: after ∧ Q before y) ↔
      Q [] x ∨ ∃ before y after, xs = before ++ y :: after ∧ Q (x :: before) y := by
  constructor
  · rintro ⟨_ | ⟨z, before⟩, y, after, heq, hq⟩
    · obtain ⟨rfl, rfl⟩ : x = y ∧ xs = after := by simpa using heq
      exact .inl hq
    · obtain ⟨rfl, rfl⟩ : x = z ∧ xs = before ++ y :: after := by simpa using heq
      exact .inr ⟨before, y, after, rfl, hq⟩
  · rintro (hq | ⟨before, y, after, rfl, hq⟩)
    · exact ⟨[], x, xs, rfl, hq⟩
    · exact ⟨x :: before, y, after, rfl, hq⟩

/-- An owner of a version has gone if and only if some edit on the way let it go, where `P` tells
which edits of which drafts do. -/
theorem Accounts.gone_iff {t : Tree V} {x : Owner V} {P : Draft V → Edit V → Prop}
    (hx : x ∈ t.root.owners)
    (hstep : ∀ {d : Draft V}, d.Live b → d.tree.Wf → x ∈ d.tree.root.owners →
      ∀ e, x ∉ (d.apply e).tree.root.owners ↔ P d e)
    (edits : List (Edit V)) (h : Accounts t d) (hl : d.Live b) (hw : d.tree.Wf)
    (ht : d.tracking = true) :
    x ∉ (d.applyAll edits).tree.root.owners ↔ x ∉ d.tree.root.owners ∨
      ∃ before e after, edits = before ++ e :: after ∧ P (d.applyAll before) e := by
  induction edits generalizing d with
  | nil => simp
  | cons e edits ih =>
    have hrest := ih (h.apply hl ht e) (hl.apply e) (wf_apply hw e) ((tracking_apply d e).trans ht)
    rw [exists_parts_cons, applyAll_cons, hrest, applyAll_nil]
    -- the first edit lets the owner go, or one of the others does
    by_cases hin : x ∈ d.tree.root.owners
    · have hnow := hstep hl hw hin e
      simp [hin, hnow]
    · have hnow : x ∉ (d.apply e).tree.root.owners := h.gone_apply hl ht hx hin
      simp [hin, hnow]

/-- A draft that is opened on a version whose channels are distinct, with a stamp that none of
them has, is live as long as nothing has fired. -/
theorem Live.open {t : Tree V} (hnodup : t.channels.Nodup) {s : Stamp}
    (hs : ∀ c ∈ t.channels, ¬ s.Claims c) : (t.edit s).Live {} where
  nodup := hnodup
  unfired _ _ := rfl
  kept _ _ hd := nomatch hd
  fresh c hc := ⟨fun hmem => hs c hmem hc, rfl⟩
  unmade _ _ hd := nomatch hd

/-- A commit fires the channel of an owner if and only if some edit let it go. -/
theorem owner_fires_iff {origin : Draft V} (h : origin.Reached b) {s : Stamp}
    (hs : ∀ c ∈ origin.tree.channels, ¬ s.Claims c) {x : Owner V}
    (hx : x ∈ origin.tree.root.owners) {P : Draft V → Edit V → Prop}
    (hstep : ∀ {d : Draft V}, d.Live {} → d.tree.Wf → x ∈ d.tree.root.owners →
      ∀ e, x ∉ (d.apply e).tree.root.owners ↔ P d e)
    (edits : List (Edit V)) (board : Board) :
    (((origin.tree.edit s).applyAll edits).commit board).2.isFired x.channel = true ↔
      board.isFired x.channel = true ∨ ∃ before e after, edits = before ++ e :: after ∧
        P ((origin.tree.edit s).applyAll before) e := by
  have hlive : (origin.tree.edit s).Live {} := Live.open h.live.nodup hs
  have hbooks : Accounts origin.tree (origin.tree.edit s) := Accounts.edit origin.tree s
  have hgone := hbooks.gone_iff hx hstep edits hlive h.wf rfl
  rw [isFired_commit_iff, Due, (hbooks.applyAll hlive rfl edits).1 x hx, hgone]
  simp [hx]

/-! ## The channel of an entry -/

/-- The channel of an entry is exact. Let a draft with a stamp of its own edit a version that has
the key. Its commit fires the channel that a watch of the key gave if and only if it was among the
edits to set the key, to remove it or to remove a stem of it. No edit of other keys fires it, in
whatever way the nodes around the entry are split, joined or copied. -/
theorem watch_fires_iff {origin : Draft V} (h : origin.Reached b) {s : Stamp}
    (hs : ∀ c ∈ origin.tree.channels, ¬ s.Claims c) {key : Key}
    (hkey : origin.tree.get? key ≠ none) (edits : List (Edit V)) (board : Board) :
    let t := origin.tree
    (((t.edit s).applyAll edits).commit board).2.isFired (t.watch key).1 = true ↔
      board.isFired (t.watch key).1 = true ∨ ∃ e ∈ edits, e.Covers key := by
  intro t
  rcases h.wf.get?_ne_none_iff.1 hkey with ⟨l, hl, rfl⟩
  have hchannel : (t.watch l.key).1 = (Owner.leaf l).channel :=
    Node.watch_fst t.root l.key (h.wf.find?_eq_some_iff.2 ⟨hl, rfl⟩)
  have hx : .leaf l ∈ t.root.owners := (Node.leaf_mem_owners t.root).2 hl
  have hstep {d : Draft V} (hlive : d.Live {}) (hw : d.tree.Wf) (hin : .leaf l ∈ d.tree.root.owners)
      (e : Edit V) : .leaf l ∉ (d.apply e).tree.root.owners ↔ e.Covers l.key := by
    have hmem : l ∈ d.tree.leaves := (Node.leaf_mem_owners _).1 hin
    have hold := hlive.stamp_ne (.inl (Tree.channel_mem_of_leaf hmem))
    have hiff := mem_leaves_apply_iff (e := e) hw hold
    rw [Node.leaf_mem_owners, ← Tree.leaves, hiff]
    simp [hmem]
  rw [hchannel, owner_fires_iff h hs hx (P := fun _ e => e.Covers l.key) hstep edits board]
  refine or_congr_right ⟨?_, ?_⟩
  · rintro ⟨before, e, after, rfl, he⟩
    exact ⟨e, by simp, he⟩
  · rintro ⟨e, hmem, he⟩
    rcases List.append_of_mem hmem with ⟨before, after, rfl⟩
    exact ⟨before, e, after, rfl, he⟩

/-- A key that ends below a fork is watched. First its sibling goes, so that the fork is joined with
the node of the key, and a shorter key splits the edge again: the channel stays silent. Then the key
is set once more. -/
theorem watch_fires_iff_bytes :
    let origin : Draft Nat :=
      (((Tree.empty ⟨⟨0, 0, 0⟩, 0, .node⟩).edit ⟨1, 0, 0⟩).apply (.insert [7, 0] 1)).apply
        (.insert [7, 255] 2)
    let t := origin.tree
    let s : Stamp := ⟨2, 0, 0⟩
    let around : List (Edit Nat) := [.erase [7, 255], .insert [7] 4, .eraseStem [7, 0, 0]]
    let onto : List (Edit Nat) := around ++ [.insert [7, 0] 5]
    origin.Reached {} ∧ (∀ c ∈ t.channels, ¬ s.Claims c) ∧ t.get? [7, 0] ≠ none ∧
      (((t.edit s).applyAll around).commit {}).2.isFired (t.watch [7, 0]).1 = false ∧
      (((t.edit s).applyAll onto).commit {}).2.isFired (t.watch [7, 0]).1 = true := by
  intro origin t s around onto
  have hempty : Stamp.Fresh ⟨1, 0, 0⟩ (Tree.empty ⟨⟨0, 0, 0⟩, 0, .node⟩ : Tree Nat) {} :=
    Stamp.fresh_of_region (by decide)
  have horigin : origin.Reached {} := ((Reached.empty _ _ {} rfl hempty).edit _).edit _
  have hs : ∀ c ∈ t.channels, ¬ s.Claims c := Stamp.not_claims_of_region (by decide +kernel)
  have hkey : t.get? [7, 0] ≠ none := by decide +kernel
  have haround := watch_fires_iff horigin hs hkey around {}
  have honto := watch_fires_iff horigin hs hkey onto {}
  refine ⟨horigin, hs, hkey, ?_, honto.2 (.inr (by decide))⟩
  exact Bool.eq_false_iff.2 fun hfired => absurd (haround.1 hfired) (by decide)

end Draft

end SnapStore
