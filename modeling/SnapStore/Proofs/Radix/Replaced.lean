import SnapStore.Proofs.Radix.Exchange
import SnapStore.Proofs.Radix.Guard

/-! # A commit fires what it replaced, and nothing else

As long as working copies use stamps of their own, the channels of a version are distinct, none
of them has fired, and none is made twice. The books of the edits then tell, owner by owner, what
became of a version.

Main statements: `Reached.live` (what holds along all drafts) and `fired_iff_replaced`.
-/

namespace SnapStore

universe u

variable {V : Type u}

/-! ## Exchanges of distinct channels -/

namespace Exchange

variable {P : Channel → Prop} {old new gone made : List (Owner V)} {x : Owner V}

theorem mem_new (h : Exchange P old new gone made) (hx : x ∈ new) : x ∈ old ∨ x ∈ made :=
  List.mem_append.1 (h.balance.subset (List.mem_append_left gone hx))

theorem mem_gone (h : Exchange P old new gone made) (hx : x ∈ gone) : x ∈ old ∨ x ∈ made :=
  List.mem_append.1 (h.balance.subset (List.mem_append_right new hx))

theorem mem_of_old (h : Exchange P old new gone made) (hx : x ∈ old) : x ∈ new ∨ x ∈ gone :=
  List.mem_append.1 (h.balance.symm.subset (List.mem_append_left made hx))

/-- If the old channels are distinct and nothing like the new ones was among them, all that come
out of an exchange are distinct. -/
theorem nodup_out (h : Exchange P old new gone made) (hold : (old.map Owner.channel).Nodup)
    (hP : ∀ c ∈ old.map Owner.channel, ¬ P c) :
    (new.map Owner.channel ++ gone.map Owner.channel).Nodup := by
  have hin : ((old ++ made).map Owner.channel).Nodup := by
    rw [List.map_append, List.nodup_append]
    refine ⟨hold, h.nodup, fun c hc c' hc' heq => ?_⟩
    rcases List.mem_map.1 hc' with ⟨y, hy, rfl⟩
    exact hP c hc (heq ▸ h.fits y hy)
  rw [← List.map_append]
  exact (h.balance.map Owner.channel).nodup_iff.2 hin

end Exchange

theorem Tree.channel_mem {x : Owner V} (t : Tree V) (hx : x ∈ t.root.owners) :
    x.channel ∈ t.channels := by
  rw [Tree.channels, ← Node.map_channel_owners]
  exact List.mem_map_of_mem hx

/-! ## One edit of a draft -/

namespace Node

variable {s : Stamp} {n : Node V} {r : Option (Node V) × List Channel}

/-- The root stays a node when a key is removed. -/
theorem exists_erase_root {search : Key} (h : n.erase s 0 search = some r) :
    ∃ m, r.1 = some m := by
  rcases erase_cases h with ⟨_, _, _, rfl⟩ | ⟨_, _, _, _, _, rfl⟩ <;> exact ⟨_, rfl⟩

/-- The root goes only with the stem of all keys. -/
theorem eraseStem_root {stem : Key} (h : n.eraseStem s 0 stem = some r) :
    r = (none, n.channels) ∨ ∃ m, r.1 = some m := by
  rcases eraseStem_cases h with ⟨_, rfl⟩ | ⟨_, _, _, _, _, rfl⟩
  · exact .inl rfl
  · exact .inr ⟨_, rfl⟩

end Node

namespace Draft

/-- An edit of a draft does nothing, or it exchanges owners: it makes channels with the stamp of
the draft and goes on to the next stamp, and a draft that tracks adds what was displaced. -/
theorem apply_cases (d : Draft V) (e : Edit V) :
    d.apply e = d ∨ ∃ cs,
      Exchanges (·.stamp = d.stamp) d.tree.root.owners (d.apply e).tree.root.owners cs ∧
        (d.apply e).displaced = (if d.tracking then d.displaced ++ cs else d.displaced) ∧
        (d.apply e).stamp = d.stamp.next := by
  have hstamp {old new : List (Owner V)} {cs : List Channel}
      (h : Exchanges (Channel.From d.stamp 0) old new cs) :
      Exchanges (·.stamp = d.stamp) old new cs := h.mono fun _ hc => hc.1
  have hroot {m : Node V} {cs : List Channel}
      (h : Exchanges (Channel.From d.stamp 0) d.tree.root.owners
        (Node.ownersOf (some m).toList) cs) :
      Exchanges (·.stamp = d.stamp) d.tree.root.owners m.owners cs := by
    simpa [Node.ownersOf] using hstamp h
  cases e with
  | insert key value =>
    right
    refine ⟨_, hstamp (Node.exchanges_insert d.stamp key value d.tree.root 0 key), ?_, rfl⟩
    exact displaced_after d _ _
  | erase key =>
    cases he : d.tree.root.erase d.stamp 0 key with
    | none => exact .inl (congrArg Prod.fst (erase_absent he))
    | some r =>
      right
      have hex := Node.exchanges_erase d.stamp d.tree.root 0 key r he
      rcases Node.exists_erase_root he with ⟨m, hm⟩
      rw [hm] at hex
      refine ⟨r.2, ?_, ?_, ?_⟩
      · simpa [apply, erase, he, after, rootOf, hm] using hroot hex
      · simp [apply, erase, he, displaced_after]
      · simp [apply, erase, he, after]
  | eraseStem stem =>
    cases he : d.tree.root.eraseStem d.stamp 0 stem with
    | none => exact .inl (by simp [apply, eraseStem, he])
    | some r =>
      right
      have hex := Node.exchanges_eraseStem d.stamp d.tree.root 0 stem r he
      refine ⟨r.2, ?_, ?_, ?_⟩
      · rcases Node.eraseStem_root he with rfl | ⟨m, hm⟩
        · -- an empty root takes the place of the one that went
          let root : Node V := .mk [] (d.stamp.channel 0 .node) none []
          have hswap : Exchanges (·.stamp = d.stamp) (d.tree.root.owners ++ []) ([.node root] ++ [])
              (d.tree.root.owners.map Owner.channel) := by
            refine Exchanges.swap _ _ ?_ ?_ []
            · simp
            · simp [Owner.channel, Node.channel, root, Stamp.channel]
          rw [List.append_nil, Node.map_channel_owners] at hswap
          simpa [apply, eraseStem, he, after, rootOf, Node.owners, Node.ownersOf, root] using hswap
        · rw [hm] at hex
          simpa [apply, eraseStem, he, after, rootOf, hm] using hroot hex
      · simp [apply, eraseStem, he, displaced_after]
      · simp [apply, eraseStem, he, after]

end Draft

/-! ## Stamps that nobody has used -/

namespace Stamp

/-- The channel is one that a working copy can still make if its next edit has the stamp `s`. -/
def Claims (s : Stamp) (c : Channel) : Prop :=
  c.stamp.region = s.region ∧ c.stamp.slot = s.slot ∧ s.turn ≤ c.stamp.turn

/-- A working copy with the stamp `s` makes no channel that the tree has or that has fired. -/
def Fresh (s : Stamp) (t : Tree V) (b : Board) : Prop :=
  ∀ c, s.Claims c → c ∉ t.channels ∧ b.isFired c = false

variable {s : Stamp} {c : Channel}

theorem Claims.of_next (h : s.next.Claims c) : s.Claims c :=
  ⟨h.1, h.2.1, Nat.le_of_succ_le h.2.2⟩

theorem claims_of_stamp (h : c.stamp = s) : s.Claims c := by
  subst h
  exact ⟨rfl, rfl, Nat.le_refl _⟩

/-- A name that nobody had before is fresh. -/
theorem fresh_of_region {t : Tree V} {b : Board}
    (h : ∀ c ∈ t.channels ++ b.fired, c.stamp.region ≠ s.region) : s.Fresh t b := by
  intro c hc
  have hnot : c ∉ t.channels ++ b.fired := fun hmem => h c hmem hc.1
  rw [List.mem_append, not_or] at hnot
  refine ⟨hnot.1, ?_⟩
  rw [Board.isFired, List.contains_eq_mem, decide_eq_false_iff_not]
  exact hnot.2

theorem not_claims_next (h : c.stamp = s) : ¬ s.next.Claims c := by
  subst h
  exact fun hc => Nat.lt_irrefl _ hc.2.2

end Stamp

namespace Draft

/-! ## What drafts with stamps of their own keep to -/

/-- The channels of the tree are distinct, and none of them has fired or is about to fire. The
channels that the draft can still make are none of these. -/
structure Live (d : Draft V) (b : Board) : Prop where
  nodup : d.tree.channels.Nodup
  unfired : ∀ c ∈ d.tree.channels, b.isFired c = false
  kept : ∀ c ∈ d.tree.channels, c ∉ d.displaced
  fresh : d.stamp.Fresh d.tree b
  unmade : ∀ c, d.stamp.Claims c → c ∉ d.displaced

/-- Drafts lead from an empty tree to the working copy `d`, each opened on the tree that the one
before it left and with a stamp of its own. Meanwhile others fire channels of theirs. -/
inductive Reached : Draft V → Board → Prop
  | empty (channel : Channel) (stamp : Stamp) (b : Board) (hb : b.isFired channel = false)
    (hs : stamp.Fresh (Tree.empty channel : Tree V) b) :
    Reached ((Tree.empty channel).edit stamp) b
  | edit {d : Draft V} {b : Board} (h : Reached d b) (e : Edit V) : Reached (d.apply e) b
  | track {d : Draft V} {b : Board} (h : Reached d b) (on : Bool) : Reached (d.track on) b
  | notify {d : Draft V} {b : Board} (h : Reached d b) : Reached (d.notify b).1 (d.notify b).2
  | reopen {d : Draft V} {b : Board} (h : Reached d b) (stamp : Stamp)
    (hs : stamp.Fresh (d.commit b).1 (d.commit b).2) :
    Reached ((d.commit b).1.edit stamp) (d.commit b).2
  | meanwhile {d : Draft V} {b b' : Board} (h : Reached d b)
    (hown : ∀ c, c ∈ d.tree.channels ∨ d.stamp.Claims c → b'.isFired c = b.isFired c) :
    Reached d b'

namespace Live

variable {d : Draft V} {b : Board}

/-- After a commit the channels of the version are distinct, and none of them has fired. -/
theorem commit (h : d.Live b) :
    (d.commit b).1.channels.Nodup ∧
      ∀ c ∈ (d.commit b).1.channels, (d.commit b).2.isFired c = false := by
  refine ⟨h.nodup, fun c hc => ?_⟩
  rw [isFired_commit, h.unfired c hc, Bool.or_false, List.contains_eq_mem, decide_eq_false_iff_not]
  exact h.kept c hc

theorem edit (h : d.Live b) {stamp : Stamp} (hs : stamp.Fresh (d.commit b).1 (d.commit b).2) :
    ((d.commit b).1.edit stamp).Live (d.commit b).2 where
  nodup := h.commit.1
  unfired := h.commit.2
  kept := fun _ _ hmem => nomatch hmem
  fresh := hs
  unmade := fun _ _ hmem => nomatch hmem

/-- What an edit makes is new to the draft. -/
theorem stamp_ne (h : d.Live b) {c : Channel} (hc : c ∈ d.tree.channels ∨ c ∈ d.displaced) :
    c.stamp ≠ d.stamp := by
  intro hs
  have hclaims := Stamp.claims_of_stamp hs
  rcases hc with hc | hc
  · exact (h.fresh c hclaims).1 hc
  · exact h.unmade c hclaims hc

/-- All channels that come out of an edit are distinct. -/
theorem nodup_out (h : d.Live b) {new gone made : List (Owner V)}
    (hex : Exchange (·.stamp = d.stamp) d.tree.root.owners new gone made) :
    (new.map Owner.channel ++ gone.map Owner.channel).Nodup := by
  have hold := Node.map_channel_owners d.tree.root
  refine hex.nodup_out (hold ▸ h.nodup) fun c hc => h.stamp_ne (.inl ?_)
  rwa [hold] at hc

theorem apply (h : d.Live b) (e : Edit V) : (d.apply e).Live b := by
  rcases apply_cases d e with hsame | ⟨_, ⟨gone, made, hex, rfl⟩, hdisplaced, hstamp⟩
  · rwa [hsame]
  have hout := h.nodup_out hex
  rw [Node.map_channel_owners] at hout
  -- whatever comes out was there before, or was made just now
  have hpast {x : Owner V} (hx : x ∈ d.tree.root.owners ∨ x ∈ made) :
      x.channel ∈ d.tree.channels ∨ x.channel.stamp = d.stamp := by
    rcases hx with hx | hx
    · exact .inl (d.tree.channel_mem hx)
    · exact .inr (hex.fits x hx)
  have hnew {c : Channel} (hc : c ∈ (d.apply e).tree.channels) :
      c ∈ d.tree.channels ∨ c.stamp = d.stamp := by
    rw [Tree.channels, ← Node.map_channel_owners] at hc
    rcases List.mem_map.1 hc with ⟨x, hx, rfl⟩
    exact hpast (hex.mem_new hx)
  have hgone {c : Channel} (hc : c ∈ (d.apply e).displaced) :
      c ∈ d.displaced ∨ c ∈ gone.map Owner.channel := by
    rw [hdisplaced] at hc
    split at hc
    · exact List.mem_append.1 hc
    · exact .inl hc
  refine ⟨(List.nodup_append.1 hout).1, fun c hc => ?_, fun c hc hd => ?_, fun c hc => ?_,
    fun c hc hd => ?_⟩
  · rcases hnew hc with hold | hs
    · exact h.unfired c hold
    · exact (h.fresh c (Stamp.claims_of_stamp hs)).2
  · rcases hgone hd with hbefore | hnow
    · rcases hnew hc with hold | hs
      · exact h.kept c hold hbefore
      · exact h.stamp_ne (.inr hbefore) hs
    · exact (List.nodup_append.1 hout).2.2 c hc c hnow rfl
  · rw [hstamp] at hc
    refine ⟨fun hmem => ?_, (h.fresh c hc.of_next).2⟩
    rcases hnew hmem with hold | hs
    · exact (h.fresh c hc.of_next).1 hold
    · exact Stamp.not_claims_next hs hc
  · rw [hstamp] at hc
    rcases hgone hd with hbefore | hnow
    · exact h.unmade c hc.of_next hbefore
    · rcases List.mem_map.1 hnow with ⟨x, hx, rfl⟩
      rcases hpast (hex.mem_gone hx) with hold | hs
      · exact (h.fresh _ hc.of_next).1 hold
      · exact Stamp.not_claims_next hs hc

theorem track (h : d.Live b) (on : Bool) : (d.track on).Live b := by
  have hsub : (d.track on).displaced ⊆ d.displaced := by
    cases on
    · exact fun _ hc => nomatch hc
    · exact List.Subset.refl _
  exact ⟨h.nodup, h.unfired, fun c hc hd => h.kept c hc (hsub hd), h.fresh,
    fun c hc hd => h.unmade c hc (hsub hd)⟩

theorem notify (h : d.Live b) : (d.notify b).1.Live (d.notify b).2 := by
  refine ⟨h.nodup, h.commit.2, fun _ _ hd => (nomatch hd), fun c hc => ⟨(h.fresh c hc).1, ?_⟩,
    fun _ _ hd => (nomatch hd)⟩
  change (d.commit b).2.isFired c = false
  rw [isFired_commit, (h.fresh c hc).2, Bool.or_false, List.contains_eq_mem,
    decide_eq_false_iff_not]
  exact h.unmade c hc

theorem meanwhile {b' : Board} (h : d.Live b)
    (hown : ∀ c, c ∈ d.tree.channels ∨ d.stamp.Claims c → b'.isFired c = b.isFired c) :
    d.Live b' := by
  refine ⟨h.nodup, fun c hc => ?_, h.kept, fun c hc => ⟨(h.fresh c hc).1, ?_⟩, h.unmade⟩
  · rw [hown c (.inl hc)]
    exact h.unfired c hc
  · rw [hown c (.inr hc)]
    exact (h.fresh c hc).2

end Live

/-- Whatever drafts led to a working copy, its channels are distinct and have not fired. -/
theorem Reached.live {d : Draft V} {b : Board} (h : d.Reached b) : d.Live b := by
  induction h with
  | empty channel stamp b hb hs =>
    have hchannels : (Tree.empty channel : Tree V).channels = [channel] := rfl
    refine ⟨?_, fun c hc => ?_, fun _ _ hd => (nomatch hd), hs, fun _ _ hd => (nomatch hd)⟩
    · simp [hchannels]
    · rw [tree_edit, hchannels, List.mem_singleton] at hc
      exact hc ▸ hb
  | edit _ e ih => exact ih.apply e
  | track _ on ih => exact ih.track on
  | notify _ ih => exact ih.notify
  | reopen _ stamp hs ih => exact ih.edit hs
  | meanwhile _ hown ih => exact ih.meanwhile hown

/-! ## What became of a version -/

/-- The owners of the version `t` that the draft no longer has are those whose channels it has
displaced. -/
def Accounts (t : Tree V) (d : Draft V) : Prop :=
  ∀ x ∈ t.root.owners, x.channel ∈ d.displaced ↔ x ∉ d.tree.root.owners

namespace Accounts

variable {t : Tree V} {d : Draft V} {b : Board}

theorem edit (t : Tree V) (stamp : Stamp) : Accounts t (t.edit stamp) :=
  fun _ hx => ⟨fun hd => (nomatch hd), fun hnot => absurd hx hnot⟩

theorem apply (h : Accounts t d) (hl : d.Live b) (ht : d.tracking = true) (e : Edit V) :
    Accounts t (d.apply e) := by
  rcases apply_cases d e with hsame | ⟨_, ⟨gone, made, hex, rfl⟩, hdisplaced, _⟩
  · rwa [hsame]
  rw [ht, if_pos rfl] at hdisplaced
  have hout := (List.nodup_append.1 (hl.nodup_out hex)).2.2
  intro x hx
  rw [hdisplaced, List.mem_append]
  constructor
  · rintro (hbefore | hnow) hnew
    · -- what went before does not come back, and nothing new has its channel
      rcases hex.mem_new hnew with hold | hmade
      · exact (h x hx).1 hbefore hold
      · exact hl.stamp_ne (.inr hbefore) (hex.fits x hmade)
    · exact hout _ (List.mem_map_of_mem hnew) _ hnow rfl
  · intro hnot
    by_cases hold : x ∈ d.tree.root.owners
    · rcases hex.mem_of_old hold with hnew | hgone
      · exact absurd hnew hnot
      · exact .inr (List.mem_map_of_mem hgone)
    · exact .inl ((h x hx).2 hold)

theorem applyAll (h : Accounts t d) (hl : d.Live b) (ht : d.tracking = true)
    (edits : List (Edit V)) : Accounts t (d.applyAll edits) ∧ (d.applyAll edits).Live b := by
  induction edits generalizing d with
  | nil => exact ⟨h, hl⟩
  | cons e edits ih => exact ih (h.apply hl ht e) (hl.apply e) ((tracking_apply d e).trans ht)

end Accounts

/-- A commit fires exactly what it replaced. Let the version `t` come about in any way from an
empty tree, with a stamp of its own for each working copy, and let a draft with a fresh stamp
edit it. Of each node and each leaf of `t`, the commit fires the channel if and only if this
same node or leaf is not in the new version `t'`. No channel of `t'` has fired, and they are
distinct again. -/
theorem fired_iff_replaced {origin : Draft V} {b : Board} (h : origin.Reached b) {s : Stamp}
    (hs : s.Fresh (origin.commit b).1 (origin.commit b).2) (edits : List (Edit V)) :
    let t := (origin.commit b).1
    let board := (origin.commit b).2
    let t' := (((t.edit s).applyAll edits).commit board).1
    let board' := (((t.edit s).applyAll edits).commit board).2
    (∀ x ∈ t.root.owners, board'.isFired x.channel = true ↔ x ∉ t'.root.owners) ∧
      (∀ c ∈ t'.channels, board'.isFired c = false) ∧ t'.channels.Nodup := by
  intro t board t' board'
  have hlive : (t.edit s).Live board := h.live.edit hs
  rcases (Accounts.edit t s).applyAll hlive rfl edits with ⟨haccounts, hlive'⟩
  refine ⟨fun x hx => ?_, hlive'.commit.2, hlive'.commit.1⟩
  have hunfired : board.isFired x.channel = false :=
    hlive.unfired _ (t.channel_mem hx)
  rw [isFired_commit, hunfired, Bool.or_false, List.contains_iff_mem]
  exact haccounts x hx

/-- Of two keys that part at a node one is removed, so that the other absorbs the node; then a
new key splits it again. The entry of the key that stayed has kept its channel, but all nodes on
the way to it have been replaced. A third key was not touched. -/
theorem fired_iff_replaced_bytes :
    let origin : Draft Nat :=
      ((((Tree.empty ⟨⟨0, 0, 0⟩, 0, .node⟩).edit ⟨1, 0, 0⟩).apply (.insert [7, 0] 1)).apply
        (.insert [7, 255] 2)).apply (.insert [9] 3)
    let s : Stamp := ⟨2, 0, 0⟩
    let edits : List (Edit Nat) := [.erase [7, 255], .insert [7] 4, .eraseStem [8]]
    let t := (origin.commit {}).1
    let board := (origin.commit {}).2
    let t' := (((t.edit s).applyAll edits).commit board).1
    let board' := (((t.edit s).applyAll edits).commit board).2
    origin.Reached {} ∧ s.Fresh t board ∧
      (t.root.owners.filter fun x => !board'.isFired x.channel).map Owner.channel =
        [⟨⟨1, 0, 0⟩, 0, .leaf⟩, ⟨⟨1, 0, 2⟩, 0, .twig⟩, ⟨⟨1, 0, 2⟩, 0, .leaf⟩] ∧
      (∀ x ∈ t.root.owners, board'.isFired x.channel = true ↔ x ∉ t'.root.owners) ∧
      (∀ c ∈ t'.channels, board'.isFired c = false) ∧ t'.channels.Nodup := by
  intro origin s edits t board t' board'
  have hempty : Stamp.Fresh ⟨1, 0, 0⟩ (Tree.empty ⟨⟨0, 0, 0⟩, 0, .node⟩ : Tree Nat) {} :=
    Stamp.fresh_of_region (by decide)
  have horigin : origin.Reached {} :=
    (((Reached.empty _ _ {} rfl hempty).edit _).edit _).edit _
  have hfresh : s.Fresh t board := Stamp.fresh_of_region (by decide +kernel)
  have hsame : (t.root.owners.filter fun x => !board'.isFired x.channel).map Owner.channel =
      [⟨⟨1, 0, 0⟩, 0, .leaf⟩, ⟨⟨1, 0, 2⟩, 0, .twig⟩, ⟨⟨1, 0, 2⟩, 0, .leaf⟩] := by decide +kernel
  exact ⟨horigin, hfresh, hsame, fired_iff_replaced horigin hfresh edits⟩

end Draft

end SnapStore
