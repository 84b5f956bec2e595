import SnapStore.Proofs.Engine.Ends
import SnapStore.Proofs.Engine.Filed
import SnapStore.Proofs.Engine.Sources
import SnapStore.Proofs.Radix.Touch
import SnapStore.Watch

/-! # Bounded watch sets

Whoever watches many objects may bound the number of channels: once the set is full, a coarse
channel takes the place of each further one. The channel of a list is coarse enough for all
objects in it, since no edit replaces the leaf of one of them and leaves the node that the list
comes from. There are two ways to miss a leaf. A snapshot of a writer that had changed the index
and is aborted later on is left with a channel that never fires, while others fire the leaves that
it shares with the store. And where another index has the same path, an object may stand in the
tree twice, so that a lookup comes with a leaf that is not in the list.

Main statements: `offer_spec` (a set that was offered channels), `Tells.fires_seek` (the channel of
a list fires with each leaf in it) and `bounded_set_covers`. What is missed is shown by
`bounded_set_misses_aborted` and `bounded_set_misses_shared_path`.
-/

namespace SnapStore

universe u

variable {α : Type} {V : Type u}

/-! ## Sets with a limit -/

namespace WatchSet

/-- The set after each of the channels was offered to it. As soon as the limit is reached, `cover`
is added in place of them. -/
def offer (ws : WatchSet) (limit : Nat) (cover : Channel) (offered : List Channel) : WatchSet :=
  offered.foldl (fun ws c => ws.addWithLimit limit c cover) ws

variable {ws : WatchSet} {limit : Nat} {c cover d : Channel}

theorem mem_add : d ∈ (ws.add c).members ↔ d ∈ ws.members ∨ d = c := by
  unfold add
  split
  · rename_i hc
    exact ⟨.inl, fun h => h.elim id (· ▸ hc)⟩
  · simp

/-- The set has not exceeded its limit, or just by the channel that covers. -/
def Fits (ws : WatchSet) (limit : Nat) (cover : Channel) : Prop :=
  ws.size ≤ limit ∨ ws.size = limit + 1 ∧ cover ∈ ws.members

theorem Fits.addWithLimit (h : ws.Fits limit cover) (c : Channel) :
    (ws.addWithLimit limit c cover).Fits limit cover := by
  unfold WatchSet.addWithLimit
  split
  · rename_i hlt
    have hgrows := ws.length_add c
    refine .inl ?_
    split at hgrows
    · exact hgrows ▸ Nat.le_of_lt hlt
    · exact hgrows ▸ hlt
  · have hgrows := ws.length_add cover
    have hmem : cover ∈ (ws.add cover).members := mem_add.2 (.inr rfl)
    rcases h with hle | ⟨hfull, hcover⟩
    · split at hgrows
      · exact .inl (hgrows ▸ hle)
      · rename_i hlt _
        have hfull : ws.size = limit := Nat.le_antisymm hle (Nat.not_lt.1 hlt)
        exact .inr ⟨hfull ▸ hgrows, hmem⟩
    · rw [if_pos hcover] at hgrows
      exact .inr ⟨hgrows.trans hfull, hmem⟩

theorem mem_addWithLimit (ws : WatchSet) (limit : Nat) (c cover : Channel) :
    ws.members ⊆ (ws.addWithLimit limit c cover).members ∧
      (c ∈ (ws.addWithLimit limit c cover).members ∨
        cover ∈ (ws.addWithLimit limit c cover).members) := by
  unfold WatchSet.addWithLimit
  split
  · exact ⟨fun _ hd => mem_add.2 (.inl hd), .inl (mem_add.2 (.inr rfl))⟩
  · exact ⟨fun _ hd => mem_add.2 (.inl hd), .inr (mem_add.2 (.inr rfl))⟩

/-- A set with a limit never exceeds it by more than one channel. It keeps its members, and has
each channel that it was offered, or the one that covers it. -/
theorem offer_spec (h : ws.Fits limit cover) (offered : List Channel) :
    (ws.offer limit cover offered).Fits limit cover ∧
      ws.members ⊆ (ws.offer limit cover offered).members ∧
      ∀ c ∈ offered, c ∈ (ws.offer limit cover offered).members ∨
        cover ∈ (ws.offer limit cover offered).members := by
  induction offered generalizing ws with
  | nil => exact ⟨h, List.Subset.refl _, fun _ hc => (nomatch hc)⟩
  | cons c offered ih =>
    rcases ih (h.addWithLimit c) with ⟨hfits, hkept, hrest⟩
    rcases mem_addWithLimit ws limit c cover with ⟨hgrows, hadded⟩
    refine ⟨hfits, List.Subset.trans hgrows hkept, fun d hd => ?_⟩
    rcases List.mem_cons.1 hd with rfl | hd
    · exact hadded.imp (fun hmem => hkept hmem) (fun hmem => hkept hmem)
    · exact hrest d hd

theorem Fits.size_le (h : ws.Fits limit cover) : ws.size ≤ limit + 1 :=
  h.elim Nat.le_succ_of_le fun hfull => Nat.le_of_eq hfull.1

end WatchSet

/-! ## Leaves in a list -/

open Classical in
/-- The channel of a list guards whether a leaf is in it. -/
theorem guarded_mem_seek (stem : Key) (l : Leaf V) :
    Guarded fun t : Tree V => ((t.seek stem).1, if l ∈ (t.seek stem).2 then [l.value] else []) :=
  (guarded_seek stem).map fun leaves => if l ∈ leaves then [l.value] else []

/-- An exact lookup that finds an object comes with the channel of its leaf. -/
theorem Query.exists_leaf_first {q : Query α} {tree : Tree α} (hw : tree.Wf)
    (hexact : q.isExact = true) {c : Channel} {o : α} (h : q.first tree = (c, some o)) :
    ∃ l ∈ tree.leaves, l.key = q.key ∧ l.value = o ∧ l.channel = c := by
  rw [first, if_pos hexact] at h
  have hget : tree.get? q.key = some o := by rw [← Tree.watch_snd, h]
  rcases Option.map_eq_some_iff.1 hget with ⟨l, hfind, hvalue⟩
  rcases hw.find?_eq_some_iff.1 hfind with ⟨hl, hkey⟩
  refine ⟨l, hl, hkey, hvalue, ?_⟩
  have hchannel : (tree.watch q.key).1 = l.channel := Node.watch_fst tree.root q.key hfind
  rw [← hchannel, h]

namespace Engine

variable {s : Engine α} {n reader : Nat} {F : Forest α} {writer : Option Nat} {t : Txn α}
  {table index : String} {args : List Arg} {q : Query α} {c cover : Channel} {objects : List α}
  {actions : List (Action α)}

/-- Whoever got a list from trees that have a source finds the channel of the list fired once a
leaf in it has fired, unless the source is an aborted writer. -/
theorem Tells.fires_seek (h : s.Tells n F writer) (hs : s.Sound) (howned : s.Owned)
    (hkept : ∀ id, writer = some id → ¬ s.Aborted id) {path : Key} {tree : Tree α}
    (htree : F path = some tree) (hw : tree.Wf) {stem : Key} {l : Leaf α}
    (hl : l ∈ (tree.seek stem).2) (hfired : s.board.isFired l.channel = true) :
    s.board.isFired (tree.seek stem).1 = true := by
  have hquiet (n : Nat) (hhas : s.Has n (some path) l.channel) : False := by
    rw [howned.unfired n path l.channel hhas] at hfired
    cases hfired
  cases h with
  | @published _ st hst hp hleads =>
    rcases hleads path tree htree with ⟨tree', htree', hread⟩
    refine (hread _ (guarded_mem_seek stem l)).resolve_right fun hsame => hquiet n ?_
    -- otherwise the current tree has the leaf still
    have hanswer := congrArg Prod.snd hsame
    simp only [hl, if_true] at hanswer
    have hl' : l ∈ (tree'.seek stem).2 := by
      refine Classical.byContradiction fun hnot => ?_
      rw [if_neg hnot] at hanswer
      cases hanswer
    have hw' : tree'.Wf := (hs.stores n st hst).trees.tree path tree' htree'
    have hmem := Tree.channel_mem_of_leaf (hw'.mem_seek.1 hl').1
    exact ⟨st, hst, hp, Root.mem_channelsAt.2 ⟨tree', htree', hmem⟩⟩
  | @writing id t ht hstore hcarries =>
    -- the writer shares the leaf with the current root, or has made it
    have hmem := Tree.channel_mem_of_leaf (hw.mem_seek.1 hl).1
    rcases hcarries.channels path tree _ htree hmem with hroot | hregion
    · rcases hs.txns id t ht.txn with ⟨st, hst, hf⟩
      rw [(hf.writes ht.writing).2] at hroot
      exact (hquiet _ ⟨st, hst, hf.primary.symm.trans ht.primary, hroot⟩).elim
    · exact absurd hregion ((howned.authors id t ht).2.2 _ (.inr hfired))
  | aborted haborted => exact absurd haborted (hkept _ rfl)

/-! ## Lookups -/

/-- An exact lookup in an index finds the object under the key, and answers with the channel. -/
inductive LooksUp (s : Engine α) (reader : Nat) (schema : Schema α) (table name : String)
    (key : Key) (o : α) (c : Channel) : Prop
  | intro {index : String} {args : List Arg} {q : Query α}
    (hq : schema.resolve table index args = .ok q) (hname : q.name = name) (hkey : q.key = key)
    (hexact : q.isExact = true)
    (hask : s.ask reader .first table index args = some (.ok (c, [o])))

/-- A lookup in a read transaction, then or later, tells the leaf that it found. If the index is
alone, this is the only one with the object. -/
theorem Sound.leaf_of_looksUp (hs : s.Sound) (ht : s.txns[reader]? = some t)
    (hread : t.write = false) (hactive : t.state = .active) {between : List (Action α)}
    {name : String} {key : Key} {o : α}
    (h : (s.performAll between).LooksUp reader t.schema table name key o c) {tree : Tree α}
    (htree : t.forest (indexPath table name) = some tree) (hw : tree.Wf) :
    ∃ l ∈ tree.leaves, l.key = key ∧ l.value = o ∧ l.channel = c ∧
      (t.forest.Filed t.schema → ∀ i, t.schema.Alone (indexPath table name) i →
        ∀ m ∈ tree.leaves, m.value = o → m.key = key) := by
  rcases h with ⟨hq, rfl, rfl, hexact, hask⟩
  rename_i index args q
  rw [hs.ask_performAll ht hread hactive, Scan.within, hq] at hask
  simp only [htree] at hask
  have hfirst : q.first tree = (c, some o) := by
    have hanswer : Scan.first.answer q tree = (c, [o]) := Except.ok.inj (Option.some.inj hask)
    have hchannel : (q.first tree).1 = c := congrArg Prod.fst hanswer
    have hfound : (q.first tree).2.toList = [o] := congrArg Prod.snd hanswer
    refine Prod.ext hchannel ?_
    cases hvalue : (q.first tree).2 with
    | none => simp [hvalue] at hfound
    | some o' => simpa [hvalue] using hfound
  rcases Query.exists_leaf_first hw hexact hfirst with ⟨l, hl, hkey, hvalue, hchannel⟩
  refine ⟨l, hl, hkey, hvalue, hchannel, fun hfiled i halone m hm hsame => ?_⟩
  rcases Schema.resolve_spec hq with ⟨ts, hts, hi⟩
  obtain rfl := halone table ts q.name q.index hts hi rfl
  -- whatever leaf has the object, its key is the one that the index derives from it
  have hkeys (m : Leaf α) (hm : m ∈ tree.leaves) : q.index.indexer.keys m.value = .ok [m.key] := by
    rcases hfiled.stores halone htree (hw.get?_leaf hm) with ⟨primary, hstores⟩
    exact Query.keys_of_stores hexact hstores
  have hboth := (hkeys m hm).symm.trans (hsame.trans hvalue.symm ▸ hkeys l hl)
  exact (List.singleton_inj.1 (Except.ok.inj hboth)).trans hkey

/-! ## Main statement -/

/-- A bounded watch set covers what it was offered. A read transaction of a primary store, opened
at any time of any run, lists objects of an index that is unique and over single keys, and looks
some of them up in the same index, then or later. Offered the channels of these lookups, with any
limit, a set that is empty at first never exceeds the limit by more than one channel. Whatever
happens after that: once a channel has fired that was offered, a member of the set has fired. This
takes two conditions. The reader is no snapshot of a writer that had changed the index by then and
was aborted later. And a lookup is under a key that the list covers, as each one is that finds an
object of the list in an index that shares its path with no other index. -/
theorem bounded_set_covers (ht : (performAll {} actions).txns[reader]? = some t)
    (hread : t.write = false) (hprimary : t.primary = true)
    (hq : t.schema.resolve table index args = .ok q)
    (hget : (performAll {} actions).ask reader .all table index args = some (.ok (cover, objects)))
    (limit : Nat) (offered : List Channel) (after : List (Action α))
    (hoffered : ∀ c ∈ offered, ∃ between rest key, after = between ++ rest ∧ ∃ o ∈ objects,
      ((performAll {} actions).performAll between).LooksUp reader t.schema table q.name key o c ∧
        (q.key <+: key ∨ t.schema.Alone (indexPath table q.name) q.index)) :
    let later := (performAll {} actions).performAll after
    let ws := ({} : WatchSet).offer limit cover offered
    ws.size ≤ limit + 1 ∧ ((∀ writer, Borrows (indexPath table q.name) actions reader writer →
        ¬ later.Aborted writer) →
      ∀ c ∈ offered, later.board.isFired c = true →
        ∃ m ∈ ws.members, later.board.isFired m = true) := by
  intro later ws
  have hs : (performAll {} actions : Engine α).Sound := Sound.empty.performAll actions
  have howned : later.Owned := by
    have h := owned_performAll (actions ++ after)
    rwa [performAll_append] at h
  have hempty : WatchSet.Fits {} limit cover := .inl (Nat.zero_le limit)
  rcases WatchSet.offer_spec hempty offered with ⟨hfits, _, hcovers⟩
  refine ⟨hfits.size_le, fun hkept c hc hfired => ?_⟩
  rcases hcovers c hc with hmem | hmem
  · exact ⟨c, hmem, hfired⟩
  refine ⟨cover, hmem, ?_⟩
  have hactive := active_of_ask ht hget
  rcases hs.exists_tree ht hactive hq with ⟨tree, htree, hw, _⟩
  have hlist : (tree.seek q.key).1 = cover ∧ (tree.seek q.key).2.map Leaf.value = objects := by
    rw [hs.ask_eq ht hactive, Scan.within, hq] at hget
    simp only [htree] at hget
    have hanswer : Scan.all.answer q tree = (cover, objects) :=
      Except.ok.inj (Option.some.inj hget)
    exact ⟨congrArg Prod.fst hanswer, congrArg Prod.snd hanswer⟩
  rcases hoffered c hc with ⟨between, rest, key, rfl, o, ho, hlookup, hwithin⟩
  rcases hs.leaf_of_looksUp ht hread hactive hlookup htree hw with
    ⟨l, hl, rfl, rfl, rfl, hone⟩
  -- the leaf that was looked up is in the list
  have hstem : q.key <+: l.key := by
    rcases hwithin with hstem | halone
    · exact hstem
    · rw [← hlist.2] at ho
      rcases List.mem_map.1 ho with ⟨m, hm, hvalue⟩
      rcases hw.mem_seek.1 hm with ⟨hm, hprefix⟩
      have hfiled := (filed_performAll actions).txns reader t ht hactive
      rwa [hone hfiled q.index halone m hm hvalue] at hprefix
  rcases exists_tells actions ht hread hactive hprimary (indexPath table q.name) with
    ⟨writer, htells, hborrows⟩
  have honly := (t.forest.only_self (indexPath table q.name)).trans htree
  rw [← hlist.1]
  exact (htells.performAll hs _).fires_seek (hs.performAll _) howned
    (fun id hid => hkept id (hborrows id hid)) honly hw (hw.mem_seek.2 ⟨hl, hstem⟩) hfired

/-- A snapshot of a writer lists the slugs under a stem, and two of them are offered to a set of one
channel, one of them twice. The writer commits, and the next one replaces the page with the second
slug. -/
theorem bounded_set_covers_pages :
    let first : Page := { path := "/a", slug := "spring" }
    let second : Page := { path := "/b", slug := "sprint" }
    let third : Page := { path := "/c", slug := "sprite" }
    let put (id : Nat) (page : Page) : Action Page := .write id (.insert Page.pages page)
    let actions := [.create Page.schema {}, .requestWrite 0, .acquireWrite 0, put 0 first,
      put 0 second, .commit 0, .requestWrite 0, .acquireWrite 0, put 1 third, .snapshotTxn 1]
    let after := [.commit 1, .requestWrite 0, .acquireWrite 0,
      put 3 { third with title := "new" }, .commit 3]
    let later := (performAll {} actions).performAll after
    let cover : Channel := ⟨⟨2, 2, 0⟩, 0, .fork⟩
    let c : Channel := ⟨⟨1, 2, 0⟩, 0, .leaf⟩
    let d : Channel := ⟨⟨2, 2, 0⟩, 0, .leaf⟩
    let ws := ({} : WatchSet).offer 1 cover [c, d, c]
    (performAll {} actions).ask 2 .all Page.pages "slug_prefix" [.text "spr"] =
        some (.ok (cover, [first, second, third])) ∧
      ws.size ≤ 2 ∧ later.board.isFired d = true ∧
      ∃ m ∈ ws.members, later.board.isFired m = true := by
  intro first second third put actions after later cover c d ws
  have hopen : (performAll {} actions).txns[2]?.map (fun t => (t.write, t.primary)) =
      some (false, true) := by decide +kernel
  rcases Option.map_eq_some_iff.1 hopen with ⟨t, ht, hkind⟩
  rcases Prod.mk.inj hkind with ⟨hread, hprimary⟩
  have hschema : t.schema = Page.schema := schema_of_create (by decide +kernel) (by simp [put]) ht
  have hq : t.schema.resolve Page.pages "slug_prefix" [.text "spr"] =
      .ok ⟨"slug", Page.bySlug, Key.ofText "spr", true⟩ := hschema ▸ rfl
  have hget : (performAll {} actions).ask 2 .all Page.pages "slug_prefix" [.text "spr"] =
      some (.ok (cover, [first, second, third])) := by decide +kernel
  have hlookup (slug : String) {o : Page} {e : Channel} (ho : o ∈ [first, second, third])
      (hask : (performAll {} actions).ask 2 .first Page.pages "slug" [.text slug] =
        some (.ok (e, [o]))) (hstem : Key.ofText "spr" <+: Key.ofText slug ++ [0]) :
      ∃ between rest key, after = between ++ rest ∧ ∃ o ∈ [first, second, third],
        ((performAll {} actions).performAll between).LooksUp 2 t.schema Page.pages "slug" key o e ∧
          (Key.ofText "spr" <+: key ∨
            t.schema.Alone (indexPath Page.pages "slug") Page.bySlug) := by
    refine ⟨[], after, Key.ofText slug ++ [0], rfl, o, ho, ?_, .inl hstem⟩
    have hexact : Query.isExact ⟨"slug", Page.bySlug, Key.ofText slug ++ [0], false⟩ = true := by
      simp [Query.isExact, Page.bySlug, IndexSchema.carriesPrimary, Indexer.isSingle]
    have hresolve : t.schema.resolve Page.pages "slug" [.text slug] =
        .ok ⟨"slug", Page.bySlug, Key.ofText slug ++ [0], false⟩ := by
      rw [hschema]
      rfl
    rw [performAll_nil]
    exact .intro hresolve rfl rfl hexact hask
  have hc := hlookup "spring" (o := first) (e := c) (by simp) (by decide +kernel)
    (by decide +kernel)
  have hd := hlookup "sprite" (o := third) (e := d) (by simp) (by decide +kernel)
    (by decide +kernel)
  have hcovers := bounded_set_covers ht hread hprimary hq hget 1 [c, d, c] after
    (List.forall_mem_cons.2 ⟨hc, List.forall_mem_cons.2 ⟨hd, List.forall_mem_singleton.2 hc⟩⟩)
  have hfired : later.board.isFired d = true := by decide +kernel
  have hkept (writer : Nat) : ¬ later.Aborted writer := by
    have hnone : later.txns.all (fun t => t.state != .ended .abort) = true := by decide +kernel
    rintro ⟨t, ht, hended⟩
    have hstate := List.all_eq_true.1 hnone t (List.mem_of_getElem? ht)
    simp [hended] at hstate
  exact ⟨hget, hcovers.1, hfired, hcovers.2 (fun writer _ => hkept writer) d (by simp) hfired⟩

/-- A snapshot of a writer lists all pages, and the channel of one of them is offered to a set with
no room. The writer is aborted, so the channel of its list never fires. The next writer replaces
the page. -/
theorem bounded_set_misses_aborted :
    let first : Page := { path := "/a", slug := "spring" }
    let second : Page := { path := "/b", slug := "sprint" }
    let put (id : Nat) (page : Page) : Action Page := .write id (.insert Page.pages page)
    let actions := [.create Page.schema {}, .requestWrite 0, .acquireWrite 0, put 0 first,
      .commit 0, .requestWrite 0, .acquireWrite 0, put 1 second, .snapshotTxn 1]
    let after := [.abort 1, .requestWrite 0, .acquireWrite 0, put 3 first, .commit 3]
    let s : Engine Page := performAll {} actions
    let later := s.performAll after
    let cover : Channel := ⟨⟨2, 1, 0⟩, 0, .node⟩
    let c : Channel := ⟨⟨1, 1, 0⟩, 0, .leaf⟩
    let ws := ({} : WatchSet).offer 0 cover [c]
    s.txns[2]?.map (fun t => (t.write, t.primary)) = some (false, true) ∧
      s.ask 2 .all Page.pages primaryName [] = some (.ok (cover, [first, second])) ∧
      (∃ q, Page.schema.resolve Page.pages primaryName [.text "/a"] = .ok q ∧
        q.isExact = true) ∧
      s.ask 2 .first Page.pages primaryName [.text "/a"] = some (.ok (c, [first])) ∧
      later.board.isFired c = true ∧ ∀ m ∈ ws.members, later.board.isFired m = false := by
  intro first second put actions after s later cover c ws
  refine ⟨by decide +kernel, by decide +kernel, ⟨_, rfl, by decide +kernel⟩, by decide +kernel,
    by decide +kernel, by decide +kernel⟩

/-- Two indexes share a tree: the unique index `b.c` of the table `a`, over slugs, and the index `c`
of the table `a.b`, over tags. A page with two tags stands in it twice. The list of the slugs that
begin with `x` has the one entry, and a lookup of a slug finds the other one. A new page with this
slug takes its place, which fires the channel of the lookup and not that of the list. -/
theorem bounded_set_misses_shared_path :
    let schema : Schema Page :=
      ⟨[("a", { name := "a", indexes :=
          [("b.c", { Page.bySlug with name := "b.c" }), (primaryName, Page.byPath)] }),
        ("a.b", { name := "a.b", indexes :=
          [("c", { Page.byTag with name := "c" }), (primaryName, Page.byPath)] })]⟩
    let page : Page := { path := "id", tags := ["x1", "y1"] }
    let slug : String := "y1\u0000id"
    let actions := [.create schema {}, .requestWrite 0, .acquireWrite 0,
      .write 0 (.insert "a.b" page), .commit 0, .openRead 0]
    let after := [.requestWrite 0, .acquireWrite 0,
      .write 2 (.insert "a" { path := "new", slug := slug }), .commit 2]
    let s : Engine Page := performAll {} actions
    let later := s.performAll after
    let cover : Channel := ⟨⟨1, 1, 0⟩, 0, .twig⟩
    let c : Channel := ⟨⟨1, 1, 1⟩, 0, .leaf⟩
    let ws := ({} : WatchSet).offer 0 cover [c]
    s.txns[1]?.map (fun t => (t.write, t.primary)) = some (false, true) ∧
      s.ask 1 .all "a" "b.c_prefix" [.text "x"] = some (.ok (cover, [page])) ∧
      (∃ q, schema.resolve "a" "b.c" [.text slug] = .ok q ∧ q.isExact = true) ∧
      s.ask 1 .first "a" "b.c" [.text slug] = some (.ok (c, [page])) ∧
      later.board.isFired c = true ∧ ∀ m ∈ ws.members, later.board.isFired m = false := by
  intro schema page slug actions after s later cover c ws
  refine ⟨by decide +kernel, by decide +kernel, ⟨_, rfl, by decide +kernel⟩, by decide +kernel,
    by decide +kernel, by decide +kernel⟩

end Engine

end SnapStore
