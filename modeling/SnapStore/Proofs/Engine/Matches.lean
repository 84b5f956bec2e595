import SnapStore.Proofs.Engine.Mirror
import SnapStore.Proofs.Engine.Wakeup
import SnapStore.Proofs.Radix.Refinement
import SnapStore.Sample.Page

/-! # What a query lists

An index has an item for each stored object and each key that it derives from the object. A
query for a key lists the entries whose stored keys start with it, and behind the derived key a
stored key may go on with the primary key of its object. So a query could list an object by
accident, whose derived key ends before the key of the query does and whose primary key makes up
for the rest. If there is no such derived key, a query lists just the items that it asks for.

Main statements: `Forest.Exact.exists_items` (the entries of an index are its items) and
`Chronicle.lists_matches`.
-/

namespace SnapStore

variable {α : Type}

/-! ## Items -/

/-- A stored object, with its primary key and a key that an index derives from it. -/
structure Item (α : Type) where
  primary : Key
  object : α
  derived : Key

/-- The key under which an index stores an item. -/
def Item.key (x : Item α) (i : IndexSchema α) : Key :=
  i.storedKey x.derived x.primary

/-- The items of an index of a table, by ascending stored keys: there is one for each object in
the ledger and each key that the index derives from it. -/
structure Ledger.Items (L : Ledger α) (table : String) (i : IndexSchema α)
    (items : List (Item α)) : Prop where
  mem_iff : ∀ x, x ∈ items ↔ L table x.primary = some x.object ∧ i.Derives x.object x.derived
  ascends : items.Pairwise fun x y => x.key i < y.key i

/-- Each item is listed once. -/
theorem Ledger.Items.nodup {L : Ledger α} {table : String} {i : IndexSchema α}
    {items : List (Item α)} (h : L.Items table i items) : items.Nodup := by
  refine h.ascends.imp fun {x y} hlt heq => ?_
  subst heq
  exact List.lt_irrefl _ hlt

/-- An index with just one key for each stored object lists each of them once. -/
theorem Ledger.Items.objects {L : Ledger α} {table : String} {i : IndexSchema α}
    {items : List (Item α)} (h : L.Items table i items)
    (hone : ∀ p o, L table p = some o → ∃ d, i.indexer.keys o = .ok [d]) :
    (items.map fun x => (x.primary, x.object)).Nodup ∧
      ∀ p o, (p, o) ∈ items.map (fun x => (x.primary, x.object)) ↔ L table p = some o := by
  have honly {p : Key} {o : α} (hstored : L table p = some o) :
      ∃ d, ∀ d', i.Derives o d' ↔ d' = d := by
    rcases hone p o hstored with ⟨d, hd⟩
    refine ⟨d, fun d' => ?_⟩
    simp [IndexSchema.Derives, hd]
  refine ⟨h.nodup.map_on fun x hx y hy heq => ?_, fun p o => ?_⟩
  · rcases x with ⟨p, o, d⟩
    rcases y with ⟨p', o', d'⟩
    obtain ⟨rfl, rfl⟩ : p = p' ∧ o = o' := Prod.mk.inj heq
    rcases (h.mem_iff _).1 hx with ⟨hstored, hd⟩
    rcases (h.mem_iff _).1 hy with ⟨_, hd'⟩
    rcases honly hstored with ⟨only, honly⟩
    rw [(honly d).1 hd, (honly d').1 hd']
  · rw [List.mem_map]
    constructor
    · rintro ⟨x, hx, heq⟩
      obtain ⟨rfl, rfl⟩ := Prod.mk.inj heq
      exact ((h.mem_iff x).1 hx).1
    · intro hstored
      rcases honly hstored with ⟨only, honly⟩
      exact ⟨⟨p, o, only⟩, (h.mem_iff _).2 ⟨hstored, (honly only).2 rfl⟩, rfl⟩

/-- Two indexes with just one key for each stored object list equally many. -/
theorem Ledger.Items.length_eq {L : Ledger α} {table : String} {i i' : IndexSchema α}
    {items items' : List (Item α)} (h : L.Items table i items) (h' : L.Items table i' items')
    (hone : ∀ p o, L table p = some o → ∃ d, i.indexer.keys o = .ok [d])
    (hone' : ∀ p o, L table p = some o → ∃ d, i'.indexer.keys o = .ok [d]) :
    items.length = items'.length := by
  rcases h.objects hone with ⟨hnodup, hmem⟩
  rcases h'.objects hone' with ⟨hnodup', hmem'⟩
  have hperm := (List.perm_ext_iff_of_nodup hnodup hnodup').2
    fun x => (hmem x.1 x.2).trans (hmem' x.1 x.2).symm
  simpa only [List.length_map] using hperm.length_eq

namespace IndexSchema

variable {i : IndexSchema α}

theorem storedKey_inj {d d' p : Key} (h : i.storedKey d p = i.storedKey d' p) : d = d' := by
  unfold storedKey at h
  split at h
  · exact List.append_cancel_right h
  · exact h

/-- A stored key starts with what its derived key starts with, and with nothing else, unless the
derived key ends inside it. -/
theorem isPrefix_storedKey {q d p : Key} (h : d <+: q → d = q) :
    q <+: i.storedKey d p ↔ q <+: d := by
  unfold storedKey
  split
  · constructor
    · intro hq
      rcases List.prefix_or_prefix_of_prefix hq (List.prefix_append d p) with hqd | hdq
      · exact hqd
      · exact h hdq ▸ List.prefix_rfl
    · exact fun hq => hq.trans (List.prefix_append d p)
  · exact Iff.rfl

end IndexSchema

namespace Forest

variable {F : Forest α} {s : Schema α} {L : Ledger α} {table name : String} {ts : TableSchema α}
  {i : IndexSchema α} {tree : Tree α}

/-- Where the indexes hold just what is in the ledger, the entries of an index are its items. -/
theorem Exact.exists_items (h : F.Exact s L) (htidy : F.Tidy s) (hapart : F.Apart s)
    (ht : s.table? table = some ts) (hi : (name, i) ∈ ts.indexes)
    (htree : F (indexPath table name) = some tree) (hw : tree.Wf) :
    ∃ items, L.Items table i items ∧ tree.entries = items.map fun x => (x.key i, x.object) := by
  have howner (l : Leaf α) (hl : l ∈ tree.leaves) :
      ∃ p d, L table p = some l.value ∧ i.Derives l.value d ∧ l.key = i.storedKey d p := by
    have hentry : F.value? table name l.key = some l.value := by
      rw [Forest.value?_eq htree]
      exact hw.get?_leaf hl
    rcases (htidy.consistent table ts ht).owned name i hi l.key l.value hentry with
      ⟨p, hp, d, hd, hkey⟩
    exact ⟨p, d, (h.stock table ts ht p).symm.trans hp, hd, hkey⟩
  choose! p d hstored hderives hkey using howner
  let item (l : Leaf α) : Item α := ⟨p l, l.value, d l⟩
  refine ⟨tree.leaves.map item, ⟨fun x => ?_, ?_⟩, ?_⟩
  · rw [List.mem_map]
    constructor
    · rintro ⟨l, hl, rfl⟩
      exact ⟨hstored l hl, hderives l hl⟩
    · rintro ⟨hx, hd⟩
      -- the entry under the stored key of the item can be about no other item
      have hp := (h.stock table ts ht x.primary).trans hx
      have hentry := h.complete table ts name i ht hi x.primary x.object (x.key i) hp ⟨_, hd, rfl⟩
      rw [Forest.value?_eq htree, hw.get?_eq_some_iff] at hentry
      rcases hentry with ⟨l, hl, hlkey, hvalue⟩
      have hp' := (h.stock table ts ht (p l)).trans (hstored l hl)
      have hlstored : i.Stores l.value (p l) (x.key i) := ⟨d l, hderives l hl, hlkey ▸ hkey l hl⟩
      have hprimary : p l = x.primary :=
        hapart table ts name i ht hi _ _ _ _ (x.key i) hp' hp hlstored ⟨_, hd, rfl⟩
      have hderived : d l = x.derived := by
        refine IndexSchema.storedKey_inj (i := i) (p := x.primary) ?_
        rw [← hprimary, ← hkey l hl, hlkey, hprimary]
        rfl
      refine ⟨l, hl, ?_⟩
      simp only [item, hprimary, hvalue, hderived]
  · rw [List.pairwise_map]
    refine hw.pairwise_leaves.imp_of_mem fun {l m} hl hm hlt => ?_
    rw [hkey l hl, hkey m hm] at hlt
    exact hlt
  · rw [Tree.entries, List.map_map]
    refine List.map_congr_left fun l hl => ?_
    rw [hkey l hl]
    rfl

end Forest

/-- A query lists the items whose derived keys start with its key, if no derived key ends inside
the key of the query. -/
theorem Query.seek_eq (q : Query α) {tree : Tree α} (hw : tree.Wf) {items : List (Item α)}
    (hitems : tree.entries = items.map fun x => (x.key q.index, x.object))
    (hq : ∀ x ∈ items, x.derived <+: q.key → x.derived = q.key) :
    (tree.seek q.key).2.map Leaf.value =
      (items.filter (·.derived.startsWith q.key)).map Item.object := by
  have hfilter : items.filter (fun x => (x.key q.index).startsWith q.key) =
      items.filter (·.derived.startsWith q.key) := by
    refine List.filter_congr fun x hx => ?_
    rw [Bool.eq_iff_iff, Key.startsWith_iff, Key.startsWith_iff]
    exact IndexSchema.isPrefix_storedKey (hq x hx)
  calc
    (tree.seek q.key).2.map Leaf.value
      = (tree.entries.filter (·.1.startsWith q.key)).map Prod.snd := by
        rw [hw.seek_eq, Tree.entries, List.filter_map, List.map_map]
        rfl
    _ = (items.filter fun x => (x.key q.index).startsWith q.key).map Item.object := by
        rw [hitems, List.filter_map, List.map_map]
        rfl
    _ = (items.filter (·.derived.startsWith q.key)).map Item.object := by rw [hfilter]

/-- Without arguments the key of a query is empty. -/
theorem Schema.key_of_resolve_nil {s : Schema α} {table index : String} {q : Query α}
    (h : s.resolve table index [] = .ok q) : q.key = [] := by
  unfold resolve at h
  cases ht : s.table? table with
  | none => simp [ht] at h
  | some ts =>
    simp only [ht] at h
    split at h
    · simp at h
    · rename_i i hi
      obtain rfl : _ = q := by simpa [keyOf, Except.map] using h
      rfl

/-- Without arguments a query lists all items of its index. -/
theorem Forest.Exact.within_nil {F : Forest α} {s : Schema α} {L : Ledger α} (h : F.Exact s L)
    (htidy : F.Tidy s) (hapart : F.Apart s) (hwf : F.Wf s) {table index : String} {q : Query α}
    (hq : s.resolve table index [] = .ok q) : ∃ items c, L.Items table q.index items ∧
      Scan.all.within s F table index [] = .ok (c, items.map Item.object) := by
  rcases Schema.resolve_spec hq with ⟨ts, hts, hi⟩
  rcases hwf.exists_tree (Schema.mem_paths hts hi) with ⟨tree, htree, hw⟩
  rcases h.exists_items htidy hapart hts hi htree hw with ⟨items, hitems, hentries⟩
  have hkey : q.key = [] := Schema.key_of_resolve_nil hq
  have hseek := Query.seek_eq q hw hentries fun x _ hx => by
    rw [hkey] at hx ⊢
    exact List.prefix_nil.1 hx
  have hall : items.filter (·.derived.startsWith q.key) = items := by
    rw [List.filter_eq_self, hkey]
    intro x _
    exact Key.startsWith_iff.2 List.nil_prefix
  rw [hall] at hseek
  refine ⟨items, (q.all tree).channel, hitems, ?_⟩
  rw [Scan.within, hq, ← hseek]
  simp only [htree]
  rfl

namespace Chronicle

variable {actions : List (Action α)}

/-- Where no two stored objects ever share a stored key, all contents hold just what their
writes left behind. -/
theorem Shows.exact
    (hnd : ∀ schema settings, .create schema settings ∈ actions → schema.paths.Nodup)
    (hapart : Throughout actions fun schema F _ => F.Apart schema)
    {schema : Schema α} {F : Forest α} {h : History α}
    (hshows : (performAll {} actions).Shows schema F h) : F.Exact schema (Ledger.of schema h) := by
  have hbears := holds_performAll (R := fun schema F h => F.Exact schema (Ledger.of schema h)) hnd
    hapart (fun _ _ _ _ hF => Forest.exact_empty hF)
    (by
      intro id t t' w h _ horderly hwritten hbefore hafter hexact
      have hschema : t'.schema = t.schema := hwritten.evolves.schema_eq
      rw [hschema] at hafter ⊢
      exact hexact.written horderly hbefore hwritten hafter)
  exact (hshows.of_bears hbears).2

/-- Queries for a key are exact. Take any run over stores whose index paths differ, such that at
no time two objects stored in a store or in a transaction share a stored key. In a transaction
that has not ended, let a query be understood, by the name of an index or by its form for stems,
such that no key derived from an object in the ledger of the transaction ends inside the key of
the query. Then `all` lists, by ascending stored keys, one object for each pair of an object in
the ledger and a derived key that starts with the key of the query, and `allDown` lists the same
in the opposite order. Without arguments these are all entries of the index. -/
theorem lists_matches
    (hnd : ∀ schema settings, .create schema settings ∈ actions → schema.paths.Nodup)
    (hapart : Throughout actions fun schema F _ => F.Apart schema) {id : Nat} {t : Txn α}
    (ht : (performAll {} actions).engine.txns[id]? = some t) (hactive : t.state = .active)
    {table index : String} {args : List Arg} {q : Query α}
    (hq : t.schema.resolve table index args = .ok q)
    (hends : ∀ p o d, Ledger.of t.schema ((performAll {} actions).seen id) table p = some o →
      q.index.Derives o d → d <+: q.key → d = q.key) :
    let s := (performAll {} actions).engine
    let L := Ledger.of t.schema ((performAll {} actions).seen id)
    ∃ items tree c, L.Items table q.index items ∧
      t.forest (indexPath table q.name) = some tree ∧
      tree.entries = items.map (fun x => (x.key q.index, x.object)) ∧
      let found := (items.filter (·.derived.startsWith q.key)).map Item.object
      s.ask id .all table index args = some (.ok (c, found)) ∧
      s.ask id .allDown table index args = some (.ok (c, found.reverse)) ∧
      (args = [] → found = items.map Item.object) := by
  intro s L
  have hshows : (performAll {} actions).Shows t.schema t.forest ((performAll {} actions).seen id) :=
    .inr ⟨id, t, ht, rfl, rfl, rfl⟩
  have hs : s.Sound := sound_performAll actions
  rcases Schema.resolve_spec hq with ⟨ts, hts, hi⟩
  rcases hshows.wf.exists_tree (Schema.mem_paths hts hi) with ⟨tree, htree, hw⟩
  have hnow := hapart actions (List.prefix_refl _) _ _ _ hshows
  rcases (hshows.exact hnd hapart).exists_items (hshows.tidy hnd) hnow hts hi htree hw with
    ⟨items, hitems, hentries⟩
  have hseek := Query.seek_eq q hw hentries fun x hx =>
    hends x.primary x.object x.derived ((hitems.mem_iff x).1 hx).1 ((hitems.mem_iff x).1 hx).2
  have hask (scan : Scan) : s.ask id scan table index args = some (.ok (scan.answer q tree)) := by
    rw [hs.ask_eq ht hactive, Scan.within, hq]
    simp only [htree]
  refine ⟨items, tree, (tree.seek q.key).1, hitems, htree, hentries, ?_, ?_, fun hargs => ?_⟩
  · rw [hask, ← hseek]
    rfl
  · rw [hask, ← hseek, ← List.map_reverse]
    simp only [Scan.answer, Query.allDown, Tree.seekDown_eq]
  · subst hargs
    have hall : items.filter (·.derived.startsWith q.key) = items := by
      rw [List.filter_eq_self, Schema.key_of_resolve_nil hq]
      intro x _
      exact Key.startsWith_iff.2 List.nil_prefix
    rw [hall]

/-- A writer has stored two pages that share a tag, and asks for the tags under a stem of it. One
of the pages has another tag under the stem, and is listed twice. -/
theorem lists_matches_pages :
    let first : Page := { path := "/a", tags := ["new", "top"] }
    let second : Page := { path := "/b", slug := "b", tags := ["topical", "top"] }
    let actions : List (Action Page) :=
      [.create Page.schema {}, .requestWrite 0, .acquireWrite 0,
        .write 0 (.insert Page.pages first), .write 0 (.insert Page.pages second)]
    let s := (performAll {} actions).engine
    let q : Query Page := ⟨"tags", Page.byTag, [116, 111], true⟩
    (∀ schema settings, .create schema settings ∈ actions → schema.paths.Nodup) ∧
      (Throughout actions fun schema F _ => F.Apart schema) ∧
      ∃ t, s.txns[0]? = some t ∧ t.state = .active ∧
        t.schema.resolve Page.pages "tags_prefix" [.text "to"] = .ok q ∧
        (∀ p o d, Ledger.of t.schema ((performAll {} actions).seen 0) Page.pages p = some o →
          q.index.Derives o d → d <+: q.key → d = q.key) ∧
        ∃ items c, (Ledger.of t.schema ((performAll {} actions).seen 0)).Items Page.pages q.index
            items ∧
          (items.filter (·.derived.startsWith q.key)).map Item.object = [first, second, second] ∧
          s.ask 0 .all Page.pages "tags_prefix" [.text "to"] =
            some (.ok (c, [first, second, second])) ∧
          s.ask 0 .allDown Page.pages "tags_prefix" [.text "to"] =
            some (.ok (c, [second, second, first])) := by
  intro first second actions s q
  have hcreate {schema : Schema Page} {settings : Settings}
      (h : .create schema settings ∈ actions) : schema = Page.schema := by
    simp only [actions, List.mem_cons, List.not_mem_nil, reduceCtorEq, or_false,
      Action.create.injEq] at h
    exact h.1
  have hinsert {table : String} {id : Nat} {o : Page}
      (h : .write id (.insert table o) ∈ actions) :
      table = Page.pages ∧ (o = first ∨ o = second) := by
    simp only [actions, List.mem_cons, List.not_mem_nil, reduceCtorEq, or_false, false_or,
      Action.write.injEq, Write.insert.injEq] at h
    rcases h with ⟨_, ht, rfl⟩ | ⟨_, ht, rfl⟩ <;> simp [ht]
  have hnd (schema : Schema Page) (settings : Settings) (h : .create schema settings ∈ actions) :
      schema.paths.Nodup := by
    rw [hcreate h]
    decide +kernel
  have hapart : Throughout actions fun schema F _ => F.Apart schema := by
    refine throughout_apart hnd fun schema settings hmem table id o id' o' ho ho' hne => ?_
    obtain rfl := hcreate hmem
    rcases hinsert ho with ⟨rfl, hpage⟩
    rcases hinsert ho' with ⟨_, hpage'⟩
    have hplaces : ∀ place ∈ Page.schema.places Page.pages first,
        place ∉ Page.schema.places Page.pages second := by decide +kernel
    rcases hpage with rfl | rfl <;> rcases hpage' with rfl | rfl
    · exact absurd rfl hne
    · exact hplaces
    · exact fun place hplace hin => hplaces place hin hplace
    · exact absurd rfl hne
  have hopen : s.txns[0]?.map Txn.state = some .active := by decide +kernel
  rcases Option.map_eq_some_iff.1 hopen with ⟨t, ht, hactive⟩
  have hshows : (performAll {} actions).Shows t.schema t.forest ((performAll {} actions).seen 0) :=
    .inr ⟨0, t, ht, rfl, rfl, rfl⟩
  have hschema : t.schema = Page.schema := by
    rcases (hshows.recorded hnd).1 with ⟨settings, hmem⟩
    exact hcreate hmem
  have hq : t.schema.resolve Page.pages "tags_prefix" [.text "to"] = .ok q := by
    rw [hschema]
    rfl
  have hends (p : Key) (o : Page) (d : Key)
      (hp : Ledger.of t.schema ((performAll {} actions).seen 0) Page.pages p = some o)
      (hd : q.index.Derives o d) : d <+: q.key → d = q.key := by
    have htable : t.schema.table? Page.pages = some Page.table := by
      rw [hschema]
      rfl
    -- whatever is in the ledger was inserted by the run
    have hstored := ((hshows.exact hnd hapart).stock Page.pages Page.table htable p).trans hp
    rcases (hshows.leads hnd).exists_insert htable hstored with ⟨deed, hdeed, hw⟩
    rcases (hshows.recorded hnd).2 deed hdeed with ⟨id, hid⟩
    rw [hw] at hid
    have hkeys : ∀ page ∈ [first, second],
        ∀ d ∈ (Page.byTag.indexer.keys page).toOption.getD [], d <+: q.key → d = q.key := by
      decide +kernel
    rcases hd with ⟨keys, hk, hmem⟩
    refine hkeys o (by simpa using (hinsert hid).2) d ?_
    change Page.byTag.indexer.keys o = .ok keys at hk
    rw [hk]
    exact hmem
  have hall : (s.ask 0 .all Page.pages "tags_prefix" [.text "to"]).map
      (fun x => x.toOption.map Prod.snd) = some (some [first, second, second]) := by decide +kernel
  rcases lists_matches hnd hapart ht hactive hq hends with
    ⟨items, _, c, hitems, _, _, hforward, hreverse, _⟩
  have hfound : (items.filter (·.derived.startsWith q.key)).map Item.object =
      [first, second, second] := by
    rw [hforward] at hall
    simpa [Except.toOption] using hall
  rw [hfound] at hforward hreverse
  exact ⟨hnd, hapart, t, ht, hactive, hq, hends, items, c, hitems, hfound, hforward, hreverse⟩

end Chronicle

end SnapStore
