import SnapStore.Proofs.Engine.Sources
import SnapStore.Proofs.Engine.View
import SnapStore.Sample.Page

/-! # Wakeups of readers

A read transaction of a primary store gets a channel with each answer. Once the same query, asked
in a new read transaction, has another answer, the channel has fired. The only ones that miss it
are snapshots of a writer that had changed the index and was aborted later on: they wait for nodes
that no root ever had.

Main statements: `Tells.keeps_answer` (what a source does for an answer) and `fired_or_same`. What
becomes of a snapshot of an aborted writer is shown by `wakeup_missed_aborted`.
-/

namespace SnapStore

variable {α : Type}

namespace Engine

variable {s : Engine α} {n id reader : Nat} {F : Forest α} {writer : Option Nat} {t : Txn α}
  {scan : Scan} {schema : Schema α} {table index : String} {args : List Arg} {c : Channel}
  {objects : List α} {actions : List (Action α)}

/-- The transaction at the position `id` may write and has not ended. -/
def Writing (s : Engine α) (id : Nat) : Prop :=
  ∃ t, s.txns[id]? = some t ∧ t.isWriting = true

/-- The current root of the store at the position `n`. -/
def root? (s : Engine α) (n : Nat) : Option (Root α) :=
  s.stores[n]?.map Store.root

/-- In a new read transaction, the query has an answer. It is the given one, or the channel of this
one has fired. -/
def FiredOrSame (s : Engine α) (n : Nat) (scan : Scan) (table index : String) (args : List Arg)
    (c : Channel) (objects : List α) : Prop :=
  ∃ c' objects', s.askNow n scan table index args = some (.ok (c', objects')) ∧
    (s.board.isFired c = true ∨ c' = c ∧ objects' = objects)

/-- What has led on to the current root of a store has fired, or is answered still. -/
theorem Sound.firedOrSame (hs : s.Sound) {st : Store α} (hst : s.stores[n]? = some st)
    (hkept : Forest.Kept s.board F st.root.get?)
    (hanswer : scan.within st.schema F table index args = .ok (c, objects)) :
    s.FiredOrSame n scan table index args c objects := by
  rcases hkept.within hanswer with ⟨c', objects', hnow, hsame⟩
  refine ⟨c', objects', ?_, hsame⟩
  rw [hs.askNow_eq hst, Scan.over_eq, hnow]

/-- A writer that is still active keeps others from changing the root that it works on. -/
theorem Sound.root?_of_writing (hs : s.Sound) (ht : s.Authors id t) (hstore : t.store = n)
    {after : List (Action α)} (hw : (s.performAll after).Writing id) :
    (s.performAll after).root? n = s.root? n := by
  subst hstore
  have hon : s.WritesOn id t.store t.root := ⟨t, ht.txn, fun _ => ⟨rfl, rfl⟩⟩
  rcases hs.writesOn_performAll hon after with ⟨t', ht', hsame⟩
  rcases hw with ⟨t'', ht'', hw'⟩
  obtain rfl := Option.some.inj (ht'.symm.trans ht'')
  rcases hsame hw' with ⟨hstore, hroot⟩
  rcases hs.txns id t ht.txn with ⟨st, hst, hf⟩
  rcases (hs.performAll after).txns id t' ht' with ⟨st', hst', hf'⟩
  rw [hstore] at hst'
  rw [root?, root?, hst, hst', Option.map_some, Option.map_some, ← (hf.writes ht.writing).2,
    ← (hf'.writes hw').2, hroot]

/-- Whoever has been aborted stays so. -/
theorem Sound.aborted_performAll (hs : s.Sound) (h : s.Aborted id) (after : List (Action α)) :
    (s.performAll after).Aborted id := by
  induction after generalizing s with
  | nil => exact h
  | cons a after ih =>
    rcases h with ⟨t, ht, hended⟩
    exact ih (hs.perform a) (hs.ended_perform ht hended a)

/-- An answer over trees that have a source has fired or is answered still, as long as the source
is no writer that has been aborted, or is still active. -/
theorem Tells.keeps_answer (h : s.Tells n F writer) (hs : s.Sound) {st : Store α}
    (hst : s.stores[n]? = some st)
    (hanswer : scan.within st.schema F table index args = .ok (c, objects))
    (after : List (Action α)) :
    (s.performAll after).FiredOrSame n scan table index args c objects ∨
      ∃ id, writer = some id ∧ ((s.performAll after).Aborted id ∨
        (s.performAll after).Writing id ∧ (s.performAll after).root? n = s.root? n) := by
  have hlater := hs.performAll after
  have hextends := hs.extends_performAll after
  rcases hextends.stores n st hst with ⟨st', hst', hleads⟩
  have hnow (hkept : Forest.Kept (s.performAll after).board F st'.root.get?) :
      (s.performAll after).FiredOrSame n scan table index args c objects :=
    hlater.firedOrSame hst' hkept (hleads.schema ▸ hanswer)
  cases h with
  | published hst₁ hp hkept =>
    obtain rfl := Option.some.inj (hst.symm.trans hst₁)
    exact .inl (hnow (hkept.trans (hleads.kept hp) hextends.fired))
  | aborted haborted => exact .inr ⟨_, rfl, .inl (hs.aborted_performAll haborted after)⟩
  | @writing id t ht hstore hcarries =>
    cases (Tells.writing ht hstore hcarries).performAll hs after with
    | published hst₁ _ hkept =>
      obtain rfl := Option.some.inj (hst'.symm.trans hst₁)
      exact .inl (hnow hkept)
    | aborted haborted => exact .inr ⟨id, rfl, .inl haborted⟩
    | writing ht' _ _ =>
      have hw : (s.performAll after).Writing id := ⟨_, ht'.txn, ht'.writing⟩
      exact .inr ⟨id, rfl, .inr ⟨hw, hs.root?_of_writing ht hstore hw⟩⟩

/-- No wakeup is missed. A read transaction of a primary store, opened at any time of any run, gets
the channel `c` with the answer to a query. Whatever happens after that: once the same query, asked
in a new read transaction, has another answer, the channel has fired. The exception is a reader that
is a snapshot of a writer which had changed the index by then and has been aborted. As long as this
writer is active, the store has no later root. Objects may carry an identity, so that a like object
in place of another one is another answer. -/
theorem fired_or_same (ht : (performAll {} actions).txns[reader]? = some t)
    (hread : t.write = false) (hprimary : t.primary = true)
    (hanswer : (performAll {} actions).ask reader scan table index args = some (.ok (c, objects)))
    (after : List (Action α)) :
    let s : Engine α := performAll {} actions
    let later := s.performAll after
    later.FiredOrSame t.store scan table index args c objects ∨
      ∃ q writer, t.schema.resolve table index args = .ok q ∧
        Borrows (indexPath table q.name) actions reader writer ∧ (later.Aborted writer ∨
          later.Writing writer ∧ later.root? t.store = s.root? t.store) := by
  intro s later
  have hs : s.Sound := Sound.empty.performAll actions
  have hactive := active_of_ask ht hanswer
  rw [hs.ask_eq ht hactive] at hanswer
  have hwithin := Option.some.inj hanswer
  rcases hs.txns reader t ht with ⟨st, hst, hf⟩
  cases hq : t.schema.resolve table index args with
  | error e => simp [Scan.within, hq] at hwithin
  | ok q =>
    rcases exists_tells actions ht hread hactive hprimary (indexPath table q.name) with
      ⟨writer, htells, hborrows⟩
    rw [← Scan.within_only hq, hf.schema] at hwithin
    refine (htells.keeps_answer hs hst hwithin after).imp_right ?_
    rintro ⟨id, hid, hend⟩
    exact ⟨q, id, rfl, hborrows id hid, hend⟩

/-- Two readers ask for the slugs under a stem that ends inside an edge. One of them reads the root,
and the other one is a snapshot of a writer that has added such a slug. The writer commits, and the
next one replaces its page. -/
theorem fired_or_same_pages :
    let put (id : Nat) (page : Page) : Action Page := .write id (.insert Page.pages page)
    let first : Page := { path := "/a", slug := "spring" }
    let second : Page := { path := "/b", slug := "sprint" }
    let third : Page := { path := "/c", slug := "sprite" }
    let actions := [.create Page.schema {}, .requestWrite 0, .acquireWrite 0, put 0 first,
      put 0 second, .commit 0, .openRead 0, .requestWrite 0, .acquireWrite 0, put 2 third,
      .snapshotTxn 2]
    let after := [.commit 2, .requestWrite 0, .acquireWrite 0,
      put 4 { third with title := "new" }, .commit 4]
    let s : Engine Page := performAll {} actions
    let later := s.performAll after
    let c : Channel := ⟨⟨1, 2, 1⟩, 0, .fork⟩
    let d : Channel := ⟨⟨3, 2, 0⟩, 0, .fork⟩
    s.ask 1 .all Page.pages "slug_prefix" [.text "spri"] = some (.ok (c, [first, second])) ∧
      s.ask 3 .all Page.pages "slug_prefix" [.text "spri"] =
        some (.ok (d, [first, second, third])) ∧
      later.FiredOrSame 0 .all Page.pages "slug_prefix" [.text "spri"] c [first, second] ∧
      later.FiredOrSame 0 .all Page.pages "slug_prefix" [.text "spri"] d
        [first, second, third] := by
  intro put first second third actions after s later c d
  -- the only writer that was asked for a snapshot has been committed
  have hcommitted : later.txns[2]?.map Txn.state = some (.ended .commit) := by decide +kernel
  rcases Option.map_eq_some_iff.1 hcommitted with ⟨w, hw, hended⟩
  have hkept {path : Key} {reader writer : Nat} (h : Borrows path actions reader writer)
      {P : Prop} : ¬ (later.Aborted writer ∨ later.Writing writer ∧ P) := by
    obtain rfl : writer = 2 := by simpa [actions, put] using h.mem
    rintro (⟨w', hw', haborted⟩ | ⟨⟨w', hw', hwriting⟩, _⟩)
    · obtain rfl := Option.some.inj (hw.symm.trans hw')
      rw [hended] at haborted
      cases haborted
    · obtain rfl := Option.some.inj (hw.symm.trans hw')
      simp [Txn.isWriting, hended] at hwriting
  have hreader (reader : Nat)
      (hopen : s.txns[reader]?.map (fun t => (t.store, t.write, t.primary)) =
        some (0, false, true)) {e : Channel} {objects : List Page}
      (hask : s.ask reader .all Page.pages "slug_prefix" [.text "spri"] =
        some (.ok (e, objects))) :
      later.FiredOrSame 0 .all Page.pages "slug_prefix" [.text "spri"] e objects := by
    rcases Option.map_eq_some_iff.1 hopen with ⟨t, ht, hkind⟩
    simp only [Prod.mk.injEq] at hkind
    rcases hkind with ⟨hstore, hread, hprimary⟩
    rw [← hstore]
    refine (fired_or_same ht hread hprimary hask after).resolve_right ?_
    rintro ⟨q, writer, _, hborrows, hend⟩
    exact hkept hborrows hend
  have hc : s.ask 1 .all Page.pages "slug_prefix" [.text "spri"] =
      some (.ok (c, [first, second])) := by decide +kernel
  have hd : s.ask 3 .all Page.pages "slug_prefix" [.text "spri"] =
      some (.ok (d, [first, second, third])) := by decide +kernel
  exact ⟨hc, hd, hreader 1 (by decide +kernel) hc, hreader 3 (by decide +kernel) hd⟩

/-- A snapshot of a writer lists all pages. The writer is aborted, so that the channel of the list
never fires, and the next writer replaces one of the pages. -/
theorem wakeup_missed_aborted :
    let first : Page := { path := "/a", slug := "spring" }
    let second : Page := { path := "/b", slug := "sprint" }
    let newer : Page := { first with title := "new" }
    let put (id : Nat) (page : Page) : Action Page := .write id (.insert Page.pages page)
    let actions := [.create Page.schema {}, .requestWrite 0, .acquireWrite 0, put 0 first,
      .commit 0, .requestWrite 0, .acquireWrite 0, put 1 second, .snapshotTxn 1]
    let after := [.abort 1, .requestWrite 0, .acquireWrite 0, put 3 newer, .commit 3]
    let s : Engine Page := performAll {} actions
    let later := s.performAll after
    let c : Channel := ⟨⟨2, 1, 0⟩, 0, .node⟩
    s.txns[2]?.map (fun t => (t.store, t.write, t.primary)) = some (0, false, true) ∧
      s.ask 2 .all Page.pages primaryName [] = some (.ok (c, [first, second])) ∧
      (later.askNow 0 .all Page.pages primaryName []).map (Except.map Prod.snd) =
        some (.ok [newer]) ∧
      later.board.isFired c = false := by
  intro first second newer put actions after s later c
  exact ⟨by decide +kernel, by decide +kernel, by decide +kernel, by decide +kernel⟩

end Engine

end SnapStore
