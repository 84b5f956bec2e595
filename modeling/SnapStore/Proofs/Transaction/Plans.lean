import SnapStore.Proofs.Schema
import SnapStore.Proofs.Transaction.Forest

/-! # Plans

What an index stores of an object, and what a plan for a write takes out of each index and
puts into it.

Main statements: `planInsert_spec` and `planRemove_spec`, a plan names exactly the keys of
the old object and of the new one, and `exists_planInsert`.
-/

namespace SnapStore

variable {α : Type}

@[simp] theorem ok_bind {ε β γ : Type} (b : β) (f : β → Except ε γ) :
    (Except.ok b >>= f) = f b := rfl

theorem bind_eq_ok_iff {ε β γ : Type} {x : Except ε β} {f : β → Except ε γ} {c : γ} :
    (x >>= f) = .ok c ↔ ∃ b, x = .ok b ∧ f b = .ok c := by
  cases x with
  | error e => simp [bind, Except.bind]
  | ok b => simp [bind, Except.bind]

/-! ## Stored keys -/

namespace IndexSchema

/-- The key under which an index stores an object, by a key derived from it and its primary
key. -/
def storedKey (i : IndexSchema α) (derived primary : Key) : Key :=
  if i.carriesPrimary then derived ++ primary else derived

/-- The index derives the key from the object. -/
def Derives (i : IndexSchema α) (object : α) (derived : Key) : Prop :=
  ∃ keys, i.indexer.keys object = .ok keys ∧ derived ∈ keys

/-- The index stores the object with the given primary key under the key. -/
def Stores (i : IndexSchema α) (object : α) (primary key : Key) : Prop :=
  ∃ derived, i.Derives object derived ∧ key = i.storedKey derived primary

/-- The index can derive its keys from the object. -/
def Accepts (i : IndexSchema α) (object : α) : Prop :=
  ∃ keys, i.indexer.keys object = .ok keys

variable {i : IndexSchema α} {table name : String} {object : α} {primary key : Key}

/-- A single indexer derives no second key. -/
theorem Derives.keys_eq (h : i.Derives object key) (hs : i.indexer.isSingle = true) :
    i.indexer.keys object = .ok [key] := by
  rcases h with ⟨keys, hk, hmem⟩
  rcases i with ⟨name, indexer, unique, allowMissing⟩
  cases indexer with
  | multi m => simp [Indexer.isSingle] at hs
  | single m =>
    simp only [Indexer.keys] at hk ⊢
    cases hm : m.ofObject object with
    | error cause => simp [hm, Except.map] at hk
    | ok found =>
      obtain rfl : found.toList = keys := by simpa [hm, Except.map] using hk
      obtain rfl : found = some key := by simpa using hmem
      rfl

theorem exists_storedKeys (h : i.Accepts object) :
    ∃ keys, i.storedKeys table name object primary = .ok keys := by
  rcases h with ⟨keys, hk⟩
  simp [storedKeys, hk]

/-- The stored keys are those under which the index stores the object. -/
theorem mem_storedKeys {keys : List Key} (h : i.storedKeys table name object primary = .ok keys) :
    i.Accepts object ∧ ∀ key, key ∈ keys ↔ i.Stores object primary key := by
  unfold storedKeys at h
  cases hk : i.indexer.keys object with
  | error cause => simp [hk] at h
  | ok derived =>
    refine ⟨⟨derived, hk⟩, fun key => ?_⟩
    have hderives (d : Key) : i.Derives object d ↔ d ∈ derived := by simp [Derives, hk]
    simp only [hk, Except.ok.injEq] at h
    subst h
    simp only [Stores, hderives, storedKey]
    cases i.carriesPrimary <;> simp [eq_comm]

end IndexSchema

/-- The primary index stores an object under its primary key, and nowhere else. -/
theorem stores_primary_iff (table : String) {t : TableSchema α} {id : IndexSchema α}
    (hid : t.primary? = some id) (hu : id.unique = true) (hs : id.indexer.isSingle = true)
    {object : α} {primary key : Key} :
    id.Stores object primary key ↔ t.primaryKey table object = .ok key := by
  have hcarry : id.carriesPrimary = false := by simp [IndexSchema.carriesPrimary, hu, hs]
  rw [TableSchema.primaryKey_eq_ok_iff hid hs]
  constructor
  · rintro ⟨derived, hd, rfl⟩
    simpa [IndexSchema.storedKey, hcarry] using hd.keys_eq hs
  · intro hk
    exact ⟨key, ⟨[key], hk, List.mem_singleton_self key⟩, by simp [IndexSchema.storedKey, hcarry]⟩

/-! ## Plans of a table -/

/-- A plan for an index takes out what the index stored of the old object, unless it stores
the new one there as well, and puts in what it stores of the new one. -/
structure IndexPlan.Exchanges (p : IndexPlan) (name : String) (i : IndexSchema α)
    (primary : Key) (old new : Option α) : Prop where
  index : p.index = name
  accepts : ∀ o ∈ new, i.Accepts o
  insert : ∀ k, k ∈ p.insert ↔ ∃ o ∈ new, i.Stores o primary k
  remove : ∀ k, k ∈ p.remove ↔ (∃ o ∈ old, i.Stores o primary k) ∧ k ∉ p.insert

namespace TableSchema

variable {table : String} {primary : Key}

/-- The plan for storing an object begins with the part for the first index, which puts in the
stored keys of the object. -/
theorem planInsert_cons {object : α} {existing : Option α} {name : String} {i : IndexSchema α}
    {rest : Catalog String (IndexSchema α)} {plans : List IndexPlan}
    (h : planInsert table object primary existing ((name, i) :: rest) = .ok plans) :
    ∃ (new old : List Key) (more : List IndexPlan),
      i.storedKeys table name object primary = .ok new ∧
      (∀ k, k ∈ old ↔ ∃ o ∈ existing, i.Stores o primary k) ∧
      planInsert table object primary existing rest = .ok more ∧
      plans = ⟨name, old.filter (!new.contains ·), new⟩ :: more := by
  rw [planInsert, bind_eq_ok_iff] at h
  rcases h with ⟨new, hnew, h⟩
  by_cases hmiss : (new.isEmpty && !i.allowMissing && name != primaryName) = true
  · -- the object lacks a key that the index requires
    cases existing <;> simp [hmiss, throw, throwThe, MonadExceptOf.throw, bind, Except.bind] at h
  · cases existing with
    | none =>
      -- without an old object there is nothing to take out
      rw [if_neg hmiss] at h
      simp only [bind_eq_ok_iff] at h
      rcases h with ⟨old, hold, more, hmore, hplans⟩
      obtain rfl : [] = old := Except.ok.inj hold
      exact ⟨new, [], more, hnew, by simp, hmore, (Except.ok.inj hplans).symm⟩
    | some o =>
      rw [if_neg hmiss] at h
      simp only [bind_eq_ok_iff] at h
      rcases h with ⟨old, hold, more, hmore, hplans⟩
      exact ⟨new, old, more, hnew, by simpa using (IndexSchema.mem_storedKeys hold).2, hmore,
        (Except.ok.inj hplans).symm⟩

/-- The plan for storing an object has one part for each index, which exchanges the keys of
the old object for those of the new one. -/
theorem planInsert_spec {object : α} {existing : Option α} :
    ∀ {indexes : Catalog String (IndexSchema α)} {plans : List IndexPlan},
      planInsert table object primary existing indexes = .ok plans →
      plans.map IndexPlan.index = indexes.keys ∧
        ∀ name i, (name, i) ∈ indexes →
          ∃ p ∈ plans, p.Exchanges name i primary existing (some object)
  | [], plans, h => by
    obtain rfl : [] = plans := by simpa [planInsert] using h
    simp [Catalog.keys]
  | (name, i) :: rest, plans, h => by
    rcases planInsert_cons h with ⟨new, old, more, hnew, hold, hmore, rfl⟩
    rcases IndexSchema.mem_storedKeys hnew with ⟨haccepts, hmem⟩
    rcases planInsert_spec hmore with ⟨hnames, hspec⟩
    refine ⟨by simp [hnames, Catalog.keys], fun name' i' hi => ?_⟩
    rcases List.mem_cons.1 hi with heq | hi
    · cases heq
      refine ⟨_, List.mem_cons_self, rfl, by simpa using haccepts, by simpa using hmem, ?_⟩
      intro k
      simp [hold]
    · rcases hspec name' i' hi with ⟨p, hp, hex⟩
      exact ⟨p, List.mem_cons_of_mem _ hp, hex⟩

/-- Each part of the plan for storing an object puts in what one of the indexes stores of it. -/
theorem stores_planInsert {object : α} {existing : Option α} :
    ∀ {indexes : Catalog String (IndexSchema α)} {plans : List IndexPlan},
      planInsert table object primary existing indexes = .ok plans →
      ∀ p ∈ plans, ∃ i, (p.index, i) ∈ indexes ∧ ∀ k ∈ p.insert, i.Stores object primary k
  | [], plans, h, p, hp => by
    obtain rfl : [] = plans := by simpa [planInsert] using h
    cases hp
  | (name, i) :: rest, plans, h, p, hp => by
    rcases planInsert_cons h with ⟨new, old, more, hnew, _, hmore, rfl⟩
    rcases List.mem_cons.1 hp with rfl | hp
    · exact ⟨i, List.mem_cons_self, fun k => ((IndexSchema.mem_storedKeys hnew).2 k).1⟩
    · rcases stores_planInsert hmore p hp with ⟨i', hi', hstores⟩
      exact ⟨i', List.mem_cons_of_mem _ hi', hstores⟩

/-- An object has a plan for its storing if each index has a key of it or may do without, and
derives the keys of the old object. -/
theorem exists_planInsert {object : α} {existing : Option α} :
    ∀ {indexes : Catalog String (IndexSchema α)},
      (∀ name i, (name, i) ∈ indexes → ∃ keys, i.indexer.keys object = .ok keys ∧
        (i.allowMissing = true ∨ keys ≠ [])) →
      (∀ old ∈ existing, ∀ name i, (name, i) ∈ indexes → i.Accepts old) →
      ∃ plans, planInsert table object primary existing indexes = .ok plans
  | [], _, _ => ⟨[], rfl⟩
  | (name, i) :: rest, hnew, hold => by
    obtain ⟨plans, hplans⟩ := exists_planInsert (fun name' i' hi => hnew name' i' (.tail _ hi))
      fun old ho name' i' hi => hold old ho name' i' (.tail _ hi)
    rcases hnew name i List.mem_cons_self with ⟨keys, hkeys, hsome⟩
    have hstored : ∃ stored, i.storedKeys table name object primary = .ok stored ∧
        (stored.isEmpty && !i.allowMissing && name != primaryName) = false := by
      refine ⟨if i.carriesPrimary then keys.map (· ++ primary) else keys,
        by simp only [IndexSchema.storedKeys, hkeys], ?_⟩
      rcases hsome with hmay | hne
      · simp [hmay]
      · split <;> simp [hne]
    rcases hstored with ⟨stored, hstored, hgo⟩
    cases existing with
    | none =>
      refine ⟨⟨name, List.filter (!stored.contains ·) [], stored⟩ :: plans, ?_⟩
      simp only [planInsert, hstored, ok_bind, hgo, Bool.false_eq_true, if_false, hplans]
      rfl
    | some old =>
      obtain ⟨gone, hgone⟩ : ∃ gone, i.storedKeys table name old primary = .ok gone :=
        IndexSchema.exists_storedKeys (hold old rfl name i List.mem_cons_self)
      refine ⟨⟨name, gone.filter (!stored.contains ·), stored⟩ :: plans, ?_⟩
      simp only [planInsert, hstored, ok_bind, hgo, Bool.false_eq_true, if_false, hgone, hplans]
      rfl

/-- The plan for a removal has one part for each index. -/
theorem index_planRemove {object : α} {bulk : Option (String × Key)} :
    ∀ {indexes : Catalog String (IndexSchema α)} {plans : List IndexPlan},
      planRemove table object primary bulk indexes = .ok plans →
      plans.map IndexPlan.index = indexes.keys
  | [], plans, h => by
    obtain rfl : [] = plans := by simpa [planRemove] using h
    rfl
  | (name, i) :: rest, plans, h => by
    simp only [planRemove, bind_eq_ok_iff] at h
    rcases h with ⟨keys, _, more, hmore, hplans⟩
    obtain rfl := Except.ok.inj hplans
    simp [index_planRemove hmore, Catalog.keys]

/-- An object whose keys can all be derived has a plan for its removal, with one part for
each index. Keys under the stem are left out in the named index. -/
theorem planRemove_spec (table : String) (primary : Key) (bulk : Option (String × Key))
    {object : α} : ∀ {indexes : Catalog String (IndexSchema α)},
      (∀ name i, (name, i) ∈ indexes → i.Accepts object) →
      ∃ plans, planRemove table object primary bulk indexes = .ok plans ∧
        plans.map IndexPlan.index = indexes.keys ∧ (∀ p ∈ plans, p.insert = []) ∧
        ∀ name i, (name, i) ∈ indexes → ∃ p ∈ plans, p.index = name ∧
          ∀ k, k ∈ p.remove ↔ i.Stores object primary k ∧
            ¬ ∃ stem, bulk = some (name, stem) ∧ stem <+: k
  | [], _ => ⟨[], rfl, rfl, by simp, by simp⟩
  | (name, i) :: rest, h => by
    obtain ⟨keys, hkeys⟩ : ∃ keys, i.storedKeys table name object primary = .ok keys :=
      IndexSchema.exists_storedKeys (h name i List.mem_cons_self)
    rcases IndexSchema.mem_storedKeys hkeys with ⟨_, hmem⟩
    obtain ⟨plans, hplans, hnames, hinsert, hspec⟩ :=
      planRemove_spec table primary bulk fun name' i' hi => h name' i' (List.mem_cons_of_mem _ hi)
    have hrun : ∃ remove, planRemove table object primary bulk ((name, i) :: rest) =
        .ok (⟨name, remove, []⟩ :: plans) ∧ ∀ k, k ∈ remove ↔ i.Stores object primary k ∧
          ¬ ∃ stem, bulk = some (name, stem) ∧ stem <+: k := by
      simp only [planRemove, hkeys, hplans, bind, Except.bind]
      -- only in the queried index keys are left to the removal of the stem
      refine ⟨_, rfl, fun k => ?_⟩
      cases bulk with
      | none => simp [hmem]
      | some b =>
        rcases b with ⟨index, stem⟩
        by_cases hi : index = name
        · simp [hi, hmem, ← Key.startsWith_iff]
        · simp [hi, hmem]
    rcases hrun with ⟨remove, hrun, hremove⟩
    refine ⟨_, hrun, by simp [hnames, Catalog.keys], by simpa using hinsert, fun name' i' hi => ?_⟩
    rcases List.mem_cons.1 hi with heq | hi
    · cases heq
      exact ⟨_, List.mem_cons_self, rfl, hremove⟩
    · rcases hspec name' i' hi with ⟨p, hp, hex⟩
      exact ⟨p, List.mem_cons_of_mem _ hp, hex⟩

end TableSchema

end SnapStore
