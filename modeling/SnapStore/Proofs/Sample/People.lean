import Mathlib.Data.List.Induction
import SnapStore.Proofs.Index.Facets
import SnapStore.Proofs.Engine.Mirror
import SnapStore.Proofs.Catalog
import SnapStore.Sample.Person

/-! # Sample people in a store

Every index of a table of people derives its keys from any person, so a person with a name and an
address can always be stored. Sample people of different numbers share no stored key: they differ
in their identifiers and in their addresses, and every other index has the primary key behind the
derived one. So a history of sample people leaves behind whom it stored, whatever the order.

Main statements: `prepare_insert`, `places_sample`, `Sampled.apart` and `History.Stored.lists`.
-/

namespace SnapStore

/-! ## Lowercase texts -/

/-- The character is its own lowercase form wherever it stands. -/
def Lowercase.isFixed (c : Char) : Bool :=
  c != 'Σ' && ofChar c == [c]

/-- A text stays as it is if each of its characters is its own lowercase form. -/
theorem Lowercase.ofText_eq_self {s : String} (h : s.toList.all isFixed = true) :
    ofText s = s := by
  have hfixed : ∀ c ∈ s.toList, c ≠ 'Σ' ∧ ofChar c = [c] := by
    simpa only [isFixed, List.all_eq_true, Bool.and_eq_true, bne_iff_ne, beq_iff_eq] using h
  have hsigma : 'Σ' ∉ s.toList := fun hmem => (hfixed 'Σ' hmem).1 rfl
  have hsame : s.toList.flatMap ofChar = s.toList := by
    rw [List.flatMap_congr fun c hc => (hfixed c hc).2, List.flatMap_singleton']
  rw [ofText, ofChars, ofCharsAfter_of_no_sigma hsigma, hsame, String.ofList_toList]

/-- Of two objects with one stored key that has the primary key behind it, the primary keys agree
if they are equally long. -/
theorem IndexSchema.Stores.primary_eq {α : Type} {i : IndexSchema α} {o o' : α} {p p' k : Key}
    (hcarry : i.carriesPrimary = true) (hlength : p.length = p'.length) (h : i.Stores o p k)
    (h' : i.Stores o' p' k) : p = p' := by
  rcases h with ⟨d, _, rfl⟩
  rcases h' with ⟨d', _, heq⟩
  simp only [storedKey, hcarry, if_true] at heq
  exact (List.append_inj' heq hlength).2

/-- Without the primary key behind it, a stored key is the only key of its object. -/
theorem IndexSchema.Stores.keys_eq {α : Type} {i : IndexSchema α} {o : α} {p k : Key}
    (hcarry : ¬ i.carriesPrimary = true) (h : i.Stores o p k) : i.indexer.keys o = .ok [k] := by
  rcases h with ⟨d, hd, rfl⟩
  have hboth : i.unique = true ∧ i.indexer.isSingle = true := by
    simpa [carriesPrimary] using hcarry
  rw [storedKey, if_neg hcarry]
  exact hd.keys_eq hboth.2

namespace Person

variable {i : IndexSchema Person} {name : String}

/-! ## The schema -/

theorem validate_schema : (schema [people, archive]).validate = .ok () := by
  decide +kernel

theorem nodup_paths : (schema [people, archive]).paths.Nodup := by
  decide +kernel

theorem table?_people : (schema [people, archive]).table? people = some (table people) := rfl

theorem mem_indexes {t : String} (h : (name, i) ∈ (table t).indexes) :
    i ∈ indexes ∧ i.name = name := by
  rcases List.mem_map.1 (Catalog.mem_ofList h) with ⟨i', hi', heq⟩
  cases heq
  exact ⟨hi', rfl⟩

theorem primaryKey_table (t : String) (p : Person) :
    (table t).primaryKey people p = .ok p.id.bytes := rfl

/-- A person without a name has no key of name and age. -/
theorem ofObject_nameAge (p : Person) :
    (CompoundIndex.single [TextIndex.single fun p : Person => some p.name,
        NumberIndex.signed fun p => some p.age]).ofObject p =
      .ok (if p.name = "" then none
        else some (TextIndex.key false p.name ++ NumberIndex.signedKey p.age)) := by
  by_cases hname : p.name = ""
  · have htext : (TextIndex.single fun p : Person => some p.name).ofObject p = .ok none := by
      simp [TextIndex.single, hname]
    simp only [CompoundIndex.single, CompoundIndex.joined, htext, if_pos hname]
    rfl
  · have htext : (TextIndex.single fun p : Person => some p.name).ofObject p =
        .ok (some (TextIndex.key false p.name)) :=
      TextIndex.ofObject_single.2 ⟨p.name, rfl, hname, rfl⟩
    have hfilter (k : Key) (hk : k ≠ []) : (some k).filter (!·.isEmpty) = some k := by
      simp [hk]
    simp only [CompoundIndex.single, CompoundIndex.joined, htext, if_neg hname]
    refine congrArg Except.ok ((hfilter _ ?_).trans ?_)
    · simp [TextIndex.key]
    · simp only [List.append_nil]

/-- Every index derives its keys from any person, and keys that it cannot do without from one with
a name and an address. -/
theorem exists_keys (hi : i ∈ indexes) (p : Person) : ∃ keys, i.indexer.keys p = .ok keys ∧
    (p.name ≠ "" → p.email ≠ "" → i.allowMissing = true ∨ keys ≠ []) := by
  simp only [indexes, List.mem_cons, List.not_mem_nil, or_false] at hi
  rcases hi with rfl | rfl | rfl | rfl | rfl | rfl | rfl | rfl | rfl
  on_goal 8 => rw [Indexer.keys, ofObject_nameAge]
  all_goals
    refine ⟨_, rfl, fun hname hemail => ?_⟩
    simp [hname, hemail]

theorem accepts (hi : i ∈ indexes) (p : Person) : i.Accepts p := by
  rcases exists_keys hi p with ⟨keys, hkeys, _⟩
  exact ⟨keys, hkeys⟩

/-- A person with a name and an address can always be stored. -/
theorem prepare_insert {t : Txn Person} (h : t.Orderly) (hw : t.ensureWrite = .ok ())
    (hs : t.schema = schema [people, archive]) {p : Person} (hname : p.name ≠ "")
    (hemail : p.email ≠ "") : t.prepare (.insert people p) = .ok () := by
  have ht : t.schema.table? people = some (table people) := hs ▸ table?_people
  rcases TxnM.run_stored_of_table h.sound h.valid ht p.id.bytes {} with ⟨⟨tree, htree, _⟩, _⟩
  obtain ⟨plans, hplans⟩ : ∃ plans, TableSchema.planInsert people p p.id.bytes
      (tree.get? p.id.bytes) (table people).indexes = .ok plans := by
    refine TableSchema.exists_planInsert (fun name i hi => ?_) fun old _ name i hi => ?_
    · rcases exists_keys (mem_indexes hi).1 p with ⟨keys, hkeys, hsome⟩
      exact ⟨keys, hkeys, hsome hname hemail⟩
    · exact accepts (mem_indexes hi).1 old
  simp only [Txn.prepare, hw, ok_bind, ht, primaryKey_table, htree, hplans]
  rfl

/-! ## Sample people -/

theorem name_sample (x : Nat) : (sample x).name ∈ names := by
  have h : ∀ n < 8, names.getD n "" ∈ names := by decide
  exact h (x % 8) (Nat.mod_lt x (by decide))

theorem name_sample_ne (x : Nat) : (sample x).name ≠ "" := by
  have h : ∀ name ∈ names, name ≠ "" := by decide
  exact h _ (name_sample x)

theorem email_sample (x : Nat) :
    (sample x).email = (sample x).name ++ Nat.repr x ++ "@example.com" := rfl

theorem email_sample_ne (x : Nat) : (sample x).email ≠ "" := by
  rw [email_sample]
  simp

theorem isDigit_of_mem_repr {x : Nat} {c : Char} (h : c ∈ (Nat.repr x).toList) :
    c.isDigit = true :=
  Nat.isDigit_of_mem_toDigits (by decide) (by decide) (Nat.toList_repr ▸ h)

/-- The digits of an address are those of the number. -/
theorem filter_email (x : Nat) :
    (sample x).email.toList.filter Char.isDigit = Nat.toDigits 10 x := by
  have hname : ∀ name ∈ names, name.toList.filter Char.isDigit = [] := by decide
  have hhost : "@example.com".toList.filter Char.isDigit = [] := by decide
  have hdigits : (Nat.repr x).toList.filter Char.isDigit = (Nat.repr x).toList :=
    List.filter_eq_self.2 fun c hc => isDigit_of_mem_repr hc
  rw [email_sample, String.toList_append, String.toList_append, List.filter_append,
    List.filter_append, hname _ (name_sample x), hhost, hdigits, List.nil_append, List.append_nil,
    Nat.toList_repr]

theorem email_inj {x y : Nat} (h : (sample x).email = (sample y).email) : x = y := by
  have hdigits : Nat.toDigits 10 x = Nat.toDigits 10 y := by
    rw [← filter_email, h, filter_email]
  rw [← Nat.ofDigitChars_ten_toDigits (n := x), hdigits, Nat.ofDigitChars_ten_toDigits]

/-- The address is in lower case. -/
theorem ofText_email (x : Nat) : Lowercase.ofText (sample x).email = (sample x).email := by
  have hname : ∀ name ∈ names, name.toList.all Lowercase.isFixed = true := by
    decide +kernel
  have hhost : "@example.com".toList.all Lowercase.isFixed = true := by
    decide +kernel
  have hcode : ∀ n < 58, 48 ≤ n → Lowercase.isFixed (Char.ofNat n) = true := by
    decide +kernel
  have hdigits : (Nat.repr x).toList.all Lowercase.isFixed = true := by
    refine List.all_eq_true.2 fun c hc => ?_
    have hrange := isDigit_of_mem_repr hc
    simp only [Char.isDigit, Bool.and_eq_true, decide_eq_true_eq] at hrange
    have hlast : c.toNat ≤ 57 := hrange.2
    rw [← Char.ofNat_toNat c]
    exact hcode c.toNat (Nat.lt_succ_of_le hlast) hrange.1
  refine Lowercase.ofText_eq_self ?_
  rw [email_sample, String.toList_append, String.toList_append, List.all_append, List.all_append,
    hname _ (name_sample x), hdigits, hhost]
  rfl

theorem slotId_inj {x y : Nat} (hx : x < UInt64.size) (hy : y < UInt64.size)
    (h : (slotId x).bytes = (slotId y).bytes) : x = y := by
  have hfits : UInt64.size < Nat.pow 256 16 := by decide
  have hsucc : x + 1 = y + 1 := (Bytes.bigEndian_inj (by omega) (by omega)).1 h
  exact Nat.succ.inj hsucc

theorem keys_email (x : Nat) :
    (Indexer.single (TextIndex.single (fun p : Person => some p.email) true)).keys (sample x) =
      .ok [TextIndex.key true (sample x).email] := by
  have hkey : (TextIndex.single (fun p : Person => some p.email) true).ofObject (sample x) =
      .ok (some (TextIndex.key true (sample x).email)) :=
    TextIndex.ofObject_single.2 ⟨(sample x).email, rfl, email_sample_ne x, rfl⟩
  rw [Indexer.keys, hkey]
  rfl

/-- Sample people with one stored key are the same. -/
theorem eq_of_stores {x y : Nat} (hx : x < UInt64.size) (hy : y < UInt64.size) (hi : i ∈ indexes)
    {k : Key} (h : i.Stores (sample x) (slotId x).bytes k)
    (h' : i.Stores (sample y) (slotId y).bytes k) : x = y := by
  by_cases hcarry : i.carriesPrimary = true
  · have hlength := (slotId x).length_bytes.trans (slotId y).length_bytes.symm
    exact slotId_inj hx hy (h.primary_eq hcarry hlength h')
  · -- the identifier and the address
    have hkeys := (h.keys_eq hcarry).trans (h'.keys_eq hcarry).symm
    simp only [indexes, List.mem_cons, List.not_mem_nil, or_false] at hi
    rcases hi with rfl | rfl | rfl | rfl | rfl | rfl | rfl | rfl | rfl
    · exact slotId_inj hx hy (List.head_eq_of_cons_eq (Except.ok.inj hkeys))
    · rw [keys_email, keys_email] at hkeys
      have hkey := TextIndex.key_inj.1 (List.head_eq_of_cons_eq (Except.ok.inj hkeys))
      simp only [TextIndex.normal, if_true, ofText_email] at hkey
      exact email_inj hkey
    all_goals exact absurd rfl hcarry

/-- Sample people of different numbers have no place in common. -/
theorem places_sample {x y : Nat} (hx : x < UInt64.size) (hy : y < UInt64.size) (hne : x ≠ y) :
    ∀ place ∈ (schema [people, archive]).places people (sample x),
      place ∉ (schema [people, archive]).places people (sample y) := by
  rintro ⟨name, k⟩ hplace hplace'
  rcases Schema.exists_stores_of_mem_places hplace with ⟨ts, p, i, ht, hp, hi, hst⟩
  rcases Schema.exists_stores_of_mem_places hplace' with ⟨ts', p', i', ht', hp', hi', hst'⟩
  obtain rfl : table people = ts := Option.some.inj (table?_people.symm.trans ht)
  obtain rfl : table people = ts' := Option.some.inj (table?_people.symm.trans ht')
  obtain rfl : (slotId x).bytes = p := Except.ok.inj hp
  obtain rfl : (slotId y).bytes = p' := Except.ok.inj hp'
  have hkeys := Schema.nodup_keys nodup_paths table?_people
  obtain rfl : i = i' := by
    have hfind := (Catalog.find?_eq_some_iff hkeys).2 hi
    exact Option.some.inj (hfind.symm.trans ((Catalog.find?_eq_some_iff hkeys).2 hi'))
  exact hne (eq_of_stores hx hy (mem_indexes hi).1 hst hst')

end Person

open Person (people archive sample slotId)

/-! ## Runs that store sample people -/

/-- The run makes stores of people only, and stores sample people in them. -/
structure Sampled (actions : List (Action Person)) : Prop where
  creates : ∀ schema settings, .create schema settings ∈ actions →
    schema = Person.schema [people, archive]
  inserts : ∀ id table o, .write id (.insert table o) ∈ actions →
    table = people ∧ ∃ x < UInt64.size, o = sample x

namespace Sampled

variable {actions : List (Action Person)} {schema : Schema Person} {F : Forest Person}
  {history : History Person}

theorem nodup (h : Sampled actions) :
    ∀ schema settings, .create schema settings ∈ actions → schema.paths.Nodup := by
  intro schema settings hcreate
  rw [h.creates schema settings hcreate]
  exact Person.nodup_paths

theorem schema_eq (h : Sampled actions)
    (hshows : (Chronicle.performAll {} actions).Shows schema F history) :
    schema = Person.schema [people, archive] := by
  rcases (hshows.recorded h.nodup).1 with ⟨settings, hcreate⟩
  exact h.creates schema settings hcreate

theorem append {more : List (Action Person)} (h : Sampled actions) (h' : Sampled more) :
    Sampled (actions ++ more) where
  creates := fun schema settings hmem =>
    (List.mem_append.1 hmem).elim (h.creates schema settings) (h'.creates schema settings)
  inserts := fun id table o hmem =>
    (List.mem_append.1 hmem).elim (h.inserts id table o) (h'.inserts id table o)

/-- Most actions neither make a store nor store anybody. -/
theorem of_other {action : Action Person}
    (hcreate : ∀ schema settings, action ≠ .create schema settings)
    (hinsert : ∀ id table o, action ≠ .write id (.insert table o)) : Sampled [action] where
  creates := fun schema settings hmem =>
    absurd (List.mem_singleton.1 hmem).symm (hcreate schema settings)
  inserts := fun id table o hmem =>
    absurd (List.mem_singleton.1 hmem).symm (hinsert id table o)

theorem insert (id : Nat) {x : Nat} (hx : x < UInt64.size) :
    Sampled [.write id (.insert people (sample x))] where
  creates := by simp
  inserts := by
    intro id' table o hmem
    obtain ⟨-, rfl, rfl⟩ : id' = id ∧ table = people ∧ o = sample x := by simpa using hmem
    exact ⟨rfl, x, hx, rfl⟩

/-- At no time two people share a stored key. -/
theorem apart (h : Sampled actions) :
    Chronicle.Throughout actions fun schema F _ => F.Apart schema := by
  refine Chronicle.throughout_apart h.nodup
    fun schema settings hcreate table id o id' o' ho ho' hne => ?_
  rcases h.inserts id table o ho with ⟨rfl, x, hx, rfl⟩
  rcases h.inserts id' people o' ho' with ⟨_, y, hy, rfl⟩
  rw [h.creates schema settings hcreate]
  exact Person.places_sample hx hy fun hxy => hne (by rw [hxy])

/-- Everybody who is stored is a sample person. -/
theorem exists_sample (h : Sampled actions)
    (hshows : (Chronicle.performAll {} actions).Shows schema F history) {p : Key} {o : Person}
    (hp : F.value? people primaryName p = some o) : ∃ x, o = sample x := by
  have ht : schema.table? people = some (Person.table people) := by
    rw [h.schema_eq hshows]
    exact Person.table?_people
  rcases (hshows.leads h.nodup).exists_insert ht hp with ⟨d, hd, hwrite⟩
  rcases (hshows.recorded h.nodup).2 d hd with ⟨id, hmem⟩
  rw [hwrite] at hmem
  rcases (h.inserts id people o hmem).2 with ⟨x, _, heq⟩
  exact ⟨x, heq⟩

end Sampled

/-! ## What sample people leave behind -/

/-- The history stored sample people of these numbers, in this order, and did nothing else. -/
def History.Stored (h : History Person) (xs : List Nat) : Prop :=
  h.map Deed.write = (xs.map fun x => Write.insert people (sample x)).reverse

theorem History.Stored.cons {h : History Person} {xs : List Nat} (hs : History.Stored h xs)
    {x : Nat} {F F' : Forest Person} :
    History.Stored (⟨.insert people (sample x), F, F'⟩ :: h) (xs ++ [x]) := by
  rw [Stored, List.map_cons, hs, List.map_append, List.reverse_append]
  rfl

/-- The ledger has the sample people of these numbers, and nobody else. -/
def Ledger.Lists (L : Ledger Person) (xs : List Nat) : Prop :=
  ∀ table p o, L table p = some o ↔
    table = people ∧ ∃ x ∈ xs, p = (slotId x).bytes ∧ o = sample x

/-- Whoever is stored once more takes the own place only. -/
theorem Ledger.Lists.insert {L : Ledger Person} {xs : List Nat} (h : L.Lists xs)
    (hxs : ∀ y ∈ xs, y < UInt64.size) {x : Nat} (hx : x < UInt64.size) :
    (L.after (Person.schema [people, archive]) (.insert people (sample x))).Lists (xs ++ [x]) := by
  intro table p o
  rw [Ledger.after, Schema.primaryKey?_eq Person.table?_people (Person.primaryKey_table _ _)]
  simp only [Ledger.set, List.mem_append, List.mem_singleton]
  split
  · rename_i hplace
    rcases hplace with ⟨rfl, hplace⟩
    constructor
    · intro ho
      exact ⟨rfl, x, .inr rfl, hplace, (Option.some.inj ho).symm⟩
    · rintro ⟨_, y, hy | rfl, hp, rfl⟩
      · obtain rfl : x = y := Person.slotId_inj hx (hxs y hy) (hplace.symm.trans hp)
        rfl
      · rfl
  · rename_i hplace
    rw [h table p o]
    refine and_congr_right fun htable => ⟨?_, ?_⟩
    · rintro ⟨y, hy, hrest⟩
      exact ⟨y, .inl hy, hrest⟩
    · rintro ⟨y, hy | rfl, hp, ho⟩
      · exact ⟨y, hy, hp, ho⟩
      · exact absurd ⟨htable, hp⟩ hplace

/-- The order in which people were stored, and how often each was, cannot be told from the
ledger. -/
theorem History.Stored.lists {h : History Person} {xs : List Nat} (hs : History.Stored h xs)
    (hxs : ∀ x ∈ xs, x < UInt64.size) :
    (Ledger.of (Person.schema [people, archive]) h).Lists xs := by
  induction xs using List.reverseRecOn generalizing h with
  | nil =>
    obtain rfl : h = [] := List.map_eq_nil_iff.1 hs
    simp [Ledger.Lists, Ledger.of]
  | append_singleton xs x ih =>
    cases h with
    | nil => simp [Stored] at hs
    | cons d h =>
      simp only [Stored, List.map_cons, List.map_append, List.map_nil, List.reverse_append,
        List.reverse_singleton, List.singleton_append, List.cons.injEq] at hs
      have hbefore (y : Nat) (hy : y ∈ xs) : y < UInt64.size := hxs y (List.mem_append_left _ hy)
      rw [Ledger.of, hs.1]
      exact (ih hs.2 hbefore).insert hbefore (hxs x (by simp))

end SnapStore
