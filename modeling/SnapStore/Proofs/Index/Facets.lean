import SnapStore.Index.Compound
import SnapStore.Index.Flag
import SnapStore.Index.Identifier
import SnapStore.Proofs.Index.Encoding
import SnapStore.Proofs.Paths
import SnapStore.Proofs.Transaction.Plans

/-! # What an index reads of an object

An index reads a facet of an object, most often a field, or it joins the keys of several facets.
The key that it derives from an object matches the arguments of a query exactly if every facet
does. But a query looks for stored keys that only start with its key, and behind a derived key
there may stand a primary key. So an object can be found though not all its facets match.

Main statements: `Facet.matches_iff` (an argument has the key of a facet exactly if it gives its
value), `Facet.isPrefix_of_append_isPrefix` (the key of an argument does not end inside the key of
a facet) and `Facet.isPrefix_append_iff` (what the arguments of a compound find).
-/

namespace SnapStore

variable {α : Type}

/-! ## Keys of arguments -/

theorem map_eq_ok_iff {ε β γ : Type} {x : Except ε β} {f : β → γ} {c : γ} :
    x.map f = .ok c ↔ ∃ b, x = .ok b ∧ f b = c := by
  cases x <;> simp [Except.map]

theorem mapError_eq_ok_iff {ε ε' β : Type} {x : Except ε β} {f : ε → ε'} {b : β} :
    x.mapError f = .ok b ↔ x = .ok b := by
  cases x <;> simp [Except.mapError]

theorem ArgKeys.key_ofSingle {f : Arg → Except Misfit Key} {arg : Arg} {k : Key} :
    (ArgKeys.ofSingle f).key [arg] = .ok k ↔ f arg = .ok k :=
  mapError_eq_ok_iff

theorem ArgKeys.exists_arg {f : Arg → Except Misfit Key} {args : List Arg} {k : Key}
    (h : (ArgKeys.ofSingle f).key args = .ok k) : ∃ arg, args = [arg] := by
  rcases args with _ | ⟨arg, _ | ⟨_, _⟩⟩
  · cases h
  · exact ⟨arg, rfl⟩
  · cases h

namespace TextIndex

variable {field : α → Option String} {fold : Bool} {k : Key}

theorem key_args {arg : Arg} :
    (args fold).key [arg] = .ok k ↔ ∃ t, arg = .text t ∧ key fold t = k := by
  refine (ArgKeys.key_ofSingle (f := fun arg => (ofArg arg).map (key fold))).trans ?_
  rw [map_eq_ok_iff]
  cases arg <;> simp [ofArg]

theorem ofObject_single {o : α} :
    (single field fold).ofObject o = .ok (some k) ↔
      ∃ s, field o = some s ∧ s ≠ "" ∧ key fold s = k := by
  simp [single, and_assoc]

theorem key_inj {s t : String} : key fold s = key fold t ↔ normal fold s = normal fold t :=
  List.append_left_inj [0] |>.trans Key.ofText_inj

end TextIndex

namespace NumberIndex

variable {arg : Arg} {k : Key}

theorem key_signed {field : α → Option Int64} :
    (signed field).key [arg] = .ok k ↔ ∃ n, signedArg arg = .ok n ∧ signedKey n = k :=
  ArgKeys.key_ofSingle.trans map_eq_ok_iff

theorem key_unsigned {field : α → Option UInt64} :
    (unsigned field).key [arg] = .ok k ↔ ∃ n, unsignedArg arg = .ok n ∧ unsignedKey n = k :=
  ArgKeys.key_ofSingle.trans map_eq_ok_iff

theorem signedKey_inj {n m : Int64} : signedKey n = signedKey m ↔ n = m :=
  sorts_signedKey.key_inj trivial trivial

theorem unsignedKey_inj {n m : UInt64} : unsignedKey n = unsignedKey m ↔ n = m :=
  sorts_unsignedKey.key_inj trivial trivial

end NumberIndex

namespace FlagIndex

theorem key_args {arg : Arg} {k : Key} :
    args.key [arg] = .ok k ↔ ∃ b, arg = .bool b ∧ key b = k := by
  refine ArgKeys.key_ofSingle.trans ?_
  cases arg <;> simp

theorem key_inj {b c : Bool} : key b = key c ↔ b = c := by
  cases b <;> cases c <;> simp [key]

end FlagIndex

namespace Hex

theorem length_bytes? {digits bytes : List UInt8} (h : bytes? digits = some bytes) :
    digits.length = 2 * bytes.length := by
  fun_induction bytes? digits generalizing bytes with
  | case1 =>
    obtain rfl := Option.some.inj h
    rfl
  | case2 => cases h
  | case3 high low rest l r tail _ _ _ ih =>
    obtain rfl := Option.some.inj h
    have hlength := ih ‹_›
    simp only [List.length_cons]
    omega
  | case4 => cases h

end Hex

namespace IdentifierIndex

/-- The key of an argument is at least as long as an identifier. Text with less than four hyphens
gives more bytes. -/
theorem le_length_keyOfArg {arg : Arg} {k : Key} (h : keyOfArg arg = .ok k) : 16 ≤ k.length := by
  cases arg with
  | uuid u =>
    obtain rfl : u.bytes = k := by simpa [keyOfArg] using h
    exact Nat.le_of_eq u.length_bytes.symm
  | text s =>
    simp only [keyOfArg, ofText] at h
    split at h
    · cases h
    rename_i hlength
    split at h
    · cases h
    split at h
    · cases h
    split at h
    · cases h
    split at h
    · obtain rfl := Except.ok.inj h
      have hdigits := Hex.length_bytes? ‹_›
      simp only [Bool.true_and, bne_iff_ne, ne_eq, Decidable.not_not] at hlength
      omega
    · cases h
  | bytes bs =>
    simp only [keyOfArg] at h
    split at h
    · obtain rfl := Except.ok.inj h
      omega
    · cases h
  | int => cases h
  | uint => cases h
  | bool => cases h

end IdentifierIndex

/-! ## Facets -/

/-- What an index reads of an object: a field, whether a field is set, or a condition. -/
inductive Facet (α : Type) where
  | text (field : α → Option String) (fold : Bool)
  | signed (field : α → Option Int64)
  | unsigned (field : α → Option UInt64)
  | flag (field : α → Option Bool)
  | isSet (set : α → Bool)
  | condition (holds : α → Except String Bool)
  | identifier (field : α → Option Uuid)

namespace Facet

/-- The indexer over a facet. -/
def indexer : Facet α → SingleIndexer α
  | text field fold => TextIndex.single field fold
  | signed field => NumberIndex.signed field
  | unsigned field => NumberIndex.unsigned field
  | flag field => FlagIndex.field field
  | isSet set => FlagIndex.isSet set
  | condition holds => FlagIndex.condition holds
  | identifier field => IdentifierIndex.field field

/-- The object has a value there, and the argument gives the same value. -/
def Matches (o : α) : Facet α → Arg → Prop
  | text field fold, arg => ∃ s t, field o = some s ∧ s ≠ "" ∧ arg = .text t ∧
      TextIndex.normal fold s = TextIndex.normal fold t
  | signed field, arg => ∃ n, field o = some n ∧ NumberIndex.signedArg arg = .ok n
  | unsigned field, arg => ∃ n, field o = some n ∧ NumberIndex.unsignedArg arg = .ok n
  | flag field, arg => ∃ b, field o = some b ∧ arg = .bool b
  | isSet set, arg => arg = .bool (set o)
  | condition holds, arg => ∃ b, holds o = .ok b ∧ arg = .bool b
  | identifier field, arg => ∃ u, field o = some u ∧ IdentifierIndex.keyOfArg arg = .ok u.bytes

/-- The text that stands there, if one does, has no zero characters. -/
def Plain (o : α) : Facet α → Prop
  | text field _ => ∀ s, field o = some s → '\u0000' ∉ s.toList
  | _ => True

/-- The key of the value that the facet has in an object, if there is one. -/
def KeyIn (facet : Facet α) (o : α) (e : Key) : Prop :=
  facet.indexer.ofObject o = .ok (some e)

/-- The key that the facet gives an argument. -/
def KeyOf (facet : Facet α) (arg : Arg) (k : Key) : Prop :=
  facet.indexer.key [arg] = .ok k

/-- The argument gives one value and no more: a text without zero characters, or an identifier of
the right length. -/
def Proper : Facet α → Arg → Prop
  | text _ _, arg => ∀ s, arg = .text s → '\u0000' ∉ s.toList
  | identifier _, arg => ∀ k, IdentifierIndex.keyOfArg arg = .ok k → k.length = 16
  | _, _ => True

variable {facet : Facet α} {o : α} {arg : Arg} {e k : Key}

section keys

variable {field : α → Option String} {fold : Bool} {n : α → Option Int64} {m : α → Option UInt64}
  {b : α → Option Bool} {set : α → Bool} {holds : α → Except String Bool} {u : α → Option Uuid}

@[simp] theorem keyIn_text : (text field fold).KeyIn o e ↔
    ∃ s, field o = some s ∧ s ≠ "" ∧ TextIndex.key fold s = e := by
  simp [KeyIn, indexer, TextIndex.single, and_assoc]

@[simp] theorem keyIn_signed : (signed n).KeyIn o e ↔
    ∃ x, n o = some x ∧ NumberIndex.signedKey x = e := by
  simp [KeyIn, indexer, NumberIndex.signed]

@[simp] theorem keyIn_unsigned : (unsigned m).KeyIn o e ↔
    ∃ x, m o = some x ∧ NumberIndex.unsignedKey x = e := by
  simp [KeyIn, indexer, NumberIndex.unsigned]

@[simp] theorem keyIn_flag : (flag b).KeyIn o e ↔ ∃ x, b o = some x ∧ FlagIndex.key x = e := by
  simp [KeyIn, indexer, FlagIndex.field]

@[simp] theorem keyIn_isSet : (isSet set).KeyIn o e ↔ FlagIndex.key (set o) = e := by
  simp [KeyIn, indexer, FlagIndex.isSet]

@[simp] theorem keyIn_condition : (condition holds).KeyIn o e ↔
    ∃ x, holds o = .ok x ∧ FlagIndex.key x = e := by
  simp only [KeyIn, indexer, FlagIndex.condition]
  cases holds o <;> simp [Except.map, Except.mapError]

@[simp] theorem keyIn_identifier : (identifier u).KeyIn o e ↔ ∃ x, u o = some x ∧ x.bytes = e := by
  simp [KeyIn, indexer, IdentifierIndex.field]

@[simp] theorem keyOf_text : (text field fold).KeyOf arg k ↔
    ∃ t, arg = .text t ∧ TextIndex.key fold t = k :=
  TextIndex.key_args

@[simp] theorem keyOf_signed : (signed n).KeyOf arg k ↔
    ∃ x, NumberIndex.signedArg arg = .ok x ∧ NumberIndex.signedKey x = k :=
  NumberIndex.key_signed

@[simp] theorem keyOf_unsigned : (unsigned m).KeyOf arg k ↔
    ∃ x, NumberIndex.unsignedArg arg = .ok x ∧ NumberIndex.unsignedKey x = k :=
  NumberIndex.key_unsigned

@[simp] theorem keyOf_flag : (flag b).KeyOf arg k ↔ ∃ x, arg = .bool x ∧ FlagIndex.key x = k :=
  FlagIndex.key_args

@[simp] theorem keyOf_isSet : (isSet set).KeyOf arg k ↔ ∃ x, arg = .bool x ∧ FlagIndex.key x = k :=
  FlagIndex.key_args

@[simp] theorem keyOf_condition : (condition holds).KeyOf arg k ↔
    ∃ x, arg = .bool x ∧ FlagIndex.key x = k :=
  FlagIndex.key_args

@[simp] theorem keyOf_identifier : (identifier u).KeyOf arg k ↔
    IdentifierIndex.keyOfArg arg = .ok k :=
  ArgKeys.key_ofSingle

end keys

/-- Where different values have different keys, values are the same exactly if their keys are. -/
theorem exists_key_iff {β : Type} {key : β → Key} (hinj : ∀ {x y}, key x = key y ↔ x = y)
    {inObject ofArg : β → Prop} : (∃ x, inObject x ∧ ofArg x) ↔
      ∃ k, (∃ x, ofArg x ∧ key x = k) ∧ ∃ x, inObject x ∧ key x = k := by
  constructor
  · rintro ⟨x, hx, harg⟩
    exact ⟨key x, ⟨x, harg, rfl⟩, x, hx, rfl⟩
  · rintro ⟨_, ⟨x, harg, rfl⟩, y, hy, hsame⟩
    exact ⟨y, hy, hinj.1 hsame ▸ harg⟩

/-- An argument has the key of a facet exactly if it gives its value. -/
theorem matches_iff : facet.Matches o arg ↔ ∃ k, facet.KeyOf arg k ∧ facet.KeyIn o k := by
  cases facet with
  | text field fold =>
    simp only [Matches, keyOf_text, keyIn_text]
    constructor
    · rintro ⟨s, t, hs, hne, ht, hsame⟩
      exact ⟨_, ⟨t, ht, rfl⟩, s, hs, hne, TextIndex.key_inj.2 hsame⟩
    · rintro ⟨_, ⟨t, ht, rfl⟩, s, hs, hne, hsame⟩
      exact ⟨s, t, hs, hne, ht, TextIndex.key_inj.1 hsame⟩
  | signed field =>
    simp only [Matches, keyOf_signed, keyIn_signed]
    exact exists_key_iff NumberIndex.signedKey_inj
  | unsigned field =>
    simp only [Matches, keyOf_unsigned, keyIn_unsigned]
    exact exists_key_iff NumberIndex.unsignedKey_inj
  | flag field =>
    simp only [Matches, keyOf_flag, keyIn_flag]
    exact exists_key_iff FlagIndex.key_inj
  | isSet set =>
    simp only [Matches, keyOf_isSet, keyIn_isSet]
    constructor
    · intro harg
      exact ⟨_, ⟨set o, harg, rfl⟩, rfl⟩
    · rintro ⟨_, ⟨b, harg, rfl⟩, hsame⟩
      exact FlagIndex.key_inj.1 hsame ▸ harg
  | condition holds =>
    simp only [Matches, keyOf_condition, keyIn_condition]
    exact exists_key_iff FlagIndex.key_inj
  | identifier field =>
    simp only [Matches, keyOf_identifier, keyIn_identifier]
    constructor
    · rintro ⟨u, hu, harg⟩
      exact ⟨_, harg, u, hu, rfl⟩
    · rintro ⟨_, harg, u, hu, rfl⟩
      exact ⟨u, hu, harg⟩

/-! ### Widths -/

/-- All values have keys of one width, and arguments give at least as many bytes. -/
structure HasWidth (facet : Facet α) (n : Nat) : Prop where
  pos : 0 < n
  keyIn : ∀ {o e}, facet.KeyIn o e → e.length = n
  keyOf : ∀ {arg k}, facet.KeyOf arg k → n ≤ k.length
  proper : ∀ {arg k}, facet.KeyOf arg k → facet.Proper arg → k.length = n

theorem hasWidth_of_flags (hin : ∀ {o e}, facet.KeyIn o e → ∃ b, FlagIndex.key b = e)
    (hof : ∀ {arg k}, facet.KeyOf arg k → ∃ b, FlagIndex.key b = k) : facet.HasWidth 1 := by
  constructor
  · exact Nat.one_pos
  · intro o e he
    rcases hin he with ⟨b, rfl⟩
    rfl
  · intro arg k hk
    rcases hof hk with ⟨b, rfl⟩
    exact Nat.le_refl 1
  · intro arg k hk _
    rcases hof hk with ⟨b, rfl⟩
    rfl

/-- Only the keys of texts differ in width. -/
theorem text_or_hasWidth (facet : Facet α) :
    (∃ field fold, facet = text field fold) ∨ ∃ n, facet.HasWidth n := by
  cases facet with
  | text field fold => exact .inl ⟨field, fold, rfl⟩
  | signed field =>
    refine .inr ⟨8, by omega, fun he => ?_, fun hk => ?_, fun hk _ => ?_⟩
    · rcases keyIn_signed.1 he with ⟨n, _, rfl⟩
      exact NumberIndex.length_signedKey n
    · rcases keyOf_signed.1 hk with ⟨n, _, rfl⟩
      exact Nat.le_of_eq (NumberIndex.length_signedKey n).symm
    · rcases keyOf_signed.1 hk with ⟨n, _, rfl⟩
      exact NumberIndex.length_signedKey n
  | unsigned field =>
    refine .inr ⟨8, by omega, fun he => ?_, fun hk => ?_, fun hk _ => ?_⟩
    · rcases keyIn_unsigned.1 he with ⟨n, _, rfl⟩
      exact NumberIndex.length_unsignedKey n
    · rcases keyOf_unsigned.1 hk with ⟨n, _, rfl⟩
      exact Nat.le_of_eq (NumberIndex.length_unsignedKey n).symm
    · rcases keyOf_unsigned.1 hk with ⟨n, _, rfl⟩
      exact NumberIndex.length_unsignedKey n
  | flag field =>
    refine .inr ⟨1, hasWidth_of_flags (fun he => ?_) (fun hk => ?_)⟩
    · rcases keyIn_flag.1 he with ⟨b, _, h⟩
      exact ⟨b, h⟩
    · rcases keyOf_flag.1 hk with ⟨b, _, h⟩
      exact ⟨b, h⟩
  | isSet set =>
    refine .inr ⟨1, hasWidth_of_flags (fun he => ⟨_, keyIn_isSet.1 he⟩) (fun hk => ?_)⟩
    rcases keyOf_isSet.1 hk with ⟨b, _, h⟩
    exact ⟨b, h⟩
  | condition holds =>
    refine .inr ⟨1, hasWidth_of_flags (fun he => ?_) (fun hk => ?_)⟩
    · rcases keyIn_condition.1 he with ⟨b, _, h⟩
      exact ⟨b, h⟩
    · rcases keyOf_condition.1 hk with ⟨b, _, h⟩
      exact ⟨b, h⟩
  | identifier field =>
    refine .inr ⟨16, by omega, fun he => ?_, fun hk => ?_, fun hk hproper => ?_⟩
    · rcases keyIn_identifier.1 he with ⟨u, _, rfl⟩
      exact u.length_bytes
    · exact IdentifierIndex.le_length_keyOfArg (keyOf_identifier.1 hk)
    · exact hproper _ (keyOf_identifier.1 hk)

/-- No facet has an empty key. -/
theorem KeyIn.ne_nil (he : facet.KeyIn o e) : e ≠ [] := by
  rintro rfl
  rcases facet.text_or_hasWidth with ⟨field, fold, rfl⟩ | ⟨n, hwidth⟩
  · rcases keyIn_text.1 he with ⟨s, _, _, h⟩
    exact List.append_ne_nil_of_right_ne_nil _ (List.cons_ne_nil 0 []) h
  · exact absurd (hwidth.keyIn he) (Nat.ne_of_lt hwidth.pos)

/-- Bytes that close with a zero byte do not end inside others that have no zero byte but the last
one. -/
theorem isPrefix_of_closing {stem : Key} (h : 0 ∉ stem) {y : Key} (rest : Key)
    (hpre : y ++ [0] <+: stem ++ 0 :: rest) : stem ++ [0] <+: y ++ [0] := by
  have hwhole : stem ++ [0] <+: stem ++ 0 :: rest :=
    (List.prefix_append_right_inj stem).2 ⟨rest, rfl⟩
  rcases List.prefix_or_prefix_of_prefix hpre hwhole with hshort | hlong
  · rcases List.prefix_concat_iff.1 hshort with heq | hin
    · exact heq ▸ List.prefix_rfl
    · exact absurd (hin.subset (List.mem_append_right y (List.mem_singleton_self 0))) h
  · exact hlong

/-- The key of an argument, and whatever stands before it, does not end inside the key of a facet
without zero characters. -/
theorem isPrefix_of_append_isPrefix (hk : facet.KeyOf arg k) (he : facet.KeyIn o e)
    (hplain : facet.Plain o) {y rest : Key} (h : y ++ k <+: e ++ rest) : e <+: y ++ k := by
  rcases facet.text_or_hasWidth with ⟨field, fold, rfl⟩ | ⟨n, hwidth⟩
  · rcases keyOf_text.1 hk with ⟨t, _, rfl⟩
    rcases keyIn_text.1 he with ⟨s, hs, _, rfl⟩
    have hzero := TextIndex.zero_not_mem_stem fold (hplain s hs)
    rw [TextIndex.key, TextIndex.key, ← List.append_assoc]
    refine isPrefix_of_closing hzero rest ?_
    simpa [TextIndex.key] using h
  · have hin := hwidth.keyIn he
    have hof := hwidth.keyOf hk
    refine List.prefix_of_prefix_length_le (List.prefix_append e rest) h ?_
    rw [List.length_append]
    omega

/-- The key of a proper argument does not go on behind the key of a facet. -/
theorem eq_nil_of_proper {x : Key} (hk : facet.KeyOf arg (e ++ x)) (he : facet.KeyIn o e)
    (hproper : facet.Proper arg) : x = [] := by
  rcases facet.text_or_hasWidth with ⟨field, fold, rfl⟩ | ⟨n, hwidth⟩
  · rcases keyOf_text.1 hk with ⟨t, rfl, hkey⟩
    rcases keyIn_text.1 he with ⟨s, _, _, rfl⟩
    have hzero := TextIndex.zero_not_mem_stem fold (hproper t rfl)
    have hwhole : TextIndex.key fold s <+: TextIndex.stem fold t ++ [0] := ⟨x, hkey.symm⟩
    rcases List.prefix_concat_iff.1 hwhole with heq | hin
    · exact List.append_right_eq_self.1 (hkey.symm.trans heq.symm)
    · have hclosing : 0 ∈ TextIndex.key fold s :=
        List.mem_append_right _ (List.mem_singleton_self 0)
      exact absurd (hin.subset hclosing) hzero
  · have hin := hwidth.keyIn he
    have hof := hwidth.proper hk hproper
    rw [List.length_append] at hof
    exact List.eq_nil_of_length_eq_zero (by omega)

/-- A facet takes one argument. -/
theorem exists_arg {args : List Arg} (h : facet.indexer.key args = .ok k) :
    ∃ arg, args = [arg] := by
  cases facet <;> exact ArgKeys.exists_arg h

/-! ## Compounds -/

/-- The object has no value there. -/
def Missing (facet : Facet α) (o : α) : Prop :=
  facet.indexer.ofObject o = .ok none

/-- The joined keys of one argument for each facet. -/
def KeysOf (facets : List (Facet α)) (args : List Arg) (k : Key) : Prop :=
  CompoundIndex.joinArgs ((facets.map indexer).map (·.toArgKeys)) args = .ok k

/-- The joined keys of the values that the facets have in an object. -/
def KeysIn (allowMissing : Bool) (facets : List (Facet α)) (o : α) (d : Key) : Prop :=
  CompoundIndex.joined allowMissing o (facets.map indexer) = .ok (some d)

variable {facets : List (Facet α)} {args : List Arg} {allowMissing : Bool} {d : Key}

theorem keysOf_cons : KeysOf (facet :: facets) (arg :: args) k ↔
    ∃ k₁ k₂, facet.KeyOf arg k₁ ∧ KeysOf facets args k₂ ∧ k₁ ++ k₂ = k := by
  simp only [KeysOf, KeyOf, List.map_cons, CompoundIndex.joinArgs, bind_eq_ok_iff]
  constructor
  · rintro ⟨k₁, h₁, k₂, h₂, h⟩
    exact ⟨k₁, k₂, h₁, h₂, Except.ok.inj h⟩
  · rintro ⟨k₁, k₂, h₁, h₂, rfl⟩
    exact ⟨k₁, h₁, k₂, h₂, rfl⟩

theorem keysIn_cons : KeysIn allowMissing (facet :: facets) o d ↔
    (facet.Missing o ∧ allowMissing = true ∧ d = []) ∨
      ∃ e d', facet.KeyIn o e ∧ KeysIn allowMissing facets o d' ∧ e ++ d' = d := by
  simp only [KeysIn, KeyIn, Missing, List.map_cons, CompoundIndex.joined, bind_eq_ok_iff]
  constructor
  · rintro ⟨found, hfound, h⟩
    cases found with
    | none =>
      cases allowMissing with
      | false => cases h
      | true => exact .inl ⟨hfound, rfl, (Option.some.inj (Except.ok.inj h)).symm⟩
    | some e =>
      rcases bind_eq_ok_iff.1 h with ⟨rest, hrest, h⟩
      rcases Option.map_eq_some_iff.1 (Except.ok.inj h) with ⟨d', rfl, rfl⟩
      exact .inr ⟨e, d', hfound, hrest, rfl⟩
  · rintro (⟨hmissing, rfl, rfl⟩ | ⟨e, d', hfound, hrest, rfl⟩)
    · exact ⟨none, hmissing, rfl⟩
    · refine ⟨some e, hfound, ?_⟩
      simp only [hrest]
      rfl

theorem keysIn_nil : KeysIn allowMissing [] o d ↔ d = [] := by
  simp [KeysIn, CompoundIndex.joined, eq_comm]

/-- The keys of the arguments, and whatever stands before them, do not end inside the keys that the
facets have in an object. -/
theorem isPrefix_of_keysOf (hk : KeysOf facets args k) (hd : KeysIn allowMissing facets o d)
    (hlength : args.length = facets.length) (hplain : ∀ facet ∈ facets, facet.Plain o) {y : Key}
    (h : y ++ k <+: d) : d <+: y ++ k := by
  induction facets generalizing args k d y with
  | nil =>
    rw [keysIn_nil.1 hd]
    exact List.nil_prefix
  | cons facet facets ih =>
    rcases args with _ | ⟨arg, args⟩
    · cases hlength
    rcases keysOf_cons.1 hk with ⟨k₁, k₂, hk₁, hk₂, rfl⟩
    rcases keysIn_cons.1 hd with ⟨_, _, rfl⟩ | ⟨e, d', he, hd', rfl⟩
    · exact List.nil_prefix
    -- what the argument gives beyond the key of the value stands before the other keys
    have hfront : y ++ k₁ <+: e ++ d' := by
      refine List.IsPrefix.trans ?_ h
      rw [← List.append_assoc]
      exact List.prefix_append _ _
    rcases isPrefix_of_append_isPrefix hk₁ he (hplain facet List.mem_cons_self) hfront with
      ⟨y', hy'⟩
    rw [← List.append_assoc, ← hy', List.append_assoc, List.prefix_append_right_inj] at h ⊢
    exact ih hk₂ hd' (Nat.succ.inj hlength)
      (fun facet hfacet => hplain facet (List.mem_cons_of_mem _ hfacet)) h

/-- An object is found under arguments of a compound that it does not match. After facets that
match there is one without a value, and the arguments from there on begin the primary key; or the
argument has a longer key than the value, and with the arguments behind it goes on as the other
values and the primary key do. -/
inductive Strays (o : α) (primary : Key) : List (Facet α) → List Arg → Prop where
  | cut {facet : Facet α} {facets : List (Facet α)} {arg : Arg} {args : List Arg} {k : Key}
      (hmissing : facet.Missing o) (hk : KeysOf (facet :: facets) (arg :: args) k)
      (h : k <+: primary) : Strays o primary (facet :: facets) (arg :: args)
  | spill {facet : Facet α} {facets : List (Facet α)} {arg : Arg} {args : List Arg}
      {e x k d : Key} (he : facet.KeyIn o e) (hx : x ≠ []) (hex : facet.KeyOf arg (e ++ x))
      (hk : KeysOf facets args k) (hd : KeysIn true facets o d) (h : x ++ k <+: d ++ primary) :
      Strays o primary (facet :: facets) (arg :: args)
  | later {facet : Facet α} {facets : List (Facet α)} {arg : Arg} {args : List Arg}
      (hmatch : facet.Matches o arg) (h : Strays o primary facets args) :
      Strays o primary (facet :: facets) (arg :: args)

/-- The arguments of a compound that allows missing parts find the objects that match all of them,
and those that stray. -/
theorem isPrefix_append_iff (hk : KeysOf facets args k) (hd : KeysIn true facets o d)
    (hlength : args.length = facets.length) (hplain : ∀ facet ∈ facets, facet.Plain o)
    (primary : Key) : k <+: d ++ primary ↔
      List.Forall₂ (Matches o) facets args ∨ Strays o primary facets args := by
  induction facets generalizing args k d with
  | nil =>
    obtain rfl := List.length_eq_zero_iff.1 hlength
    obtain rfl : [] = k := Except.ok.inj hk
    simp
  | cons facet facets ih =>
    rcases args with _ | ⟨arg, args⟩
    · cases hlength
    rcases keysOf_cons.1 hk with ⟨k₁, k₂, hk₁, hk₂, rfl⟩
    rcases keysIn_cons.1 hd with ⟨hmissing, _, rfl⟩ | ⟨e, d', he, hd', rfl⟩
    · -- nothing matches a facet without a value
      have hno : ¬ facet.Matches o arg := by
        intro hmatch
        rcases matches_iff.1 hmatch with ⟨e, _, he⟩
        cases hmissing.symm.trans he
      rw [List.nil_append]
      constructor
      · exact fun h => .inr (.cut hmissing hk h)
      · rintro (hall | hstrays)
        · exact absurd (List.forall₂_cons.1 hall).1 hno
        · cases hstrays with
          | cut _ hk' h => exact Except.ok.inj (hk'.symm.trans hk) ▸ h
          | spill he => cases hmissing.symm.trans he
          | later hmatch => exact absurd hmatch hno
    · have ih' := ih hk₂ hd' (Nat.succ.inj hlength)
        fun facet hfacet => hplain facet (List.mem_cons_of_mem _ hfacet)
      have hsame : facet.Matches o arg ↔ k₁ = e := by
        rw [matches_iff]
        constructor
        · rintro ⟨k, hk, hk'⟩
          exact (Except.ok.inj (hk₁.symm.trans hk)).trans
            (Option.some.inj (Except.ok.inj (hk'.symm.trans he)))
        · rintro rfl
          exact ⟨k₁, hk₁, he⟩
      rw [List.forall₂_cons, hsame, List.append_assoc]
      constructor
      · intro h
        have hfront : [] ++ k₁ <+: e ++ (d' ++ primary) := (List.prefix_append k₁ k₂).trans h
        rcases isPrefix_of_append_isPrefix hk₁ he (hplain facet List.mem_cons_self) hfront with
          ⟨x, rfl⟩
        have hrest : x ++ k₂ <+: d' ++ primary := by
          rwa [List.append_assoc, List.prefix_append_right_inj] at h
        by_cases hx : x = []
        · subst hx
          have hmatch : e ++ [] = e := List.append_nil e
          rcases ih'.1 hrest with hall | hstrays
          · exact .inl ⟨hmatch, hall⟩
          · exact .inr (.later (hsame.2 hmatch) hstrays)
        · exact .inr (.spill he hx hk₁ hk₂ hd' hrest)
      · rintro (⟨rfl, hall⟩ | hstrays)
        · exact (List.prefix_append_right_inj k₁).2 (ih'.2 (.inl hall))
        · cases hstrays with
          | cut hmissing => cases hmissing.symm.trans he
          | spill he' _ hex hk' hd'' h =>
            obtain rfl := Option.some.inj (Except.ok.inj (he.symm.trans he'))
            obtain rfl := Except.ok.inj (hk₁.symm.trans hex)
            obtain rfl := Except.ok.inj (hk₂.symm.trans hk')
            obtain rfl := Option.some.inj (Except.ok.inj (hd'.symm.trans hd''))
            rwa [List.append_assoc, List.prefix_append_right_inj]
          | later hmatch h =>
            obtain rfl := hsame.1 hmatch
            exact (List.prefix_append_right_inj k₁).2 (ih'.2 (.inr h))

/-- With proper arguments only an object that lacks a value strays. -/
theorem Strays.exists_missing {primary : Key} (h : Strays o primary facets args)
    (hproper : List.Forall₂ Proper facets args) : ∃ facet ∈ facets, facet.Missing o := by
  induction h with
  | cut hmissing => exact ⟨_, List.mem_cons_self, hmissing⟩
  | spill he hx hex =>
    exact absurd (eq_nil_of_proper hex he (List.forall₂_cons.1 hproper).1) hx
  | later _ _ ih =>
    rcases ih (List.forall₂_cons.1 hproper).2 with ⟨facet, hfacet, hmissing⟩
    exact ⟨facet, List.mem_cons_of_mem _ hfacet, hmissing⟩

end Facet

/-! ## Indexes -/

namespace IndexSchema

/-- The index is over one facet, or over a compound of facets. -/
inductive IsOver (i : IndexSchema α) : List (Facet α) → Prop where
  | single {facet : Facet α} (h : i.indexer = .single facet.indexer) : i.IsOver [facet]
  | compound {facets : List (Facet α)} {allowMissing : Bool}
      (h : i.indexer = .single (CompoundIndex.single (facets.map Facet.indexer) allowMissing)) :
      i.IsOver facets

variable {i : IndexSchema α} {o : α} {d k : Key} {args : List Arg} {facets : List (Facet α)}

theorem derives_single {m : SingleIndexer α} (hi : i.indexer = .single m) :
    i.Derives o d ↔ m.ofObject o = .ok (some d) := by
  simp only [Derives, hi, Indexer.keys, map_eq_ok_iff]
  constructor
  · rintro ⟨_, ⟨found, hfound, rfl⟩, hmem⟩
    rw [hfound, Option.mem_toList.1 hmem]
  · intro hfound
    exact ⟨[d], ⟨some d, hfound, rfl⟩, List.mem_singleton_self d⟩

theorem derives_compound {m : List (SingleIndexer α)} {allowMissing : Bool}
    (hi : i.indexer = .single (CompoundIndex.single m allowMissing)) :
    i.Derives o d ↔ CompoundIndex.joined allowMissing o m = .ok (some d) ∧ d ≠ [] := by
  rw [derives_single hi]
  simp only [CompoundIndex.single, map_eq_ok_iff]
  constructor
  · rintro ⟨found, hfound, hfilter⟩
    rcases Option.filter_eq_some_iff.1 hfilter with ⟨rfl, hne⟩
    exact ⟨hfound, by simpa using hne⟩
  · rintro ⟨hfound, hne⟩
    exact ⟨some d, hfound, Option.filter_eq_some_iff.2 ⟨rfl, by simpa using hne⟩⟩

namespace IsOver

/-- A derived key joins the keys of the facets, and is not empty. -/
theorem exists_keysIn (h : i.IsOver facets) (hd : i.Derives o d) :
    (∃ allowMissing, Facet.KeysIn allowMissing facets o d) ∧ d ≠ [] := by
  cases h with
  | @single facet hi =>
    have he : facet.KeyIn o d := (derives_single hi).1 hd
    have hjoined : Facet.KeysIn false [facet] o d :=
      Facet.keysIn_cons.2 (.inr ⟨d, [], he, Facet.keysIn_nil.2 rfl, List.append_nil d⟩)
    exact ⟨⟨false, hjoined⟩, he.ne_nil⟩
  | @compound _ allowMissing hi =>
    rcases (derives_compound hi).1 hd with ⟨hjoined, hne⟩
    exact ⟨⟨allowMissing, hjoined⟩, hne⟩

/-- The key of arguments joins the keys of one argument for each facet. -/
theorem keysOf (h : i.IsOver facets) (hk : i.indexer.args.key args = .ok k) :
    args.length = facets.length ∧ Facet.KeysOf facets args k := by
  cases h with
  | @single facet hi =>
    rw [hi] at hk
    obtain ⟨arg, rfl⟩ := Facet.exists_arg hk
    exact ⟨rfl, Facet.keysOf_cons.2 ⟨k, [], hk, rfl, List.append_nil k⟩⟩
  | compound hi =>
    simp only [hi, Indexer.args, CompoundIndex.single, CompoundIndex.args] at hk
    split at hk
    · rename_i hlength
      exact ⟨by simpa using hlength, hk⟩
    · cases hk

/-- The key of arguments does not end inside a key that the index derives from an object without
zero characters. -/
theorem eq_of_isPrefix (h : i.IsOver facets) (hk : i.indexer.args.key args = .ok k)
    (hd : i.Derives o d) (hplain : ∀ facet ∈ facets, facet.Plain o) (hpre : k <+: d) : k = d := by
  rcases h.keysOf hk with ⟨hlength, hkeys⟩
  rcases h.exists_keysIn hd with ⟨⟨_, hjoined⟩, _⟩
  have hback : d <+: [] ++ k := Facet.isPrefix_of_keysOf hkeys hjoined hlength hplain hpre
  exact hpre.eq_of_length_le hback.length_le

/-- Where the primary index is over facets, no object has an empty primary key. -/
theorem primaryKey_ne_nil (h : i.IsOver facets) (table : String) {t : TableSchema α}
    (hid : t.primary? = some i) : t.primaryKey table o ≠ .ok [] := by
  intro hp
  have hs : i.indexer.isSingle = true := by
    cases h with
    | single hi => rw [hi]; rfl
    | compound hi => rw [hi]; rfl
  have hkeys := (TableSchema.primaryKey_eq_ok_iff hid hs).1 hp
  exact (h.exists_keysIn ⟨[[]], hkeys, List.mem_singleton_self []⟩).2 rfl

end IsOver

end IndexSchema

end SnapStore
