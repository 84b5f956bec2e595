import SnapStore.Proofs.Index.Identifiers
import SnapStore.Sample.Ship

/-! # Objects and arguments have the same keys

An indexer derives keys twice: from an object, to store it, and from the arguments of a query, to
look for it. Both have to agree, or objects cannot be found. They do for every facet, and so for
every compound of facets: whoever knows the values of an object knows its key, and the first of them
give a stem of the key.

Main statements: `Facet.Has.exists_key` and `Facet.Has.exists_stem` (one facet), `Facet.exists_keys`
and `Facet.exists_joinStem` (facets one after another) and `Indexer.object_agrees`.
-/

namespace SnapStore

variable {α : Type}

/-- The number that an argument holds, signed or not. -/
def Arg.number? : Arg → Option Int
  | int n => some n.toInt
  | uint n => some n.toNat
  | _ => none

namespace NumberIndex

theorem signedArg_of_number {arg : Arg} {n : Int64} (h : arg.number? = some n.toInt) :
    signedArg arg = .ok n := by
  cases arg with
  | int m => exact congrArg _ (Int64.toInt_inj.1 (Option.some.inj h))
  | uint m =>
    have hm : (m.toNat : Int) = n.toInt := Option.some.inj h
    have hlt := n.toInt_lt
    have hsmall : m.toNat < offset := by
      have hoffset : offset = 9223372036854775808 := rfl
      omega
    have hvalue : Int64.ofNat m.toNat = n := by
      rw [← Int64.toInt_inj, Int64.toInt_ofNat_of_lt hsmall, hm]
    rw [signedArg, if_pos hsmall, hvalue]
  | _ => cases h

theorem unsignedArg_of_number {arg : Arg} {n : UInt64} (h : arg.number? = some (n.toNat : Int)) :
    unsignedArg arg = .ok n := by
  cases arg with
  | uint m =>
    have hm : (m.toNat : Int) = n.toNat := Option.some.inj h
    exact congrArg _ (UInt64.toNat_inj.1 (by omega))
  | int m =>
    have hm : m.toInt = n.toNat := Option.some.inj h
    have hpos : 0 ≤ m.toInt := by omega
    have hvalue : UInt64.ofNat m.toInt.toNat = n := by
      rw [hm, Int.toNat_natCast]
      exact UInt64.ofNat_toNat
    rw [unsignedArg, if_pos hpos, hvalue]
  | _ => cases h

end NumberIndex

/-- An argument that others follow gives its whole key to a stem of a compound. -/
theorem CompoundIndex.joinStem_cons {p : ArgKeys} {ps : List ArgKeys} {arg : Arg} {args : List Arg}
    {k st : Key} {i : Nat} (hne : args ≠ []) (hk : p.key [arg] = .ok k)
    (hst : joinStem (i + 1) ps args = .ok st) :
    joinStem i (p :: ps) (arg :: args) = .ok (k ++ st) := by
  rw [joinStem, hk, hst]
  · rfl
  · exact hne

/-- The index can be searched by stems. -/
def ArgKeys.HasStems (p : ArgKeys) : Prop :=
  ∃ args, (p.stem? args).isSome

namespace Facet

/-- The argument is the value that the facet has in an object: a text, a number held either way, a
truth value, or an identifier, which may be given by its bytes and by its text in any case too. -/
def Has (o : α) : Facet α → Arg → Prop
  | text field _, arg => ∃ s, field o = some s ∧ s ≠ "" ∧ arg = .text s
  | signed field, arg => ∃ n, field o = some n ∧ arg.number? = some n.toInt
  | unsigned field, arg => ∃ n, field o = some n ∧ arg.number? = some (n.toNat : Int)
  | flag field, arg => ∃ b, field o = some b ∧ arg = .bool b
  | isSet set, arg => arg = .bool (set o)
  | condition holds, arg => ∃ b, holds o = .ok b ∧ arg = .bool b
  | identifier field, arg => ∃ u, field o = some u ∧ (arg = .uuid u ∨ arg = .bytes u.bytes ∨
      ∃ s, arg = .text s ∧ s.toList.map Char.toLower = u.text.toList)

variable {facet : Facet α} {facets : List (Facet α)} {o : α} {arg : Arg} {args : List Arg}
  {e d : Key} {allowMissing : Bool}

/-! ## One facet -/

/-- An identifier is read from each of its forms, whole or as a stem. -/
theorem gives_identifier {u : Uuid} (h : arg = .uuid u ∨ arg = .bytes u.bytes ∨
    ∃ s, arg = .text s ∧ s.toList.map Char.toLower = u.text.toList) (whole : Bool) :
    IdentifierIndex.Gives whole arg u.bytes := by
  rcases h with rfl | rfl | ⟨s, rfl, hs⟩
  · rfl
  · exact ⟨rfl, fun _ => u.length_bytes⟩
  · rcases Hex.spells_text hs with ⟨hspells, hlength, hhyphens⟩
    exact ⟨hspells, Nat.le_of_eq hhyphens, Nat.le_of_eq hlength, fun _ => hlength⟩

/-- Whoever gives the value matches the object. -/
theorem Has.matches (h : facet.Has o arg) : facet.Matches o arg := by
  cases facet with
  | text field fold =>
    rcases h with ⟨s, hs, hne, rfl⟩
    exact ⟨s, s, hs, hne, rfl, rfl⟩
  | signed field =>
    rcases h with ⟨n, hn, harg⟩
    exact ⟨n, hn, NumberIndex.signedArg_of_number harg⟩
  | unsigned field =>
    rcases h with ⟨n, hn, harg⟩
    exact ⟨n, hn, NumberIndex.unsignedArg_of_number harg⟩
  | flag field => exact h
  | isSet set => exact h
  | condition holds => exact h
  | identifier field =>
    rcases h with ⟨u, hu, harg⟩
    exact ⟨u, hu, IdentifierIndex.keyOfArg_eq_ok_iff.2 (gives_identifier harg true)⟩

/-- The value of a facet has the key that the facet has in the object. -/
theorem Has.exists_key (h : facet.Has o arg) : ∃ e, facet.KeyIn o e ∧ facet.KeyOf arg e := by
  rcases matches_iff.1 h.matches with ⟨e, hof, hin⟩
  exact ⟨e, hin, hof⟩

/-- Texts and identifiers can be searched by stems. -/
theorem hasStems_iff : facet.indexer.HasStems ↔
    (∃ field fold, facet = text field fold) ∨ ∃ field, facet = identifier field := by
  constructor
  · rintro ⟨_, hsome⟩
    cases facet with
    | text field fold => exact .inl ⟨field, fold, rfl⟩
    | identifier field => exact .inr ⟨field, rfl⟩
    | signed | unsigned | flag | isSet | condition => cases hsome
  · rintro (⟨field, fold, rfl⟩ | ⟨field, rfl⟩) <;> exact ⟨[], rfl⟩

/-- The stem that the value of a facet gives, if the facet has stems, starts its key. -/
theorem Has.exists_stem (h : facet.Has o arg) (he : facet.KeyIn o e)
    (hstems : facet.indexer.HasStems) :
    ∃ st, facet.indexer.stem? [arg] = some (.ok st) ∧ st <+: e := by
  rcases hasStems_iff.1 hstems with ⟨field, fold, rfl⟩ | ⟨field, rfl⟩
  · rcases h with ⟨s, hs, _, rfl⟩
    rcases keyIn_text.1 he with ⟨s', hs', _, rfl⟩
    obtain rfl := Option.some.inj (hs.symm.trans hs')
    exact ⟨TextIndex.stem fold s, rfl, List.prefix_append _ _⟩
  · rcases h with ⟨u, hu, harg⟩
    rcases keyIn_identifier.1 he with ⟨u', hu', rfl⟩
    obtain rfl := Option.some.inj (hu.symm.trans hu')
    have hgives := gives_identifier harg false
    exact ⟨u.bytes, IdentifierIndex.stem?_eq_some_iff.2 ⟨arg, rfl, hgives⟩, List.prefix_rfl⟩

/-! ## Facets one after another -/

/-- The values of facets have the joined keys that the facets have in the object. -/
theorem exists_keys (h : List.Forall₂ (Has o) facets args) (allowMissing : Bool) :
    ∃ d, KeysIn allowMissing facets o d ∧ KeysOf facets args d := by
  induction h with
  | nil => exact ⟨[], keysIn_nil.2 rfl, rfl⟩
  | cons hfirst _ ih =>
    rcases hfirst.exists_key with ⟨e, hin, hof⟩
    rcases ih with ⟨d, hins, hofs⟩
    exact ⟨e ++ d, keysIn_cons.2 (.inr ⟨e, d, hin, hins, rfl⟩),
      keysOf_cons.2 ⟨e, d, hof, hofs, rfl⟩⟩

/-- The first key of an object that has a value in the first facet. -/
theorem Has.keysIn_cons (h : facet.Has o arg) (hd : KeysIn allowMissing (facet :: facets) o d) :
    ∃ e d', facet.KeyIn o e ∧ facet.KeyOf arg e ∧ KeysIn allowMissing facets o d' ∧
      e ++ d' = d := by
  rcases h.exists_key with ⟨e, hin, hof⟩
  rcases Facet.keysIn_cons.1 hd with ⟨hmissing, _, _⟩ | ⟨e', d', hin', hd', rfl⟩
  · cases hmissing.symm.trans hin
  · obtain rfl := Option.some.inj (Except.ok.inj (hin.symm.trans hin'))
    exact ⟨e, d', hin, hof, hd', rfl⟩

/-- The first values of facets, up to one with stems, give a stem of the joined keys. -/
theorem exists_joinStem (h : List.Forall₂ (Has o) facets args)
    (hd : KeysIn allowMissing facets o d) {n : Nat} (hn : n < facets.length)
    (hstems : facets[n].indexer.HasStems) (i : Nat) :
    ∃ st, CompoundIndex.joinStem i ((facets.map indexer).map (·.toArgKeys)) (args.take (n + 1)) =
      .ok st ∧ st <+: d := by
  induction h generalizing n i d with
  | nil => cases hn
  | @cons facet arg facets args hfirst hrest ih =>
    rcases hfirst.keysIn_cons hd with ⟨e, d', hin, hof, hd', rfl⟩
    cases n with
    | zero =>
      rcases hfirst.exists_stem hin hstems with ⟨st, hst, hpre⟩
      refine ⟨st, ?_, hpre.trans (List.prefix_append e d')⟩
      simp [CompoundIndex.joinStem, hst]
    | succ n =>
      have hlt : n < facets.length := Nat.lt_of_succ_lt_succ hn
      rcases ih hd' hlt hstems (i + 1) with ⟨st, hst, hpre⟩
      have hne : args.take (n + 1) ≠ [] := by
        rw [← List.length_pos_iff, List.length_take, ← hrest.length_eq]
        omega
      exact ⟨e ++ st, CompoundIndex.joinStem_cons hne hof hst,
        (List.prefix_append_right_inj e).2 hpre⟩

/-- Where every facet has a value, there is one way to join keys of the facets. -/
theorem products_eq (h : List.Forall₂ (Has o) facets args) (hd : KeysIn allowMissing facets o d) :
    CompoundIndex.products allowMissing o (facets.map fun f => .single f.indexer) = .ok [d] := by
  induction h generalizing d with
  | nil =>
    obtain rfl := keysIn_nil.1 hd
    rfl
  | @cons facet arg facets args hfirst _ ih =>
    rcases hfirst.keysIn_cons hd with ⟨e, d', hin, _, hd', rfl⟩
    have hfound : facet.indexer.ofObject o = .ok (some e) := hin
    have hkeys : (Indexer.single facet.indexer).keys o = .ok [e] := by
      rw [Indexer.keys, hfound]
      rfl
    rw [List.map_cons, CompoundIndex.products, hkeys, ih hd']
    rfl

/-- Facets that have values have a key with bytes. -/
theorem ne_nil_of_keysIn (h : List.Forall₂ (Has o) facets args) (hne : facets ≠ [])
    (hd : KeysIn allowMissing facets o d) : d ≠ [] := by
  cases h with
  | nil => exact absurd rfl hne
  | cons hfirst _ =>
    rcases hfirst.keysIn_cons hd with ⟨e, d', hin, _, _, rfl⟩
    exact List.append_ne_nil_of_left_ne_nil hin.ne_nil d'

end Facet

/-! ## Indexers over facets -/

namespace Indexer

/-- The indexer is over one facet, or a compound of one sort or the other over some. -/
inductive IsOverFacets : Indexer α → List (Facet α) → Prop
  | facet (facet : Facet α) : IsOverFacets (.single facet.indexer) [facet]
  | single {facets : List (Facet α)} (hne : facets ≠ []) (allowMissing : Bool) :
    IsOverFacets (.single (CompoundIndex.single (facets.map Facet.indexer) allowMissing)) facets
  | multi {facets : List (Facet α)} (hne : facets ≠ []) (allowMissing : Bool) :
    IsOverFacets (.multi (CompoundIndex.multi (facets.map fun f => .single f.indexer) allowMissing))
      facets

/-- An object and arguments agree: the indexer derives one key from the object, the arguments have
this key, and the first of them, up to one for a facet with stems, have a stem of it. -/
structure Agrees (i : Indexer α) (facets : List (Facet α)) (o : α) (args : List Arg) (k : Key) :
    Prop where
  object : i.keys o = .ok [k]
  key : i.args.key args = .ok k
  stem : ∀ n (hn : n < facets.length), facets[n].indexer.HasStems →
    ∃ st, i.args.stem? (args.take (n + 1)) = some (.ok st) ∧ st <+: k

variable {i : Indexer α} {facets : List (Facet α)} {o : α} {args : List Arg} {d : Key}
  {allowMissing : Bool}

/-- How a compound reads the values of its facets, whatever it derives from objects. -/
theorem reads_values (h : List.Forall₂ (Facet.Has o) facets args)
    (hd : Facet.KeysIn allowMissing facets o d) :
    let p := CompoundIndex.args ((facets.map Facet.indexer).map (·.toArgKeys))
    p.key args = .ok d ∧ ∀ n (hn : n < facets.length), facets[n].indexer.HasStems →
      ∃ st, p.stem? (args.take (n + 1)) = some (.ok st) ∧ st <+: d := by
  intro p
  have hlength : args.length = facets.length := h.length_eq.symm
  refine ⟨?_, fun n hn hstems => ?_⟩
  · rcases Facet.exists_keys h allowMissing with ⟨d', hd', hof⟩
    obtain rfl := Option.some.inj (Except.ok.inj (hd.symm.trans hd'))
    have hcount : args.length = ((facets.map Facet.indexer).map (·.toArgKeys)).length := by
      simpa using hlength
    exact (if_pos hcount).trans hof
  · rcases Facet.exists_joinStem h hd hn hstems 0 with ⟨st, hst, hpre⟩
    have hcount : ¬ ((facets.map Facet.indexer).map (·.toArgKeys)).length <
        (args.take (n + 1)).length := by
      simp only [List.length_map, List.length_take]
      omega
    exact ⟨st, congrArg some ((if_neg hcount).trans hst), hpre⟩

/-- Objects and arguments have the same keys. Let an indexer be over facets that all have a value in
an object, one after another in a compound of either sort, which may allow missing parts. The values
as arguments have the one key that the indexer derives from the object, and the first values, up to
one for a facet that can be searched by stems, have a stem of this key. -/
theorem object_agrees (hi : i.IsOverFacets facets) (h : List.Forall₂ (Facet.Has o) facets args) :
    ∃ k, i.Agrees facets o args k := by
  cases hi with
  | facet facet =>
    rcases List.forall₂_cons_left_iff.1 h with ⟨arg, _, hhas, hnil, rfl⟩
    obtain rfl := List.forall₂_nil_left_iff.1 hnil
    rcases hhas.exists_key with ⟨e, hin, hof⟩
    have hfound : facet.indexer.ofObject o = .ok (some e) := hin
    refine ⟨e, ?_, hof, fun n hn hstems => ?_⟩
    · rw [keys, hfound]
      rfl
    · obtain rfl : n = 0 := Nat.lt_one_iff.1 hn
      exact hhas.exists_stem hin hstems
  | single hne allowMissing =>
    rcases Facet.exists_keys h allowMissing with ⟨d, hd, _⟩
    have hjoined :
        CompoundIndex.joined allowMissing o (facets.map Facet.indexer) = .ok (some d) := hd
    rcases reads_values h hd with ⟨hkey, hstem⟩
    refine ⟨d, ?_, hkey, hstem⟩
    have hd := Facet.ne_nil_of_keysIn h hne hd
    simp [keys, CompoundIndex.single, hjoined, Except.map, hd]
  | multi hne allowMissing =>
    rcases Facet.exists_keys h allowMissing with ⟨d, hd, _⟩
    have hparts : (facets.map fun f => Indexer.single f.indexer).map Indexer.args =
        (facets.map Facet.indexer).map (·.toArgKeys) := by
      rw [List.map_map, List.map_map]
      rfl
    rcases reads_values h hd with ⟨hkey, hstem⟩
    rw [← hparts] at hkey hstem
    refine ⟨d, ?_, hkey, hstem⟩
    have hproducts := Facet.products_eq h hd
    have hd := Facet.ne_nil_of_keysIn h hne hd
    simp [keys, CompoundIndex.multi, hproducts, Except.map, hd]

/-- A ship under a compound over its name, whether it has an owner, and the owner, who is given by
text in capitals. -/
theorem object_agrees_ship :
    let owner : Uuid := .ofNat 0xaf
    let ship : Ship := { code := "a", name := "Ohm", owner := some owner }
    let facets : List (Facet Ship) := [.text (some ·.name) true, .isSet (·.owner.isSome),
      .identifier (·.owner)]
    let i : Indexer Ship :=
      .multi (CompoundIndex.multi (facets.map fun f => .single f.indexer) true)
    let args : List Arg :=
      [.text "Ohm", .bool true, .text "00000000-0000-0000-0000-0000000000AF"]
    i.IsOverFacets facets ∧ List.Forall₂ (Facet.Has ship) facets args ∧
      ∃ k, i.Agrees facets ship args k := by
  intro owner ship facets i args
  have hi : i.IsOverFacets facets := .multi (by simp [facets]) true
  have hname : Facet.Has ship (.text (some ·.name) true) (.text "Ohm") :=
    ⟨"Ohm", rfl, by decide, rfl⟩
  have howner : Facet.Has ship (.identifier (·.owner))
      (.text "00000000-0000-0000-0000-0000000000AF") :=
    ⟨owner, rfl, .inr (.inr ⟨_, rfl, by decide +kernel⟩)⟩
  have hvalues : List.Forall₂ (Facet.Has ship) facets args :=
    .cons hname (.cons rfl (.cons howner .nil))
  exact ⟨hi, hvalues, object_agrees hi hvalues⟩

end Indexer

end SnapStore
