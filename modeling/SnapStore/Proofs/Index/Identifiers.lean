import SnapStore.Proofs.Index.Facets

/-! # Arguments for identifiers

An index over identifiers takes an identifier, bytes, or hexadecimal text. Text may have its hyphens
anywhere, up to four of them, and each one left away makes room for another digit: a text of the
right length gives up to eighteen bytes. For a stem, bytes may be as many as one likes.

Main statements: `Hex.bytes?_ofText_eq_some_iff` (which text gives which bytes) and
`IdentifierIndex.reads` (which arguments give which keys).
-/

namespace SnapStore

variable {α : Type}

/-! ## Bytes of characters -/

namespace Key

variable {c : Char}

theorem utf8EncodeChar_of_lt (h : c.toNat < 128) : String.utf8EncodeChar c = [c.toUInt8] := by
  have hval : c.val.toNat < 128 := h
  have hsize : c.utf8Size = 1 := by
    rw [Char.utf8Size_eq_one_iff, UInt32.le_iff_toNat_le]
    exact Nat.le_of_lt_succ hval
  exact String.utf8EncodeChar_eq_singleton hsize

theorem le_of_mem_utf8EncodeChar (h : 128 ≤ c.toNat) {b : UInt8}
    (hb : b ∈ String.utf8EncodeChar c) : 128 ≤ b.toNat := by
  have hval : 128 ≤ c.val.toNat := h
  revert hb
  fun_cases String.utf8EncodeChar c <;> simp [← UInt8.toNat_inj] <;> omega

end Key

/-! ## Digits -/

namespace Hex

theorem toLower_of_le {c : Char} (h : 128 ≤ c.toNat) : c.toLower = c := by
  refine dif_neg ?_
  rintro ⟨_, hle⟩
  have hle : c.toNat ≤ 90 := hle
  omega

theorem toLower_eq_hyphen_iff {c : Char} : c.toLower = '-' ↔ c = '-' := by
  have htable : ∀ n ∈ List.range 128, (Char.ofNat n).toLower = '-' ↔ Char.ofNat n = '-' := by
    decide +kernel
  by_cases hc : c.toNat < 128
  · have hrow := htable c.toNat (List.mem_range.2 hc)
    rwa [Char.ofNat_toNat] at hrow
  · rw [toLower_of_le (by omega)]

theorem mem_ofByte {c : Char} {b : UInt8} (h : c ∈ ofByte b) : c.toNat < 128 ∧ c ≠ '-' := by
  have htable : ∀ n ∈ List.range 16, (digit n).toNat < 128 ∧ digit n ≠ '-' := by decide
  have hlt := b.toNat_lt
  rw [ofByte, List.mem_cons, List.mem_singleton] at h
  rcases h with rfl | rfl
  · exact htable _ (List.mem_range.2 (by omega))
  · exact htable _ (List.mem_range.2 (by omega))

/-- The text gives the bytes by their digits, of either case, with hyphens anywhere. -/
def Spells (s : String) (bytes : List UInt8) : Prop :=
  (s.toList.filter (· != '-')).map Char.toLower = bytes.flatMap ofByte

theorem lt_of_digit? {b v : UInt8} (h : digit? b = some v) : b.toNat < 128 ∧ v.toNat < 16 := by
  have htable : ∀ n ∈ List.range 256, ∀ v ∈ digit? n.toUInt8, n < 128 ∧ v.toNat < 16 := by
    decide +kernel
  have hvalue : b.toNat.toUInt8 = b := UInt8.ofNat_toNat
  have hrow := htable b.toNat (List.mem_range.2 b.toNat_lt) v
  rw [hvalue] at hrow
  exact hrow h

/-- A character is read as a value below 16 if it is the digit of this value, in either case. -/
theorem digit?_eq_some_iff {c : Char} (h : c.toNat < 128) {v : UInt8} :
    digit? c.toUInt8 = some v ↔ v.toNat < 16 ∧ c.toLower = digit v.toNat := by
  have htable : ∀ n ∈ List.range 128, ∀ m ∈ List.range 16,
      digit? (Char.ofNat n).toUInt8 = some m.toUInt8 ↔ (Char.ofNat n).toLower = digit m := by
    decide +kernel
  have hvalue : v.toNat.toUInt8 = v := UInt8.ofNat_toNat
  have hc (hv : v.toNat < 16) : digit? c.toUInt8 = some v ↔ c.toLower = digit v.toNat := by
    have hrow := htable c.toNat (List.mem_range.2 h) v.toNat (List.mem_range.2 hv)
    rwa [Char.ofNat_toNat, hvalue] at hrow
  constructor
  · intro hv
    have hlt := (lt_of_digit? hv).2
    exact ⟨hlt, (hc hlt).1 hv⟩
  · rintro ⟨hlt, hv⟩
    exact (hc hlt).2 hv

/-- Two values below 16 make up a byte that can be taken apart again. -/
theorem or_eq_iff {high low b : UInt8} (hh : high.toNat < 16) (hl : low.toNat < 16) :
    high <<< 4 ||| low = b ↔ high.toNat = b.toNat / 16 ∧ low.toNat = b.toNat % 16 := by
  have htable : ∀ n ∈ List.range 16, ∀ m ∈ List.range 16,
      (n.toUInt8 <<< 4 ||| m.toUInt8).toNat = 16 * n + m := by
    decide +kernel
  have hhigh : high.toNat.toUInt8 = high := UInt8.ofNat_toNat
  have hlow : low.toNat.toUInt8 = low := UInt8.ofNat_toNat
  have hrow := htable high.toNat (List.mem_range.2 hh) low.toNat (List.mem_range.2 hl)
  rw [hhigh, hlow] at hrow
  rw [← UInt8.toNat_inj, hrow]
  omega

/-- Two characters give a byte if they are its digits, in either case. -/
theorem pair_iff {c d : Char} (hc : c.toNat < 128) (hd : d.toNat < 128) {b : UInt8} :
    (∃ high low, digit? c.toUInt8 = some high ∧ digit? d.toUInt8 = some low ∧
      high <<< 4 ||| low = b) ↔ [c.toLower, d.toLower] = ofByte b := by
  rw [ofByte, List.cons.injEq, List.singleton_inj]
  constructor
  · rintro ⟨high, low, hhigh, hlow, hb⟩
    rcases (digit?_eq_some_iff hc).1 hhigh with ⟨hh, hcdigit⟩
    rcases (digit?_eq_some_iff hd).1 hlow with ⟨hl, hddigit⟩
    rcases (or_eq_iff hh hl).1 hb with ⟨hhalf, hrest⟩
    exact ⟨hhalf ▸ hcdigit, hrest ▸ hddigit⟩
  · rintro ⟨hcdigit, hddigit⟩
    have hlt := b.toNat_lt
    have hhigh : (UInt8.ofNat (b.toNat / 16)).toNat = b.toNat / 16 := by
      rw [UInt8.toNat_ofNat']
      omega
    have hlow : (UInt8.ofNat (b.toNat % 16)).toNat = b.toNat % 16 := by
      rw [UInt8.toNat_ofNat']
      omega
    refine ⟨.ofNat (b.toNat / 16), .ofNat (b.toNat % 16), ?_, ?_, ?_⟩
    · rw [digit?_eq_some_iff hc, hhigh]
      exact ⟨by omega, hcdigit⟩
    · rw [digit?_eq_some_iff hd, hlow]
      exact ⟨by omega, hddigit⟩
    · rw [or_eq_iff (by omega) (by omega)]
      exact ⟨hhigh, hlow⟩

theorem bytes?_cons_cons {c d : UInt8} {rest bytes : List UInt8} :
    bytes? (c :: d :: rest) = some bytes ↔ ∃ b tail, bytes = b :: tail ∧
      (∃ high low, digit? c = some high ∧ digit? d = some low ∧ high <<< 4 ||| low = b) ∧
      bytes? rest = some tail := by
  rw [bytes?]
  cases digit? c <;> cases digit? d <;> cases bytes? rest <;> simp [eq_comm, and_comm]

/-- Digits are read as the bytes that have them, in either case. -/
theorem bytes?_eq_some_iff : ∀ {cs : List Char} {bytes : List UInt8},
    (∀ c ∈ cs, c.toNat < 128) →
      (bytes? (cs.map Char.toUInt8) = some bytes ↔ cs.map Char.toLower = bytes.flatMap ofByte)
  | [], bytes, _ => by cases bytes <;> simp [bytes?, ofByte]
  | [c], bytes, _ => by cases bytes <;> simp [bytes?, ofByte]
  | c :: d :: rest, bytes, h => by
    have hc : c.toNat < 128 := h c List.mem_cons_self
    have hd : d.toNat < 128 := h d (List.mem_cons_of_mem c List.mem_cons_self)
    have hrest (x : Char) (hx : x ∈ rest) : x.toNat < 128 :=
      h x (List.mem_cons_of_mem c (List.mem_cons_of_mem d hx))
    rw [List.map_cons, List.map_cons, bytes?_cons_cons]
    cases bytes with
    | nil => simp
    | cons b tail =>
      -- two characters belong to the first byte
      have hsplit : (c :: d :: rest).map Char.toLower = (b :: tail).flatMap ofByte ↔
          [c.toLower, d.toLower] = ofByte b ∧ rest.map Char.toLower = tail.flatMap ofByte := by
        simp [ofByte, and_assoc]
      rw [hsplit, ← pair_iff hc hd, ← bytes?_eq_some_iff hrest]
      simp only [List.cons.injEq]
      constructor
      · rintro ⟨_, _, ⟨rfl, rfl⟩, hb, htail⟩
        exact ⟨hb, htail⟩
      · rintro ⟨hb, htail⟩
        exact ⟨b, tail, ⟨rfl, rfl⟩, hb, htail⟩

theorem lt_of_bytes? {ds bytes : List UInt8} (h : bytes? ds = some bytes) :
    ∀ d ∈ ds, d.toNat < 128 := by
  fun_induction bytes? ds generalizing bytes with
  | case1 => simp
  | case2 => cases h
  | case3 high low rest l r tail hrest hlow hhigh ih =>
    simp only [List.forall_mem_cons]
    exact ⟨(lt_of_digit? hhigh).1, (lt_of_digit? hlow).1, ih hrest⟩
  | case4 => cases h

namespace Spells

variable {s : String} {bytes : List UInt8}

theorem length_filter (h : Spells s bytes) :
    (s.toList.filter (· != '-')).length = 2 * bytes.length := by
  have hlength := congrArg List.length h
  rw [List.length_map] at hlength
  rw [hlength]
  clear h hlength
  induction bytes with
  | nil => rfl
  | cons b bytes ih =>
    rw [List.flatMap_cons, List.length_append, ih, ofByte, List.length_cons]
    simp only [List.length_cons, List.length_nil]
    omega

/-- What is not a hyphen is a digit. -/
theorem lt_of_mem_filter (h : Spells s bytes) :
    ∀ c ∈ s.toList.filter (· != '-'), c.toNat < 128 := by
  intro c hc
  have hmem : c.toLower ∈ bytes.flatMap ofByte := h ▸ List.mem_map_of_mem hc
  rcases List.mem_flatMap.1 hmem with ⟨b, _, hb⟩
  by_cases hlt : c.toNat < 128
  · exact hlt
  · have hlower := (mem_ofByte hb).1
    rwa [toLower_of_le (by omega)] at hlower

theorem lt (h : Spells s bytes) : ∀ c ∈ s.toList, c.toNat < 128 := by
  intro c hc
  by_cases hhyphen : c = '-'
  · subst hhyphen
    decide
  · exact h.lt_of_mem_filter c (List.mem_filter.2 ⟨hc, by simpa using hhyphen⟩)

end Spells

end Hex

namespace Key

/-- The bytes of characters below 128 are the characters. -/
theorem flatMap_utf8EncodeChar {cs : List Char} (h : ∀ c ∈ cs, c.toNat < 128) :
    cs.flatMap String.utf8EncodeChar = cs.map Char.toUInt8 := by
  induction cs with
  | nil => rfl
  | cons c cs ih =>
    rw [List.flatMap_cons, utf8EncodeChar_of_lt (h c List.mem_cons_self),
      ih fun d hd => h d (List.mem_cons_of_mem c hd)]
    rfl

/-- Hyphens can be left away from a text or from its bytes. -/
theorem filter_ofText (s : String) : (ofText s).filter (· != 0x2d) =
    (s.toList.filter (· != '-')).flatMap String.utf8EncodeChar := by
  rw [ofText]
  induction s.toList with
  | nil => rfl
  | cons c cs ih =>
    rw [List.flatMap_cons, List.filter_append, ih, List.filter_cons]
    by_cases hc : c = '-'
    · subst hc
      rfl
    · have hkeep : (String.utf8EncodeChar c).filter (· != 0x2d) = String.utf8EncodeChar c := by
        rw [List.filter_eq_self]
        intro b hb
        by_cases hlt : c.toNat < 128
        · rw [utf8EncodeChar_of_lt hlt, List.mem_singleton] at hb
          subst hb
          refine bne_iff_ne.2 fun heq => hc (Char.ext (UInt32.toNat_inj.1 ?_))
          have hnat : c.toNat % 256 = 45 := congrArg UInt8.toNat heq
          have hval : c.val.toNat = c.toNat := rfl
          have hhyphen : ('-' : Char).val.toNat = 45 := rfl
          omega
        · have hle := le_of_mem_utf8EncodeChar (by omega) hb
          refine bne_iff_ne.2 ?_
          rintro rfl
          simp at hle
      rw [hkeep, if_pos (by simpa using hc), List.flatMap_cons]

end Key

namespace Hex

/-- The digits of a text are read as the bytes that it spells. -/
theorem bytes?_ofText_eq_some_iff {s : String} {bytes : List UInt8} :
    bytes? ((Key.ofText s).filter (· != 0x2d)) = some bytes ↔ Spells s bytes := by
  rw [Key.filter_ofText]
  by_cases hlt : ∀ c ∈ s.toList.filter (· != '-'), c.toNat < 128
  · rw [Key.flatMap_utf8EncodeChar hlt, bytes?_eq_some_iff hlt]
    rfl
  · refine iff_of_false (fun hbytes => hlt fun c hc => ?_) fun h => hlt h.lt_of_mem_filter
    -- the bytes of another character are not digits
    by_contra hge
    obtain ⟨b, hb⟩ : ∃ b, b ∈ String.utf8EncodeChar c :=
      List.exists_mem_of_ne_nil _ String.utf8EncodeChar_ne_nil
    have hdigit := lt_of_bytes? hbytes b (List.mem_flatMap.2 ⟨c, hc, hb⟩)
    have hle := Key.le_of_mem_utf8EncodeChar (by omega) hb
    omega

/-- Text that spells bytes has two characters for each of them, and the hyphens. -/
theorem Spells.length_eq {s : String} {bytes : List UInt8} (h : Spells s bytes) :
    (Key.ofText s).length = s.length ∧ s.length = s.toList.count '-' + 2 * bytes.length := by
  constructor
  · rw [Key.ofText, Key.flatMap_utf8EncodeChar h.lt, List.length_map]
    rfl
  · have hsplit := List.length_eq_countP_add_countP (· == '-') (l := s.toList)
    have hrest : s.toList.countP (fun c => ¬ (c == '-') = true) =
        (s.toList.filter (· != '-')).length := by
      rw [List.countP_eq_length_filter]
      congr 2
      funext c
      cases hc : c == '-' <;> simp [bne, hc]
    rw [hrest, h.length_filter, String.length_toList] at hsplit
    exact hsplit

end Hex

/-! ## Canonical text -/

namespace Uuid

variable (u : Uuid)

theorem toList_text : u.text.toList = u.digits.take 8 ++ '-' :: ((u.digits.drop 8).take 4 ++
    '-' :: ((u.digits.drop 12).take 4 ++ '-' :: ((u.digits.drop 16).take 4 ++
      '-' :: (u.digits.drop 20).take 12))) := by
  have hjoin (a b c d e : String) : "-".intercalate [a, b, c, d, e] =
      a ++ "-" ++ b ++ "-" ++ c ++ "-" ++ d ++ "-" ++ e := rfl
  simp [text, hjoin]

theorem length_text : u.text.length = 36 := by
  rw [← String.length_toList, toList_text]
  simp [length_digits]

/-- Without its hyphens the text of an identifier is its digits. -/
theorem filter_text : u.text.toList.filter (· != '-') = u.digits := by
  have hkeep {cs : List Char} (h : cs ⊆ u.digits) : cs.filter (· != '-') = cs := by
    refine List.filter_eq_self.2 fun c hc => ?_
    rcases List.mem_flatMap.1 (h hc) with ⟨b, _, hb⟩
    simpa using (Hex.mem_ofByte hb).2
  have hdrop (n m : Nat) : (u.digits.drop n).take m ⊆ u.digits :=
    List.Subset.trans (List.take_subset _ _) (List.drop_subset _ _)
  have hgroups : u.digits.take 8 ++ ((u.digits.drop 8).take 4 ++ ((u.digits.drop 12).take 4 ++
      ((u.digits.drop 16).take 4 ++ (u.digits.drop 20).take 12))) = u.digits := by
    have hall : u.digits.take (8 + (4 + (4 + (4 + 12)))) = u.digits :=
      List.take_of_length_le (Nat.le_of_eq u.length_digits)
    rw [List.take_add, List.take_add, List.take_add, List.take_add] at hall
    simpa only [List.drop_drop, Nat.reduceAdd] using hall
  rw [toList_text]
  simp only [List.filter_append, List.filter_cons, hkeep (List.take_subset _ _), hkeep (hdrop _ _)]
  exact hgroups

end Uuid

/-- The text of an identifier, in any case, spells its bytes. -/
theorem Hex.spells_text {u : Uuid} {s : String} (h : s.toList.map Char.toLower = u.text.toList) :
    Spells s u.bytes ∧ s.length = 36 ∧ s.toList.count '-' = 4 := by
  have hspells : Spells s u.bytes := by
    rw [Spells]
    have hdigits := u.filter_text
    rw [← h, List.filter_map] at hdigits
    rw [← Uuid.digits, ← hdigits]
    refine congrArg _ (List.filter_congr fun c _ => ?_)
    rw [Bool.eq_iff_iff, Function.comp_apply, bne_iff_ne, bne_iff_ne, ne_eq, ne_eq,
      toLower_eq_hyphen_iff]
  have hlength : s.length = 36 := by
    have heq := congrArg List.length h
    rwa [List.length_map, String.length_toList, String.length_toList, u.length_text] at heq
  refine ⟨hspells, hlength, ?_⟩
  have hcount := hspells.length_eq.2
  rw [u.length_bytes] at hcount
  omega

/-! ## Arguments -/

/-- A key starts a stored key within its front, or goes on behind this. -/
theorem Key.isPrefix_append_iff {k front rest : Key} : k <+: front ++ rest ↔
    k <+: front ∨ ∃ more, more ≠ [] ∧ k = front ++ more ∧ more <+: rest := by
  constructor
  · intro h
    rcases List.prefix_or_prefix_of_prefix h (List.prefix_append front rest) with
      hwithin | ⟨more, rfl⟩
    · exact .inl hwithin
    · by_cases hne : more = []
      · rw [hne, List.append_nil]
        exact .inl List.prefix_rfl
      · exact .inr ⟨more, hne, rfl, (List.prefix_append_right_inj front).1 h⟩
  · rintro (hwithin | ⟨more, _, rfl, hmore⟩)
    · exact hwithin.trans (List.prefix_append front rest)
    · exact (List.prefix_append_right_inj front).2 hmore

namespace IdentifierIndex

/-- The argument gives the bytes: by an identifier, by bytes, or by text that spells them with at
most four hyphens. A whole identifier takes 16 bytes or 36 characters, and a stem as many bytes as
one likes or 36 characters at most. -/
def Gives (whole : Bool) : Arg → Key → Prop
  | .uuid u, k => k = u.bytes
  | .bytes bs, k => k = bs ∧ (whole = true → bs.length = 16)
  | .text s, k => Hex.Spells s k ∧ s.toList.count '-' ≤ 4 ∧ s.length ≤ 36 ∧
      (whole = true → s.length = 36)
  | _, _ => False

/-- A check lets through what it has no error for. -/
theorem ite_error_eq_ok_iff {p : Prop} [Decidable p] {e : Misfit} {x : Except Misfit Key}
    {k : Key} :
    (if p then .error e else x) = .ok k ↔ ¬ p ∧ x = .ok k := by
  by_cases h : p <;> simp [h]

theorem ofText_eq_ok_iff {whole : Bool} {s : String} {k : Key} :
    ofText whole s = .ok k ↔ Gives whole (.text s) k := by
  simp only [ofText, ite_error_eq_ok_iff]
  constructor
  · rintro ⟨hwhole, hlong, hhyphens, _, hread⟩
    cases hbytes : Hex.bytes? ((Key.ofText s).filter (· != 0x2d)) with
    | none => rw [hbytes] at hread; cases hread
    | some bytes =>
      rw [hbytes] at hread
      obtain rfl := Except.ok.inj hread
      have hspells := Hex.bytes?_ofText_eq_some_iff.1 hbytes
      -- the checks count bytes, which are characters where digits are read
      rcases hspells.length_eq with ⟨hlength, hcount⟩
      have hdigits := Hex.length_bytes? hbytes
      rw [hlength] at hwhole
      refine ⟨hspells, by omega, by omega, ?_⟩
      rintro rfl
      simpa using hwhole
  · rintro ⟨hspells, hhyphens, hlong, hwhole⟩
    have hbytes := Hex.bytes?_ofText_eq_some_iff.2 hspells
    rcases hspells.length_eq with ⟨hlength, hcount⟩
    have hdigits := Hex.length_bytes? hbytes
    refine ⟨?_, by omega, by omega, by simp [hdigits], by rw [hbytes]⟩
    rw [hlength, Bool.and_eq_true, bne_iff_ne]
    exact fun h => h.2 (hwhole h.1)

variable {get : α → Option Uuid} {args : List Arg} {k : Key}

theorem keyOfArg_eq_ok_iff {arg : Arg} : keyOfArg arg = .ok k ↔ Gives true arg k := by
  cases arg with
  | uuid u => simp [keyOfArg, Gives, eq_comm]
  | text s => exact ofText_eq_ok_iff
  | bytes bs =>
    by_cases h : bs.length = 16 <;> simp [keyOfArg, Gives, h, eq_comm]
  | int => simp [keyOfArg, Gives]
  | uint => simp [keyOfArg, Gives]
  | bool => simp [keyOfArg, Gives]

theorem stemOfArg_eq_ok_iff {arg : Arg} : stemOfArg arg = .ok k ↔ Gives false arg k := by
  cases arg with
  | uuid u => simp [stemOfArg, Gives, eq_comm]
  | text s =>
    rw [stemOfArg]
    exact ofText_eq_ok_iff
  | bytes bs => simp [stemOfArg, Gives, eq_comm]
  | int => simp [stemOfArg, Gives]
  | uint => simp [stemOfArg, Gives]
  | bool => simp [stemOfArg, Gives]

theorem key_ofSingle_iff {f : Arg → Except Misfit Key} :
    (ArgKeys.ofSingle f).key args = .ok k ↔ ∃ arg, args = [arg] ∧ f arg = .ok k := by
  constructor
  · intro h
    rcases ArgKeys.exists_arg h with ⟨arg, rfl⟩
    exact ⟨arg, rfl, ArgKeys.key_ofSingle.1 h⟩
  · rintro ⟨arg, rfl, h⟩
    exact ArgKeys.key_ofSingle.2 h

/-- The arguments that an index over identifiers takes for a key. -/
theorem key_eq_ok_iff : (field get).key args = .ok k ↔ ∃ arg, args = [arg] ∧ Gives true arg k := by
  simp only [← keyOfArg_eq_ok_iff]
  exact key_ofSingle_iff

/-- The arguments that an index over identifiers takes for a stem. -/
theorem stem?_eq_some_iff :
    (field get).stem? args = some (.ok k) ↔ ∃ arg, args = [arg] ∧ Gives false arg k := by
  simp only [← stemOfArg_eq_ok_iff]
  exact Option.some_inj.trans key_ofSingle_iff

/-- Only text with two hyphens at most gives more than 16 bytes, or bytes given for a stem. -/
theorem Gives.of_long {whole : Bool} {arg : Arg} (h : Gives whole arg k) (hlong : 16 < k.length) :
    (∃ s, arg = .text s ∧ s.toList.count '-' ≤ 2 ∧ k.length ≤ 18) ∨
      whole = false ∧ arg = .bytes k := by
  cases arg with
  | uuid u =>
    rw [Gives] at h
    rw [h, u.length_bytes] at hlong
    omega
  | text s =>
    rcases h with ⟨hspells, _, hle, _⟩
    have hlength := hspells.length_eq.2
    exact .inl ⟨s, rfl, by omega, by omega⟩
  | bytes bs =>
    rcases h with ⟨rfl, hwhole⟩
    refine .inr ⟨?_, rfl⟩
    cases whole with
    | false => rfl
    | true =>
      rw [hwhole rfl] at hlong
      omega
  | int => cases h
  | uint => cases h
  | bool => cases h

theorem derives_iff {i : IndexSchema α} (hover : i.indexer = .single (field get)) {o : α} :
    i.Derives o k ↔ ∃ u, get o = some u ∧ u.bytes = k := by
  simp [IndexSchema.derives_single hover, field]

/-- How an index over identifiers reads arguments. -/
structure Reads (args : ArgKeys) : Prop where
  key_iff : ∀ as k, args.key as = .ok k ↔ ∃ arg, as = [arg] ∧ Gives true arg k
  stem_iff : ∀ as k, args.stem? as = some (.ok k) ↔ ∃ arg, as = [arg] ∧ Gives false arg k
  /-- The text of an identifier, in any case, gives its bytes. -/
  canonical : ∀ (u : Uuid) (s : String), s.toList.map Char.toLower = u.text.toList →
    args.key [.text s] = .ok u.bytes ∧ args.stem? [.text s] = some (.ok u.bytes)
  le_length : ∀ arg k, Gives true arg k → 16 ≤ k.length
  of_long : ∀ whole arg k, Gives whole arg k → 16 < k.length →
    (∃ s, arg = .text s ∧ s.toList.count '-' ≤ 2 ∧ k.length ≤ 18) ∨ whole = false ∧ arg = .bytes k

theorem reads (get : α → Option Uuid) : Reads (field get).toArgKeys where
  key_iff _ _ := key_eq_ok_iff
  stem_iff _ _ := stem?_eq_some_iff
  canonical u s h := by
    rcases Hex.spells_text h with ⟨hspells, hlength, hhyphens⟩
    have hgives (whole : Bool) : Gives whole (.text s) u.bytes :=
      ⟨hspells, Nat.le_of_eq hhyphens, Nat.le_of_eq hlength, fun _ => hlength⟩
    exact ⟨key_eq_ok_iff.2 ⟨_, rfl, hgives true⟩, stem?_eq_some_iff.2 ⟨_, rfl, hgives false⟩⟩
  le_length _ _ h := le_length_keyOfArg (keyOfArg_eq_ok_iff.2 h)
  of_long _ _ _ h := h.of_long

end IdentifierIndex

end SnapStore
