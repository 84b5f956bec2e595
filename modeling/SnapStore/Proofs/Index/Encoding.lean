import SnapStore.Index.Number
import SnapStore.Index.Text

/-! # How keys sort

Bytes sort as the values do that they stand for: numbers because all keys have the same width and
the most significant byte comes first, texts because the closing zero byte is below every byte of a
text without zero characters. Both hold whatever follows the keys, so that a stored key may go on
with a primary key.

Main statements: `NumberIndex.sorts_signedKey`, `NumberIndex.sorts_unsignedKey` and
`Key.sorts_closing`, and `TextIndex.zero_not_mem_stem` (folding case makes no zero characters).
-/

namespace SnapStore

namespace Key

/-- Of two values of a sort the smaller one has the smaller key, whatever follows the keys. -/
def Sorts {V : Type} [LT V] (sort : V → Prop) (key : V → Key) : Prop :=
  ∀ ⦃v w⦄, sort v → sort w → v < w → ∀ rest rest', key v ++ rest < key w ++ rest'

theorem append_lt_append_left_iff {a rest rest' : Key} :
    a ++ rest < a ++ rest' ↔ rest < rest' := by
  induction a with
  | nil => rfl
  | cons b a ih => simp [ih]

section

variable {V : Type} [LE V] [LT V] [Std.IsLinearOrder V] [Std.LawfulOrderLT V] {sort : V → Prop}
  {key : V → Key} {v w : V}

/-- Keys with something behind them sort by their values, and those of one value by what is
behind. -/
theorem Sorts.append_lt_append_iff (h : Sorts sort key) (hv : sort v) (hw : sort w)
    {rest rest' : Key} : key v ++ rest < key w ++ rest' ↔ v < w ∨ v = w ∧ rest < rest' := by
  rcases Std.lt_trichotomy v w with hlt | rfl | hlt
  · simp only [hlt, h hv hw hlt rest rest', true_or]
  · simp only [Std.lt_irrefl, append_lt_append_left_iff, false_or, true_and]
  · have hback := h hw hv hlt rest' rest
    constructor
    · intro hforth
      exact absurd (List.lt_trans hforth hback) (List.lt_irrefl _)
    · rintro (hforth | ⟨rfl, _⟩)
      · exact absurd (Std.lt_trans hlt hforth) Std.lt_irrefl
      · exact absurd hlt Std.lt_irrefl

/-- Values whose keys begin the same bytes are the same. -/
theorem Sorts.eq_of_append_eq (h : Sorts sort key) (hv : sort v) (hw : sort w)
    (rest rest' : Key) (heq : key v ++ rest = key w ++ rest') : v = w := by
  rcases Std.lt_trichotomy v w with hlt | hsame | hlt
  · exact absurd (heq ▸ h hv hw hlt rest rest') (List.lt_irrefl _)
  · exact hsame
  · exact absurd (heq ▸ h hw hv hlt rest' rest) (List.lt_irrefl _)

theorem Sorts.key_inj (h : Sorts sort key) (hv : sort v) (hw : sort w) :
    key v = key w ↔ v = w := by
  refine ⟨fun heq => h.eq_of_append_eq hv hw [] [] ?_, fun heq => heq ▸ rfl⟩
  rw [heq]

/-- A key begins only keys of its own value. -/
theorem Sorts.isPrefix_append_iff (h : Sorts sort key) (hv : sort v) (hw : sort w) {rest : Key} :
    key v <+: key w ++ rest ↔ w = v := by
  constructor
  · rintro ⟨rest', heq⟩
    exact (h.eq_of_append_eq hv hw rest' rest heq).symm
  · rintro rfl
    exact List.prefix_append _ _

/-- The key of a value is at most the keys of the values from it upward, whatever follows those. -/
theorem Sorts.le_append_iff (h : Sorts sort key) (hv : sort v) (hw : sort w) {rest : Key} :
    key v ≤ key w ++ rest ↔ v ≤ w := by
  have hlt : key w ++ rest < key v ++ [] ↔ w < v := by
    rw [h.append_lt_append_iff hw hv]
    simp only [List.not_lt_nil, and_false, or_false]
  rw [← List.not_lt, ← Std.not_lt, ← hlt, List.append_nil]

/-- A key with something behind it is at most the key of a value if its own value is smaller, or if
it is the same and nothing is behind. -/
theorem Sorts.append_le_iff (h : Sorts sort key) (hv : sort v) (hw : sort w) {rest : Key} :
    key w ++ rest ≤ key v ↔ w < v ∨ w = v ∧ rest = [] := by
  have hle : key w ++ rest ≤ key v ↔
      key w ++ rest < key v ++ [] ∨ key w ++ rest = key v ++ [] := by
    rw [List.append_nil, Std.le_iff_lt_or_eq]
  rw [hle, h.append_lt_append_iff hw hv]
  constructor
  · rintro ((hlt | ⟨_, hnil⟩) | heq)
    · exact .inl hlt
    · exact absurd hnil (List.not_lt_nil _)
    · obtain rfl := h.eq_of_append_eq hw hv _ _ heq
      exact .inr ⟨rfl, List.append_cancel_left heq⟩
  · rintro (hlt | ⟨rfl, rfl⟩)
    · exact .inl (.inl hlt)
    · exact .inr rfl

end

end Key

/-! ## Numbers -/

namespace Bytes

/-- Of two numbers that fit, the smaller one has the smaller bytes, whatever follows them. -/
theorem bigEndian_append_lt {width n m : Nat} (h : n < m) (hm : m < Nat.pow 256 width)
    (rest rest' : List UInt8) : bigEndian width n ++ rest < bigEndian width m ++ rest' := by
  induction width generalizing n m rest rest' with
  | zero =>
    have hone : m < 1 := hm
    omega
  | succ width ih =>
    have hsucc : m < Nat.pow 256 width * 256 := hm
    rw [bigEndian, bigEndian, List.append_assoc, List.append_assoc]
    rcases Nat.lt_or_eq_of_le (Nat.div_le_div_right (c := 256) (Nat.le_of_lt h)) with hlt | heq
    · refine ih hlt (Nat.div_lt_of_lt_mul ?_) _ _
      rwa [Nat.mul_comm]
    · -- the numbers differ in their last bytes only
      have hlast : n % 256 < m % 256 := by omega
      rw [heq]
      refine List.append_left_lt (List.cons_lt_cons_iff.2 (.inl ?_))
      rw [UInt8.lt_iff_toNat_lt, UInt8.toNat_ofNat', UInt8.toNat_ofNat']
      omega

/-- Numbers that fit are told apart by their bytes. -/
theorem bigEndian_inj {width n m : Nat} (hn : n < Nat.pow 256 width) (hm : m < Nat.pow 256 width) :
    bigEndian width n = bigEndian width m ↔ n = m := by
  refine ⟨fun heq => ?_, congrArg (bigEndian width)⟩
  rcases Nat.lt_trichotomy n m with h | h | h
  · have hlt := bigEndian_append_lt h hm [] []
    rw [heq] at hlt
    exact absurd hlt (List.lt_irrefl _)
  · exact h
  · have hlt := bigEndian_append_lt h hn [] []
    rw [heq] at hlt
    exact absurd hlt (List.lt_irrefl _)

end Bytes

namespace NumberIndex

theorem sorts_signedKey : Key.Sorts (fun _ => True) signedKey := by
  intro n m _ _ h rest rest'
  have hlt := Int64.lt_iff_toInt_lt.1 h
  have hn := n.le_toInt
  have hm := m.toInt_lt
  have hoffset : (offset : Int) = 2 ^ 63 := rfl
  have hwidth : Nat.pow 256 8 = 2 ^ 64 := rfl
  refine Bytes.bigEndian_append_lt ?_ ?_ rest rest'
  · omega
  · omega

theorem sorts_unsignedKey : Key.Sorts (fun _ => True) unsignedKey := by
  intro n m _ _ h rest rest'
  have hm : m.toNat < Nat.pow 256 8 := m.toNat_lt
  exact Bytes.bigEndian_append_lt (UInt64.lt_iff_toNat_lt.1 h) hm rest rest'

end NumberIndex

/-! ## Texts -/

namespace Key

/-- Bytes that sort before others do so with a closing zero byte as well, whatever follows it. -/
theorem append_zero_lt {a b : Key} (h : a < b) (hb : 0 ∉ b) (rest rest' : Key) :
    a ++ 0 :: rest < b ++ 0 :: rest' := by
  induction a generalizing b with
  | nil =>
    cases b with
    | nil => exact absurd h (List.lt_irrefl [])
    | cons y b =>
      have hy : y ≠ 0 := fun h => hb (by simp [h])
      exact List.cons_lt_cons_iff.2 (.inl (UInt8.pos_iff_ne_zero.2 hy))
  | cons x a ih =>
    cases b with
    | nil => exact absurd h (List.not_lt_nil _)
    | cons y b =>
      have hrest : 0 ∉ b := fun h => hb (List.mem_cons_of_mem y h)
      rcases List.cons_lt_cons_iff.1 h with hxy | ⟨rfl, hab⟩
      · exact List.cons_lt_cons_iff.2 (.inl hxy)
      · exact List.cons_lt_cons_iff.2 (.inr ⟨rfl, ih hab hrest⟩)

/-- Bytes without zeros sort the same when closed with a zero byte. -/
theorem sorts_closing : Sorts (fun bytes : Key => 0 ∉ bytes) (· ++ [0]) := by
  intro a b _ hb h rest rest'
  rw [List.append_assoc, List.append_assoc]
  exact append_zero_lt h hb rest rest'

theorem zero_not_mem_utf8EncodeChar {c : Char} (h : c ≠ '\u0000') :
    0 ∉ String.utf8EncodeChar c := by
  have hval : c.val.toNat ≠ 0 := fun h0 => h (Char.ext (UInt32.toNat_inj.1 h0))
  fun_cases String.utf8EncodeChar c <;> simp [← UInt8.toNat_inj] <;> omega

/-- A text without zero characters has no zero bytes. -/
theorem zero_not_mem_ofText {s : String} (h : '\u0000' ∉ s.toList) : 0 ∉ ofText s := by
  intro hmem
  rcases List.mem_flatMap.1 hmem with ⟨c, hc, hzero⟩
  exact zero_not_mem_utf8EncodeChar (fun heq => h (heq ▸ hc)) hzero

end Key

namespace Lowercase

theorem row_of_rowFor? {rows : List Row} {c : Nat} {r : Row} (h : rowFor? rows c = some r) :
    r ∈ rows ∧ r.covers c = true := by
  induction rows with
  | nil => cases h
  | cons r' rows ih =>
    rw [rowFor?] at h
    split at h
    · cases h
    · split at h
      · obtain rfl := Option.some.inj h
        exact ⟨List.mem_cons_self, ‹_›⟩
      · exact ⟨List.mem_cons_of_mem _ (ih h).1, (ih h).2⟩

theorem toNat_ofNat {n : Nat} (h : n.isValidChar) : (Char.ofNat n).toNat = n := by
  rw [Char.ofNat, dif_pos h]
  rfl

/-- Each row stays among the characters, and above zero. -/
theorem valid_of_mem_rows : ∀ r ∈ rows, 0 < r.first + r.offset ∧
    (r.last + r.offset < 0xd800 ∨ 0xdfff < r.first + r.offset ∧ r.last + r.offset < 0x110000) := by
  decide +kernel

/-- No character but the zero character has it in its lowercase form. -/
theorem zero_not_mem_ofChar {c : Char} (h : c ≠ '\u0000') : '\u0000' ∉ ofChar c := by
  rw [ofChar]
  split
  · decide
  · cases hrow : rowFor? rows c.toNat with
    | none => simpa using Ne.symm h
    | some r =>
      rcases row_of_rowFor? hrow with ⟨hmem, hcovers⟩
      have hrange := valid_of_mem_rows r hmem
      simp only [Row.covers, Bool.and_eq_true, decide_eq_true_eq] at hcovers
      have hpos : (c.toNat + r.offset).toNat ≠ 0 := by omega
      have hvalid : (c.toNat + r.offset).toNat.isValidChar := by
        simp only [Nat.isValidChar]
        omega
      simp only [List.mem_singleton]
      intro hzero
      have hnat := congrArg Char.toNat hzero
      rw [toNat_ofNat hvalid] at hnat
      exact hpos hnat.symm

/-- Lowercasing makes no zero characters. -/
theorem zero_not_mem_ofCharsAfter {before cs : List Char} (h : '\u0000' ∉ cs) :
    '\u0000' ∉ ofCharsAfter before cs := by
  induction cs generalizing before with
  | nil => exact h
  | cons c cs ih =>
    simp only [List.mem_cons, not_or] at h
    rw [ofCharsAfter, List.mem_append, not_or]
    refine ⟨?_, ih h.2⟩
    split
    · rw [ofSigma]
      split <;> decide
    · exact zero_not_mem_ofChar (Ne.symm h.1)

end Lowercase

namespace TextIndex

/-- The bytes of a text without zero characters have no zeros, whether or not case is folded. -/
theorem zero_not_mem_stem (fold : Bool) {s : String} (h : '\u0000' ∉ s.toList) :
    0 ∉ stem fold s := by
  refine Key.zero_not_mem_ofText ?_
  rw [normal]
  split
  · rw [Lowercase.ofText, String.toList_ofList]
    exact Lowercase.zero_not_mem_ofCharsAfter h
  · exact h

end TextIndex

end SnapStore
