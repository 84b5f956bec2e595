import SnapStore.Text.LowercaseTable
import SnapStore.Text.CaseTable

/-! # Lowercase texts

The lowercase form of a text after the Unicode rules that hold in every language.
Each character is replaced by its lowercase form on its own, but for the capital
sigma: at the end of a word it becomes a final sigma.

Main statements: `inRanges_iff` (a search that stops early misses no range) and
`ofChars_append_of_no_sigma` (texts without a capital sigma may be lowercased piece by
piece).
-/

namespace SnapStore.Lowercase

/-- Whether a code point lies in one of several ascending ranges. The first range above
it ends the search. -/
def inRanges : List (Nat × Nat) → Nat → Bool
  | [], _ => false
  | (first, last) :: ranges, c => first ≤ c && (c ≤ last || inRanges ranges c)

/-- Whether a character is lowercase, uppercase or titlecase. -/
def isCased (c : Char) : Bool :=
  inRanges cased c.toNat

/-- Whether a look around for case passes over a character. -/
def isCaseIgnorable (c : Char) : Bool :=
  inRanges caseIgnorable c.toNat

/-- The row for a code point among ascending rows. The first row above it ends the
search. -/
def rowFor? : List Row → Nat → Option Row
  | [], _ => none
  | r :: rows, c =>
    if c < r.first then none else if r.covers c then some r else rowFor? rows c

/-- The lowercase form of a character on its own. Only the capital I with a dot takes
two characters, since the dot is kept as a mark of its own. -/
def ofChar (c : Char) : List Char :=
  if c = 'İ' then ['i', '\u0307']
  else
    match rowFor? rows c.toNat with
    | none => [c]
    | some r => [Char.ofNat (c.toNat + r.offset).toNat]

/-- Whether the first character that a look around for case does not pass over is
cased. -/
def meetsCased (cs : List Char) : Bool :=
  match cs.dropWhile isCaseIgnorable with
  | [] => false
  | c :: _ => isCased c

/-- The lowercase form of a capital sigma between `before` (backwards) and `after`. -/
def ofSigma (before after : List Char) : Char :=
  if meetsCased before && !meetsCased after then 'ς' else 'σ'

/-- The lowercase form of the characters that follow `before` (backwards). -/
def ofCharsAfter : List Char → List Char → List Char
  | _, [] => []
  | before, c :: cs =>
    (if c = 'Σ' then [ofSigma before cs] else ofChar c) ++ ofCharsAfter (c :: before) cs

/-- The lowercase form of a text, as characters. -/
def ofChars (cs : List Char) : List Char :=
  ofCharsAfter [] cs

/-- The lowercase form of a text. -/
def ofText (s : String) : String :=
  String.ofList (ofChars s.toList)

theorem inRanges_iff {ranges : List (Nat × Nat)} {c : Nat}
    (h : ranges.Pairwise fun r s => r.1 ≤ s.1) :
    inRanges ranges c = true ↔ ∃ r ∈ ranges, r.1 ≤ c ∧ c ≤ r.2 := by
  induction h with
  | nil => simp [inRanges]
  | @cons r rs hr _ ih =>
    have later : (∃ s ∈ rs, s.1 ≤ c ∧ c ≤ s.2) → r.1 ≤ c := by
      rintro ⟨s, hs, hc, _⟩
      exact Nat.le_trans (hr s hs) hc
    simp only [inRanges, Bool.and_eq_true, Bool.or_eq_true, decide_eq_true_eq, ih,
      List.mem_cons, exists_eq_or_imp]
    constructor
    · rintro ⟨hf, hl | h⟩
      · exact .inl ⟨hf, hl⟩
      · exact .inr h
    · rintro (⟨hf, hl⟩ | h)
      · exact ⟨hf, .inl hl⟩
      · exact ⟨later h, .inr h⟩

theorem ofCharsAfter_of_no_sigma {before cs : List Char} (h : 'Σ' ∉ cs) :
    ofCharsAfter before cs = cs.flatMap ofChar := by
  induction cs generalizing before with
  | nil => rfl
  | cons c cs ih =>
    simp only [List.mem_cons, not_or] at h
    simp [ofCharsAfter, Ne.symm h.1, ih h.2]

theorem ofChars_append_of_no_sigma {cs ds : List Char} (h : 'Σ' ∉ cs ++ ds) :
    ofChars (cs ++ ds) = ofChars cs ++ ofChars ds := by
  have hc : 'Σ' ∉ cs := fun hm => h (by simp [hm])
  have hd : 'Σ' ∉ ds := fun hm => h (by simp [hm])
  simp [ofChars, ofCharsAfter_of_no_sigma, h, hc, hd]

end SnapStore.Lowercase
