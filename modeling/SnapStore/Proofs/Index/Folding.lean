import Mathlib.Data.List.TakeWhile
import SnapStore.Proofs.Index.Facets

/-! # Folding case and the starts of texts

The stem of a text should start the key of every text that goes on from it. An index that folds
case lowercases both, and the lowercase form of a text depends on what follows it in one place: a
capital sigma at the end is a final one until a cased character follows. Everywhere else a text may
be lowercased piece by piece.

Main statement: `TextIndex.stem_isPrefix_iff`.
-/

namespace SnapStore

variable {α : Type}

/-! ## The capital sigma at the end -/

namespace Lowercase

/-- Whether `cs`, which follow `before` (backwards), end in a capital sigma that is a final one by
itself: it stands behind a cased character, and behind it stand only characters that a look around
for case passes over. -/
def endsInSigma : List Char → List Char → Bool
  | _, [] => false
  | before, c :: cs =>
    c == 'Σ' && meetsCased before && cs.all isCaseIgnorable || endsInSigma (c :: before) cs

/-- Whether the capital sigma at the end of a text is final by itself, but not where the other text
follows. -/
def losesFinal (s rest : String) : Bool :=
  endsInSigma [] s.toList && meetsCased rest.toList

variable {before cs ds : List Char}

theorem meetsCased_of_all (h : cs.all isCaseIgnorable = true) : meetsCased cs = false := by
  have hnil : cs.dropWhile isCaseIgnorable = [] :=
    List.dropWhile_eq_nil_iff.2 fun c hc => List.all_eq_true.1 h c hc
  rw [meetsCased, hnil]

theorem meetsCased_append (cs ds : List Char) : meetsCased (cs ++ ds) =
    if cs.all isCaseIgnorable then meetsCased ds else meetsCased cs := by
  rw [meetsCased, List.dropWhile_append]
  cases hdrop : cs.dropWhile isCaseIgnorable with
  | nil =>
    have hall : cs.all isCaseIgnorable = true :=
      List.all_eq_true.2 (List.dropWhile_eq_nil_iff.1 hdrop)
    rw [if_pos List.isEmpty_nil, if_pos hall, meetsCased]
  | cons c rest =>
    have hall : ¬ cs.all isCaseIgnorable = true := by
      intro hall
      rw [List.dropWhile_eq_nil_iff.2 (List.all_eq_true.1 hall)] at hdrop
      cases hdrop
    rw [if_neg (by simp), if_neg hall, meetsCased, hdrop]
    rfl

/-- What follows a sigma later matters only where a look around for case gets there. -/
theorem ofSigma_append (before cs ds : List Char) : ofSigma before (cs ++ ds) =
    if meetsCased before && cs.all isCaseIgnorable && meetsCased ds then 'σ'
    else ofSigma before cs := by
  rw [ofSigma, ofSigma, meetsCased_append]
  by_cases hall : cs.all isCaseIgnorable = true
  · rw [if_pos hall, hall, meetsCased_of_all hall]
    cases meetsCased before <;> cases meetsCased ds <;> rfl
  · rw [if_neg hall]
    simp [hall]

/-- A look around for case does not pass over a capital sigma. -/
theorem not_endsInSigma_of_all (h : cs.all isCaseIgnorable = true) :
    endsInSigma before cs = false := by
  induction cs generalizing before with
  | nil => rfl
  | cons c cs ih =>
    rw [List.all_cons, Bool.and_eq_true] at h
    have hc : (c == 'Σ') = false := by
      refine beq_eq_false_iff_ne.2 fun heq => ?_
      have hsigma : isCaseIgnorable 'Σ' = false := by decide +kernel
      rw [← heq, h.1] at hsigma
      cases hsigma
    rw [endsInSigma, hc, ih h.2]
    rfl

/-- Texts are lowercased one after the other, unless the first one loses its final sigma. -/
theorem ofCharsAfter_append (h : (endsInSigma before cs && meetsCased ds) = false) :
    ofCharsAfter before (cs ++ ds) =
      ofCharsAfter before cs ++ ofCharsAfter (cs.reverse ++ before) ds := by
  -- what stands before grows, since a sigma looks back over it
  induction cs generalizing before with
  | nil => rfl
  | cons c cs ih =>
    rw [endsInSigma, Bool.and_or_distrib_right, Bool.or_eq_false_iff] at h
    have hhead : (if c = 'Σ' then [ofSigma before (cs ++ ds)] else ofChar c) =
        if c = 'Σ' then [ofSigma before cs] else ofChar c := by
      split
      · rename_i hc
        have hkeeps := h.1
        rw [hc, beq_self_eq_true, Bool.true_and] at hkeeps
        rw [ofSigma_append, if_neg (by simp [hkeeps])]
      · rfl
    rw [List.cons_append, ofCharsAfter, hhead, ih h.2, ofCharsAfter, List.append_assoc,
      List.reverse_cons, List.append_assoc]
    rfl

/-- A final sigma that is lost is a small sigma in the lowercase form of the whole. -/
theorem exists_sigma (h : endsInSigma before cs = true) (hcased : meetsCased ds = true) :
    ∃ common rest rest', ofCharsAfter before cs = common ++ 'ς' :: rest ∧
      ofCharsAfter before (cs ++ ds) = common ++ 'σ' :: rest' := by
  induction cs generalizing before with
  | nil => cases h
  | cons c cs ih =>
    rw [endsInSigma, Bool.or_eq_true] at h
    rcases h with hhere | hlater
    · -- the sigma is the first character
      simp only [Bool.and_eq_true, beq_iff_eq] at hhere
      rcases hhere with ⟨⟨rfl, hbefore⟩, hall⟩
      have hfinal : ofSigma before cs = 'ς' := by
        rw [ofSigma, hbefore, meetsCased_of_all hall]
        rfl
      have hsmall : ofSigma before (cs ++ ds) = 'σ' := by
        rw [ofSigma_append, if_pos (by simp [hbefore, hall, hcased])]
      refine ⟨[], ofCharsAfter ('Σ' :: before) cs, ofCharsAfter ('Σ' :: before) (cs ++ ds), ?_, ?_⟩
      · rw [ofCharsAfter, if_pos rfl, hfinal]
        rfl
      · rw [List.cons_append, ofCharsAfter, if_pos rfl, hsmall]
        rfl
    · -- a capital sigma before the last one sees that one, and nothing behind it
      have hall : ¬ cs.all isCaseIgnorable = true := fun hall =>
        absurd hlater (by simp [not_endsInSigma_of_all hall])
      have hsame : ofSigma before (cs ++ ds) = ofSigma before cs := by
        rw [ofSigma_append, if_neg (by simp [hall])]
      rcases ih hlater with ⟨common, rest, rest', hcs, happend⟩
      refine ⟨(if c = 'Σ' then [ofSigma before cs] else ofChar c) ++ common, rest, rest', ?_, ?_⟩
      · rw [ofCharsAfter, hcs, List.append_assoc]
      · rw [List.cons_append, ofCharsAfter, happend, hsame, List.append_assoc]

end Lowercase

/-! ## Stems and keys -/

namespace Key

theorem ofText_append (s t : String) : ofText (s ++ t) = ofText s ++ ofText t := by
  simp [ofText]

end Key

namespace TextIndex

/-- The stem of a text starts the key of a text that goes on from it, whatever follows the key,
unless case is folded and a final sigma is lost. -/
theorem stem_isPrefix_iff (fold : Bool) (s rest : String) (more : Key) :
    stem fold s <+: key fold (s ++ rest) ++ more ↔
      (fold && Lowercase.losesFinal s rest) = false := by
  rw [key, stem, stem, normal, normal, Lowercase.losesFinal]
  cases fold with
  | false =>
    simp only [Bool.false_eq_true, if_false, Bool.false_and, iff_true, Key.ofText_append,
      List.append_assoc]
    exact List.prefix_append _ _
  | true =>
    simp only [if_true, Bool.true_and, Lowercase.ofText, Lowercase.ofChars, Key.ofText,
      String.toList_ofList, String.toList_append]
    cases hloses : Lowercase.endsInSigma [] s.toList && Lowercase.meetsCased rest.toList with
    | false =>
      rw [Lowercase.ofCharsAfter_append hloses, List.flatMap_append]
      simp only [List.append_assoc, iff_true]
      exact List.prefix_append _ _
    | true =>
      rcases Bool.and_eq_true_iff.1 hloses with ⟨hends, hcased⟩
      rcases Lowercase.exists_sigma hends hcased with ⟨common, tail, tail', hs, happend⟩
      rw [hs, happend]
      simp only [List.flatMap_append, List.flatMap_cons, List.append_assoc, reduceCtorEq, iff_false]
      rw [List.prefix_append_right_inj]
      -- the two sigmas differ in their second byte
      rintro ⟨_, heq⟩
      have hbytes : String.utf8EncodeChar 'ς' = [0xcf, 0x82] ∧
          String.utf8EncodeChar 'σ' = [0xcf, 0x83] := by decide
      rw [hbytes.1, hbytes.2] at heq
      simp at heq

end TextIndex

/-! ## Indexes over texts -/

namespace Indexer

/-- The indexer is over the texts of a field, which holds one at most, or several. -/
inductive IsOverTexts (fold : Bool) : Indexer α → (α → List String) → Prop
  | single (field : α → Option String) :
    IsOverTexts fold (.single (TextIndex.single field fold)) fun o => (field o).toList
  | each (field : α → List String) : IsOverTexts fold (.multi (TextIndex.each field fold)) field

namespace IsOverTexts

variable {fold : Bool} {indexer : Indexer α} {texts : α → List String}

theorem stem?_text (h : indexer.IsOverTexts fold texts) (s : String) :
    indexer.args.stem? [.text s] = some (.ok (TextIndex.stem fold s)) := by
  cases h <;> rfl

/-- An object has the keys of its texts that are not empty. -/
theorem exists_keys (h : indexer.IsOverTexts fold texts) (o : α) :
    ∃ keys, indexer.keys o = .ok keys ∧
      ∀ k, k ∈ keys ↔ ∃ s ∈ texts o, s ≠ "" ∧ TextIndex.key fold s = k := by
  cases h with
  | single field =>
    refine ⟨_, rfl, fun k => ?_⟩
    simp [and_assoc]
  | each =>
    refine ⟨_, rfl, fun k => ?_⟩
    simp [and_assoc]

end IsOverTexts

end Indexer

end SnapStore
