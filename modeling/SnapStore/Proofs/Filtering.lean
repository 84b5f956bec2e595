import Mathlib.Data.List.Basic
import SnapStore.Filter

/-! # What a filter passes on

A source may answer its pulls with whatever it likes, and go on after it has answered with
none. A filter sees of it no more than the items up to the first none: it asks the predicate
about each of them once, in order, passes on those that are not skipped, and pulls no further
than the calls need.

A list of answers stands for every source that gives these answers, as long as no call pulls
beyond the list.

Main statement: `passes_on_kept`.
-/

namespace SnapStore

universe u v

namespace Filter

variable {σ : Type u} {ι : Type v} (skip : σ → ι → Bool × σ) (state : σ)

/-- The state of the predicate after it was asked about items, one after another. -/
def stateAfter (items : List ι) : σ :=
  items.foldl (fun state x => (skip state x).2) state

/-- The items of which the predicate, asked about one after another, does not hold. -/
def kept : σ → List ι → List ι
  | _, [] => []
  | state, x :: xs =>
    if (skip state x).1 then kept (skip state x).2 xs else x :: kept (skip state x).2 xs

/-- After so many calls over a source, with these results. -/
structure PassesOn (source : Nat → Option ι) (n : Nat) (results : List (Option ι))
    (f : Filter σ ι) : Prop where
  /-- The predicate was asked about the items of the source, each once and in order. -/
  asked : ∀ k x, f.asked[k]? = some x → source k = some x
  /-- The predicate is in the state these questions led to. -/
  answered : f.state = stateAfter skip state f.asked
  /-- The results are the items that were kept, and behind them nothing. -/
  results : results = (kept skip state f.asked).map some ++
    List.replicate (n - (kept skip state f.asked).length) none
  /-- There was a call to answer at every pull. -/
  needed : ∀ k < f.asked.length, (kept skip state (f.asked.take k)).length < n
  /-- All calls were answered by items, or the source answered with none and was not pulled
  any more. -/
  pulls : (kept skip state f.asked).length = n ∧ f.pulls = f.asked.length ∨
    (kept skip state f.asked).length < n ∧ source f.asked.length = none ∧
      f.pulls = f.asked.length + 1

/-! ## Items one after another -/

@[simp] theorem stateAfter_nil : stateAfter skip state [] = state := rfl

@[simp] theorem stateAfter_append (xs ys : List ι) :
    stateAfter skip state (xs ++ ys) = stateAfter skip (stateAfter skip state xs) ys :=
  List.foldl_append

@[simp] theorem kept_nil : kept skip state [] = [] := rfl

theorem kept_singleton (x : ι) :
    kept skip state [x] = if (skip state x).1 then [] else [x] := by
  simp [kept]

@[simp] theorem kept_append (xs ys : List ι) :
    kept skip state (xs ++ ys) = kept skip state xs ++ kept skip (stateAfter skip state xs) ys := by
  induction xs generalizing state with
  | nil => rfl
  | cons x xs ih =>
    have hrest := ih (skip state x).2
    simp only [List.cons_append, kept, hrest]
    split <;> rfl

variable {skip state}

/-! ## One call -/

/-- A call pulls past the items that are skipped, and ends at the first one that is not or at
an answer with none. -/
theorem pull_cases (skip : σ → ι → Bool × σ) (answers : List (Option ι)) (f : Filter σ ι) :
    ∃ skipped : List ι, kept skip f.state skipped = [] ∧
      ((∃ x rest, answers = skipped.map some ++ some x :: rest ∧
          (skip (stateAfter skip f.state skipped) x).1 = false ∧
          pull skip answers f = (some x, { f with
            answers := rest
            state := stateAfter skip f.state (skipped ++ [x])
            pulls := f.pulls + (skipped.length + 1)
            asked := f.asked ++ (skipped ++ [x]) })) ∨
        ∃ rest, answers = skipped.map some ++ rest ∧ rest.getD 0 none = none ∧
          pull skip answers f = (none, { f with
            answers := rest.tail
            state := stateAfter skip f.state skipped
            done := true
            pulls := f.pulls + (skipped.length + 1)
            asked := f.asked ++ skipped })) := by
  induction answers generalizing f with
  | nil => exact ⟨[], rfl, .inr ⟨[], rfl, rfl, by simp [pull]⟩⟩
  | cons answer rest ih =>
    cases answer with
    | none => exact ⟨[], rfl, .inr ⟨none :: rest, rfl, rfl, by simp [pull]⟩⟩
    | some x =>
      cases hx : (skip f.state x).1 with
      | false => exact ⟨[], rfl, .inl ⟨x, rest, rfl, hx, by simp [pull, hx, stateAfter]⟩⟩
      | true =>
        -- the item is skipped, and the call goes on behind it
        rcases ih { f with
          answers := rest
          state := (skip f.state x).2
          pulls := f.pulls + 1
          asked := f.asked ++ [x] } with
          ⟨skipped, hkept, ⟨y, rest', hrest, hy, hpull⟩ | ⟨rest', hrest, hnone, hpull⟩⟩
        · refine ⟨x :: skipped, by simpa [kept, hx] using hkept, .inl ⟨y, rest', ?_, hy, ?_⟩⟩
          · rw [hrest, List.map_cons, List.cons_append]
          · simp only [pull, hx, if_true, hpull]
            simp [stateAfter, Nat.add_assoc, Nat.add_comm 1]
        · refine ⟨x :: skipped, by simpa [kept, hx] using hkept, .inr ⟨rest', ?_, hnone, ?_⟩⟩
          · rw [hrest, List.map_cons, List.cons_append]
          · simp only [pull, hx, if_true, hpull]
            simp [stateAfter, Nat.add_assoc, Nat.add_comm 1]

/-- The last of several calls is made in the filter that the calls before it left. -/
theorem take_succ (n : Nat) (f : Filter σ ι) :
    take skip (n + 1) f =
      ((take skip n f).1 ++ [((take skip n f).2.next skip).1],
        ((take skip n f).2.next skip).2) := by
  induction n generalizing f with
  | zero => rfl
  | succ n ih =>
    have hrest := ih (f.next skip).2
    rw [take]
    simp only [hrest]
    rfl

/-! ## Any number of calls -/

theorem length_kept_take_le (skip : σ → ι → Bool × σ) (state : σ) (xs : List ι) (k : Nat) :
    (kept skip state (xs.take k)).length ≤ (kept skip state xs).length := by
  conv_rhs => rw [← List.take_append_drop k xs, kept_append, List.length_append]
  exact Nat.le_add_right _ _

/-- Items asked about and the ones behind them in the source. -/
theorem asked_append {answers : List (Option ι)} {xs more : List ι} {tail : List (Option ι)}
    (hxs : ∀ k x, xs[k]? = some x → answers.getD k none = some x)
    (hmore : answers.drop xs.length = more.map some ++ tail) (k : Nat) (x : ι)
    (hk : (xs ++ more)[k]? = some x) : answers.getD k none = some x := by
  rcases Nat.lt_or_ge k xs.length with hlt | hge
  · exact hxs k x (by rwa [List.getElem?_append_left hlt] at hk)
  · rw [List.getElem?_append_right hge] at hk
    have hlt : k - xs.length < (more.map some).length := by
      simpa using (List.getElem?_eq_some_iff.1 hk).1
    have hdrop : answers[k]? = (answers.drop xs.length)[k - xs.length]? := by
      rw [List.getElem?_drop, Nat.add_sub_cancel' hge]
    rw [List.getD_eq_getElem?_getD, hdrop, hmore, List.getElem?_append_left hlt,
      List.getElem?_map, hk]
    rfl

/-- What the calls so far left of a source that answers from a list. -/
structure Calls (skip : σ → ι → Bool × σ) (state : σ) (answers : List (Option ι)) (n : Nat)
    (results : List (Option ι)) (f : Filter σ ι) : Prop
    extends PassesOn skip state (fun k => answers.getD k none) n results f where
  rest : f.answers = answers.drop f.pulls
  done : f.done = true ↔ (kept skip state f.asked).length < n

theorem Calls.zero (answers : List (Option ι)) :
    Calls skip state answers 0 [] { answers := answers, state := state } where
  asked := by simp
  answered := rfl
  results := by simp
  needed := by simp
  pulls := .inl ⟨rfl, rfl⟩
  rest := rfl
  done := by simp

/-- The source has answered with none, and one more call leaves it alone. -/
theorem Calls.next_of_done {answers : List (Option ι)} {n : Nat} {results : List (Option ι)}
    {f : Filter σ ι} (h : Calls skip state answers n results f) (hdone : f.done = true) :
    Calls skip state answers (n + 1) (results ++ [none]) f := by
  have hshort := h.done.1 hdone
  refine { h with
    results := ?_
    needed := fun k hk => Nat.lt_succ_of_lt (h.needed k hk)
    pulls := ?_
    done := iff_of_true hdone (Nat.lt_succ_of_lt hshort) }
  · rw [h.results, Nat.succ_sub (Nat.le_of_lt hshort), List.replicate_succ', List.append_assoc]
  · rcases h.pulls with ⟨hall, -⟩ | ⟨-, hnone, hpulls⟩
    · omega
    · exact .inr ⟨Nat.lt_succ_of_lt hshort, hnone, hpulls⟩

section Going

variable {answers : List (Option ι)} {n : Nat} {results : List (Option ι)} {f : Filter σ ι}
  (h : Calls skip state answers n results f) (hdone : ¬ f.done = true)

include h hdone

/-- As long as the source has not answered with none, every call got an item. -/
theorem Calls.going : (kept skip state f.asked).length = n ∧ f.pulls = f.asked.length ∧
    results = (kept skip state f.asked).map some ∧
      f.answers = answers.drop f.asked.length := by
  rcases h.pulls with ⟨hall, hpulls⟩ | ⟨hshort, -⟩
  · refine ⟨hall, hpulls, ?_, by rw [h.rest, hpulls]⟩
    rw [h.results, hall, Nat.sub_self, List.replicate_zero, List.append_nil]
  · exact absurd (h.done.2 hshort) hdone

/-- One more call that ends at an item. -/
theorem Calls.next_item {skipped : List ι} {x : ι} {rest : List (Option ι)}
    (hskipped : kept skip f.state skipped = [])
    (hanswers : f.answers = skipped.map some ++ some x :: rest)
    (hx : (skip (stateAfter skip f.state skipped) x).1 = false) :
    Calls skip state answers (n + 1) (results ++ [some x]) { f with
      answers := rest
      state := stateAfter skip f.state (skipped ++ [x])
      pulls := f.pulls + (skipped.length + 1)
      asked := f.asked ++ (skipped ++ [x]) } := by
  obtain ⟨hall, hpulls, hresults, hrest⟩ := h.going hdone
  rw [h.answered] at hskipped hx
  rw [← stateAfter_append] at hx
  rw [hrest] at hanswers
  have hmore : answers.drop f.asked.length = (skipped ++ [x]).map some ++ rest := by
    simpa using hanswers
  have hlength : (skipped ++ [x]).length = skipped.length + 1 := by simp
  have hkept : kept skip state (f.asked ++ skipped) = kept skip state f.asked := by
    rw [kept_append, hskipped, List.append_nil]
  have hkept' : kept skip state (f.asked ++ (skipped ++ [x])) =
      kept skip state f.asked ++ [x] := by
    rw [← List.append_assoc, kept_append, hkept, kept_singleton, hx]
    rfl
  refine ⟨⟨asked_append h.asked hmore, ?_, ?_, ?_, ?_⟩, ?_, ?_⟩
  · simp only [h.answered, stateAfter_append]
  · simp [hkept', hresults, hall]
  · -- before the last pull the items kept are those of the calls before
    intro k hk
    have hk : k ≤ (f.asked ++ skipped).length := by
      simp only [List.length_append, List.length_singleton] at hk ⊢
      omega
    rw [← List.append_assoc, List.take_append_of_le_length hk]
    have hle := length_kept_take_le skip state (f.asked ++ skipped) k
    rw [hkept, hall] at hle
    exact Nat.lt_succ_of_le hle
  · refine .inl ⟨by simp [hkept', hall], ?_⟩
    simp only [hpulls, List.length_append, hlength]
  · simp only [hpulls]
    rw [← List.drop_drop, hmore, ← hlength, ← List.length_map some, List.drop_left]
  · exact iff_of_false hdone (by simp [hkept', hall])

/-- One more call that ends at an answer with none. -/
theorem Calls.next_none {skipped : List ι} {rest : List (Option ι)}
    (hskipped : kept skip f.state skipped = [])
    (hanswers : f.answers = skipped.map some ++ rest) (hnone : rest.getD 0 none = none) :
    Calls skip state answers (n + 1) (results ++ [none]) { f with
      answers := rest.tail
      state := stateAfter skip f.state skipped
      done := true
      pulls := f.pulls + (skipped.length + 1)
      asked := f.asked ++ skipped } := by
  obtain ⟨hall, hpulls, hresults, hrest⟩ := h.going hdone
  rw [h.answered] at hskipped
  rw [hrest] at hanswers
  have hdrop : answers.drop (f.asked ++ skipped).length = rest := by
    rw [List.length_append, ← List.drop_drop, hanswers, ← List.length_map some, List.drop_left]
  have hkept : kept skip state (f.asked ++ skipped) = kept skip state f.asked := by
    rw [kept_append, hskipped, List.append_nil]
  refine ⟨⟨asked_append h.asked hanswers, ?_, ?_, ?_, ?_⟩, ?_, ?_⟩
  · simp only [h.answered, stateAfter_append]
  · simp [hkept, hresults, hall]
  · intro k _
    have hle := length_kept_take_le skip state (f.asked ++ skipped) k
    rw [hkept, hall] at hle
    exact Nat.lt_succ_of_le hle
  · refine .inr ⟨by simp [hkept, hall], ?_, ?_⟩
    · rw [← hdrop] at hnone
      simpa [List.getD_eq_getElem?_getD] using hnone
    · simp only [hpulls, List.length_append, Nat.add_assoc]
  · simp only [hpulls]
    rw [← Nat.add_assoc, ← List.length_append, ← List.drop_drop, hdrop, List.drop_one]
  · exact iff_of_true rfl (by simp [hkept, hall])

end Going

/-- One more call, and its result. -/
theorem Calls.next {answers : List (Option ι)} {n : Nat} {results : List (Option ι)}
    {f : Filter σ ι} (h : Calls skip state answers n results f) :
    Calls skip state answers (n + 1) (results ++ [(f.next skip).1]) (f.next skip).2 := by
  by_cases hdone : f.done = true
  · rw [Filter.next_of_done hdone]
    exact h.next_of_done hdone
  · have hnext : f.next skip = pull skip f.answers f := by simp [Filter.next, hdone]
    obtain ⟨skipped, hskipped, ⟨x, rest, hanswers, hx, hpull⟩ | ⟨rest, hanswers, hnone, hpull⟩⟩ :=
      pull_cases skip f.answers f
    · rw [hnext, hpull]
      exact h.next_item hdone hskipped hanswers hx
    · rw [hnext, hpull]
      exact h.next_none hdone hskipped hanswers hnone

/-- Any number of calls on a list of answers. -/
theorem calls_take (skip : σ → ι → Bool × σ) (state : σ) (answers : List (Option ι)) (n : Nat) :
    Calls skip state answers n (take skip n { answers := answers, state := state }).1
      (take skip n { answers := answers, state := state }).2 := by
  induction n with
  | zero => exact Calls.zero answers
  | succ n ih =>
    rw [take_succ]
    exact ih.next

/-! ## The items of the source -/

/-- What was asked about is the beginning of the items of the source. -/
theorem asked_eq_take {source : Nat → Option ι} {xs items : List ι}
    (hxs : ∀ k x, xs[k]? = some x → source k = some x)
    (hitems : ∀ k < items.length, source k = items[k]?) (hle : xs.length ≤ items.length) :
    xs = items.take xs.length := by
  refine List.ext_getElem? fun k => ?_
  rcases Nat.lt_or_ge k xs.length with hlt | hge
  · have hsome : xs[k]? = some xs[k] := List.getElem?_eq_getElem hlt
    rw [List.getElem?_take_of_lt hlt, ← hitems k (Nat.lt_of_lt_of_le hlt hle), hsome,
      hxs k _ hsome]
  · rw [List.getElem?_eq_none hge, List.getElem?_eq_none (by rw [List.length_take]; omega)]

/-- Over a source with these items before its first none, the calls get the items that are
kept, and then nothing. -/
theorem PassesOn.results_of_items {source : Nat → Option ι} {n : Nat}
    {results : List (Option ι)} {f : Filter σ ι} (h : PassesOn skip state source n results f)
    {items : List ι} (hitems : ∀ k < items.length, source k = items[k]?)
    (hend : source items.length = none) :
    results = ((kept skip state items).map some).take n ++
      List.replicate (n - (kept skip state items).length) none := by
  have hle : f.asked.length ≤ items.length := by
    by_contra hlt
    have hlt : items.length < f.asked.length := Nat.lt_of_not_le hlt
    have hsome := h.asked _ _ (List.getElem?_eq_getElem hlt)
    rw [hend] at hsome
    exact absurd hsome (by simp)
  have hasked := asked_eq_take h.asked hitems hle
  have hkept : kept skip state items = kept skip state f.asked ++
      kept skip (stateAfter skip state f.asked) (items.drop f.asked.length) := by
    rw [← kept_append]
    conv_rhs => rw [hasked, List.length_take, Nat.min_eq_left hle, List.take_append_drop]
  rw [h.results]
  rcases h.pulls with ⟨hall, -⟩ | ⟨hshort, hnone, -⟩
  · rw [hkept, List.map_append, List.take_left' (by simpa using hall), List.length_append, hall,
      Nat.sub_self, Nat.sub_eq_zero_of_le (Nat.le_add_right _ _)]
  · have hall : f.asked = items := by
      rcases Nat.lt_or_ge f.asked.length items.length with hlt | hge
      · rw [hitems _ hlt, List.getElem?_eq_getElem hlt] at hnone
        exact absurd hnone (by simp)
      · rw [hasked, List.take_of_length_le hge]
    rw [← hall, List.take_of_length_le (by simpa using Nat.le_of_lt hshort)]

/-! ## Sources that go on for ever -/

section Endless

variable (source : Nat → Option ι) (m : Nat)

theorem getD_answers {k : Nat} (hk : k < m) :
    ((List.range m).map source).getD k none = source k := by
  simp [List.getD_eq_getElem?_getD, hk]

theorem getD_answers_of_ge {k : Nat} (hk : m ≤ k) :
    ((List.range m).map source).getD k none = none := by
  simp [List.getD_eq_getElem?_getD, hk]

/-- A source that does not answer with none has an item for every pull. -/
theorem items_of_ne_none (hsome : ∀ k < m, source k ≠ none) :
    ((List.range m).filterMap source).length = m ∧
      ∀ k < m, source k = ((List.range m).filterMap source)[k]? := by
  induction m with
  | zero => simp
  | succ m ih =>
    obtain ⟨hlength, hitems⟩ := ih fun k hk => hsome k (Nat.lt_succ_of_lt hk)
    obtain ⟨x, hx⟩ := Option.ne_none_iff_exists'.1 (hsome m m.lt_succ_self)
    have hsucc : (List.range (m + 1)).filterMap source =
        (List.range m).filterMap source ++ [x] := by
      simp [List.range_succ, List.filterMap_append, hx]
    refine ⟨by rw [hsucc, List.length_append, hlength, List.length_singleton], fun k hk => ?_⟩
    rcases Nat.lt_succ_iff_lt_or_eq.1 hk with hlt | rfl
    · rw [hsucc, List.getElem?_append_left (by rwa [hlength]), hitems k hlt]
    · rw [hsucc, List.getElem?_append_right (Nat.le_of_eq hlength), hlength, Nat.sub_self, hx]
      rfl

variable {source m}

/-- Calls that pull no further than the list are calls over the source it comes from. -/
theorem PassesOn.of_answers {n : Nat} {results : List (Option ι)} {f : Filter σ ι}
    (h : PassesOn skip state (fun k => ((List.range m).map source).getD k none) n results f)
    (hm : f.pulls ≤ m) : PassesOn skip state source n results f where
  asked k x hk := by
    have hsource := h.asked k x hk
    rcases Nat.lt_or_ge k m with hlt | hge
    · rwa [getD_answers source m hlt] at hsource
    · rw [getD_answers_of_ge source m hge] at hsource
      exact absurd hsource (by simp)
  answered := h.answered
  results := h.results
  needed := h.needed
  pulls := by
    rcases h.pulls with hall | ⟨hshort, hnone, hpulls⟩
    · exact .inl hall
    · rw [getD_answers source m (by omega)] at hnone
      exact .inr ⟨hshort, hnone, hpulls⟩

/-- The calls pull no further than the list exactly if it has a none or as many items that
are kept. -/
theorem PassesOn.pulls_le_iff {n : Nat} {results : List (Option ι)} {f : Filter σ ι}
    (h : PassesOn skip state (fun k => ((List.range m).map source).getD k none) n results f) :
    f.pulls ≤ m ↔ (∃ k < m, source k = none) ∨
      n ≤ (kept skip state ((List.range m).filterMap source)).length := by
  have hle : ∀ k < f.asked.length, k < m ∧ source k ≠ none := by
    intro k hk
    have hsource := h.asked k _ (List.getElem?_eq_getElem hk)
    rcases Nat.lt_or_ge k m with hlt | hge
    · rw [getD_answers source m hlt] at hsource
      exact ⟨hlt, by simp [hsource]⟩
    · rw [getD_answers_of_ge source m hge] at hsource
      exact absurd hsource (by simp)
  by_cases hsome : ∃ k < m, source k = none
  · obtain ⟨k, hk, hnone⟩ := hsome
    have hasked : f.asked.length ≤ k := by
      by_contra hlt
      exact (hle k (Nat.lt_of_not_le hlt)).2 hnone
    refine iff_of_true ?_ (.inl ⟨k, hk, hnone⟩)
    rcases h.pulls with ⟨-, hpulls⟩ | ⟨-, -, hpulls⟩ <;> omega
  · obtain ⟨hlength, hitems⟩ := items_of_ne_none source m (by simpa using hsome)
    rw [or_iff_right hsome]
    generalize (List.range m).filterMap source = items at hlength hitems ⊢
    have hm : f.asked.length ≤ m := by
      by_contra hlt
      exact absurd (hle m (Nat.lt_of_not_le hlt)).1 (Nat.lt_irrefl m)
    have hsource : ∀ k x, f.asked[k]? = some x → source k = some x := by
      intro k x hk
      rw [← getD_answers source m (hle k (List.getElem?_eq_some_iff.1 hk).1).1, h.asked k x hk]
    have hasked := asked_eq_take hsource (hlength ▸ hitems) (hlength ▸ hm)
    rcases h.pulls with ⟨hall, hpulls⟩ | ⟨hshort, hnone, hpulls⟩
    · refine iff_of_true (hpulls ▸ hm) ?_
      have hkept := length_kept_take_le skip state items f.asked.length
      rwa [← hasked, hall] at hkept
    · have hge : m ≤ f.asked.length := by
        by_contra hlt
        rw [getD_answers source m (Nat.lt_of_not_le hlt)] at hnone
        exact hsome ⟨_, Nat.lt_of_not_le hlt, hnone⟩
      rw [List.take_of_length_le (hlength ▸ hge)] at hasked
      refine iff_of_false (by omega) ?_
      rw [← hasked]
      exact Nat.not_le_of_lt hshort

end Endless

/-- Over every source and for every predicate that may keep a state, any number of calls pass
on the items before the first none of the source of which the predicate does not hold, in
order, and then nothing. The predicate is asked about each item that is pulled, once and in
order, and no call pulls further than it needs or behind the first none.

The calls over a source that goes on for ever come to an end exactly if it answers with none
or has items enough that are kept, and so many of its answers stand for the source. -/
theorem passes_on_kept (skip : σ → ι → Bool × σ) (state : σ) (n : Nat) :
    (∀ answers : List (Option ι),
      PassesOn skip state (fun k => answers.getD k none) n
        (take skip n { answers := answers, state := state }).1
        (take skip n { answers := answers, state := state }).2) ∧
      (∀ (source : Nat → Option ι) (m : Nat),
        let called := take skip n { answers := (List.range m).map source, state := state }
        (called.2.pulls ≤ m ↔ (∃ k < m, source k = none) ∨
          n ≤ (kept skip state ((List.range m).filterMap source)).length) ∧
        (called.2.pulls ≤ m → PassesOn skip state source n called.1 called.2)) ∧
      ∀ (items : List ι) (behind : List (Option ι)),
        (take skip n { answers := items.map some ++ none :: behind, state := state }).1 =
          ((kept skip state items).map some).take n ++
            List.replicate (n - (kept skip state items).length) none := by
  have hcalls := fun answers => (calls_take skip state answers n).toPassesOn
  refine ⟨hcalls, fun source m => ?_, fun items behind => ?_⟩
  · have hm := hcalls ((List.range m).map source)
    exact ⟨hm.pulls_le_iff, hm.of_answers⟩
  · refine (hcalls (items.map some ++ none :: behind)).results_of_items (fun k hk => ?_) ?_
    · simp [List.getD_eq_getElem?_getD, List.getElem?_append_left, hk]
    · simp

/-- The source goes on behind its first none, and is not pulled again. -/
example : (take (fun (asked : Nat) (_ : Nat) => (asked % 2 == 1, asked + 1)) 5
    { answers := [some 1, some 2, some 3, none, some 4], state := 0 }).1 =
      [some 1, some 3, none, none, none] := by
  decide

end Filter

end SnapStore
