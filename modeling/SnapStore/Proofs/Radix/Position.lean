import SnapStore.Proofs.Radix.Spots

/-! # Siblings by position

The readers and edits of a node go along its children until one fits. Here the same children are
reached by position: the place of a label is found by bisection, bytes and children are taken out
of their lists by index, keys are cut at an offset, and what is done over and over is a loop. Each
of these can fail, and then says how: a position is beyond the end, a number falls below zero, or a
loop has not ended within the turns it was given. Among siblings that ascend by their labels none
of them does.

Main statements: `exists_loop` (a loop whose turns come closer to an end does end) and
`exists_place` (bisection finds where a label stands, or where it would).
-/

namespace SnapStore

universe u v w

/-- How a step by position can fail. -/
inductive Fault where
  /-- A position beyond the end of a list. -/
  | range
  /-- A number below zero. -/
  | underflow
  /-- A loop that has not ended within its turns. -/
  | unfinished
  deriving DecidableEq, Repr

namespace Node

theorem WfEdges.pairwise_before {V : Type u} {path : Key} {ns : List (Node V)}
    (h : WfEdges path ns) : ns.Pairwise Before := by
  induction ns with
  | nil => exact .nil
  | cons n ns ih =>
    simp only [WfEdges] at h
    exact .cons h.2.2.2.1 (ih h.2.2.2.2)

end Node

namespace Checked

/-! ## Lists and numbers -/

section Lists

variable {α : Type u} {β : Type v}

theorem ok_bind (a : α) (f : α → Except Fault β) : (Except.ok a).bind f = f a := rfl

/-- The item at a position. -/
def item (xs : List α) (i : Nat) : Except Fault α :=
  match xs[i]? with
  | some x => .ok x
  | none => .error .range

/-- The list with another item at a position. -/
def replace (xs : List α) (i : Nat) (x : α) : Except Fault (List α) :=
  if i < xs.length then .ok (xs.set i x) else .error .range

/-- The list with one more item at a position, which may be the end. -/
def place (xs : List α) (i : Nat) (x : α) : Except Fault (List α) :=
  if i ≤ xs.length then .ok (xs.take i ++ x :: xs.drop i) else .error .range

/-- The list without the item at a position. -/
def remove (xs : List α) (i : Nat) : Except Fault (List α) :=
  if i < xs.length then .ok (xs.eraseIdx i) else .error .range

/-- The list up to a position. -/
def upTo (xs : List α) (i : Nat) : Except Fault (List α) :=
  if i ≤ xs.length then .ok (xs.take i) else .error .range

/-- The list from a position on. -/
def behind (xs : List α) (i : Nat) : Except Fault (List α) :=
  if i ≤ xs.length then .ok (xs.drop i) else .error .range

/-- A number less another one. -/
def minus (a b : Nat) : Except Fault Nat :=
  if b ≤ a then .ok (a - b) else .error .underflow

variable (front back : List α) (x y : α)

theorem item_cons_zero (xs : List α) : item (x :: xs) 0 = .ok x := rfl

theorem item_append : item (front ++ x :: back) front.length = .ok x := by
  simp [item]

theorem replace_append :
    replace (front ++ x :: back) front.length y = .ok (front ++ y :: back) := by
  simp [replace]

theorem place_append : place (front ++ back) front.length x = .ok (front ++ x :: back) := by
  simp [place]

theorem remove_append : remove (front ++ x :: back) front.length = .ok (front ++ back) := by
  simp [remove, List.eraseIdx_append_of_length_le]

theorem upTo_append : upTo (front ++ back) front.length = .ok front := by
  simp [upTo]

theorem behind_append : behind (front ++ back) front.length = .ok back := by
  simp [behind]

/-- A stem can be cut off a key. -/
theorem behind_of_after? {stem key rest : Key} (h : stem.after? key = some rest) :
    behind key stem.length = .ok rest := by
  rw [Key.after?_eq_some_iff.1 h, behind_append]

theorem startsWith_of_some {stem key rest : Key} (h : stem.after? key = some rest) :
    key.startsWith stem = true := by
  rw [Key.startsWith, h, Option.isSome_some]

theorem startsWith_of_none {stem key : Key} (h : stem.after? key = none) :
    key.startsWith stem = false := by
  rw [Key.startsWith, h, Option.isSome_none]

theorem upTo_of_le {xs : List α} {i : Nat} (h : i ≤ xs.length) : upTo xs i = .ok (xs.take i) := by
  rw [upTo, if_pos h]

theorem behind_of_le {xs : List α} {i : Nat} (h : i ≤ xs.length) :
    behind xs i = .ok (xs.drop i) := by
  rw [behind, if_pos h]

theorem minus_of_le {a b : Nat} (h : b ≤ a) : minus a b = .ok (a - b) := by
  rw [minus, if_pos h]

end Lists

/-! ## Loops -/

section Loops

variable {σ : Type u} {α : Type v}

/-- What one turn of a loop comes to: another turn, or an answer. -/
inductive Turn (σ : Type u) (α : Type v) where
  | next (s : σ)
  | done (a : α)

/-- A loop that may take so many turns. -/
def loop (turn : σ → Except Fault (Turn σ α)) : Nat → σ → Except Fault α
  | 0, _ => .error .unfinished
  | turns + 1, s => (turn s).bind fun
    | .next s => loop turn turns s
    | .done a => .ok a

/-- The turn keeps to `inv` and comes closer to the end, or ends with an answer as wanted. -/
def Turn.Advances (inv : σ → Prop) (distance : σ → Nat) (wanted : α → Prop) (s : σ) :
    Turn σ α → Prop
  | next s' => inv s' ∧ distance s' < distance s
  | done a => wanted a

variable {turn : σ → Except Fault (Turn σ α)} {inv : σ → Prop} {distance : σ → Nat}
  {wanted : α → Prop}

/-- A loop ends, without a fault, if every turn succeeds and comes closer to the end. -/
theorem exists_loop
    (h : ∀ s, inv s → ∃ t, turn s = .ok t ∧ t.Advances inv distance wanted s) (turns : Nat) :
    ∀ s, inv s → distance s < turns → ∃ a, loop turn turns s = .ok a ∧ wanted a := by
  induction turns with
  | zero =>
    intro s _ hlt
    omega
  | succ turns ih =>
    intro s hs hlt
    obtain ⟨t, ht, hadv⟩ := h s hs
    rw [loop, ht, ok_bind]
    cases t with
    | done a => exact ⟨a, rfl, hadv⟩
    | next s' =>
      have hcloser : distance s' < distance s := hadv.2
      exact ih s' hadv.1 (by omega)

/-- A loop whose answer is known beforehand. -/
theorem loop_eq_ok {a : α}
    (h : ∀ s, inv s → ∃ t, turn s = .ok t ∧ t.Advances inv distance (· = a) s) {turns : Nat}
    {s : σ} (hs : inv s) (hlt : distance s < turns) : loop turn turns s = .ok a := by
  obtain ⟨a', hloop, rfl⟩ := exists_loop h turns s hs hlt
  exact hloop

end Loops

/-! ## Bisection -/

variable {V : Type u}

/-- The first byte of the chunk of a node. -/
def label (n : Node V) : Except Fault UInt8 :=
  item n.chunk 0

/-- Where a label stands among siblings, or where a node with this label would be put. -/
inductive Place where
  | found (i : Nat)
  | missing (i : Nat)
  deriving DecidableEq, Repr

/-- One turn of the bisection of the siblings from a position up to another one. -/
def bisect (ns : List (Node V)) (b : UInt8) : Nat × Nat → Except Fault (Turn (Nat × Nat) Place)
  | (low, high) =>
    if high ≤ low then .ok (.done (.missing low))
    else
      let middle := low + (high - low) / 2
      (item ns middle).bind fun n =>
        (label n).bind fun c =>
          if c = b then .ok (.done (.found middle))
          else if c < b then .ok (.next (middle + 1, high))
          else .ok (.next (low, middle))

/-- Looks for a label among siblings. -/
def position (ns : List (Node V)) (b : UInt8) : Except Fault Place :=
  loop (bisect ns b) (ns.length + 1) (0, ns.length)

theorem label_eq_ok {n : Node V} {b : UInt8} (h : n.label? = some b) : label n = .ok b := by
  rw [Node.label?, List.head?_eq_getElem?] at h
  rw [label, item, h]

/-- All nodes have labels below a byte. -/
def Below (b : UInt8) (ns : List (Node V)) : Prop :=
  ∀ n ∈ ns, ∃ c, n.label? = some c ∧ c < b

/-- All nodes have labels above a byte. -/
def Above (b : UInt8) (ns : List (Node V)) : Prop :=
  ∀ n ∈ ns, ∃ c, n.label? = some c ∧ b < c

/-- What a place tells about the siblings before it and behind it. -/
inductive Around (ns : List (Node V)) (b : UInt8) : Place → Prop
  | found {front back : List (Node V)} {n : Node V} (split : ns = front ++ n :: back)
    (label : n.label? = some b) (below : Below b front) (above : Above b back) :
    Around ns b (.found front.length)
  | missing {front back : List (Node V)} (split : ns = front ++ back)
    (below : Below b front) (above : Above b back) : Around ns b (.missing front.length)

variable {b c : UInt8} {n : Node V} {ns front back : List (Node V)} {path : Key}

theorem Below.ne (h : Below b ns) : ∀ n ∈ ns, n.label? ≠ some b := by
  intro n hn hb
  obtain ⟨c, hc, hlt⟩ := h n hn
  obtain rfl : c = b := Option.some.inj (hc.symm.trans hb)
  exact UInt8.lt_irrefl c hlt

theorem Above.ne (h : Above b ns) : ∀ n ∈ ns, n.label? ≠ some b := by
  intro n hn hb
  obtain ⟨c, hc, hlt⟩ := h n hn
  obtain rfl : c = b := Option.some.inj (hc.symm.trans hb)
  exact UInt8.lt_irrefl c hlt

theorem Below.concat (h : Below c ns) (hn : n.label? = some c) (hcb : c < b) :
    Below b (ns ++ [n]) := by
  intro m hm
  rcases List.mem_append.1 hm with hm | hm
  · obtain ⟨a, ha, hac⟩ := h m hm
    exact ⟨a, ha, UInt8.lt_trans hac hcb⟩
  · obtain rfl := List.mem_singleton.1 hm
    exact ⟨c, hn, hcb⟩

theorem Above.cons (h : Above c ns) (hn : n.label? = some c) (hbc : b < c) :
    Above b (n :: ns) := by
  intro m hm
  rcases List.mem_cons.1 hm with rfl | hm
  · exact ⟨c, hn, hbc⟩
  · obtain ⟨a, ha, hca⟩ := h m hm
    exact ⟨a, ha, UInt8.lt_trans hbc hca⟩

/-! ### Siblings of a well-formed node -/

/-- Siblings ascend: those before a node have smaller labels, those behind it larger ones. -/
theorem below_and_above (h : Node.WfEdges path (front ++ n :: back)) (hn : n.label? = some c) :
    Below c front ∧ Above c back := by
  have hpairs := h.pairwise_before
  rw [List.pairwise_append, List.pairwise_cons] at hpairs
  obtain ⟨_, ⟨hbehind, _⟩, hbefore⟩ := hpairs
  constructor
  · intro m hm
    obtain ⟨a, _, _, ha, _⟩ := (h.stands (List.mem_append_left _ hm)).exists_label
    exact ⟨a, ha, hbefore m hm n List.mem_cons_self a ha c hn⟩
  · intro m hm
    have hmem : m ∈ front ++ n :: back := List.mem_append_right _ (List.mem_cons_of_mem n hm)
    obtain ⟨a, _, _, ha, _⟩ := (h.stands hmem).exists_label
    exact ⟨a, ha, hbehind m hm c hn a ha⟩

/-- Two positions enclose where a label stands, or would stand. -/
def Encloses (ns : List (Node V)) (b : UInt8) (range : Nat × Nat) : Prop :=
  ∃ front inner back, ns = front ++ (inner ++ back) ∧ range.1 = front.length ∧
    range.2 = front.length + inner.length ∧ Below b front ∧ Above b back

/-- A list that is not empty has a middle. -/
theorem exists_middle {α : Type u} {xs : List α} (h : xs ≠ []) :
    ∃ left x right, xs = left ++ x :: right ∧ left.length = xs.length / 2 := by
  have hlt : xs.length / 2 < xs.length := by
    have hpos : 0 < xs.length := List.length_pos_iff.2 h
    omega
  refine ⟨xs.take (xs.length / 2), xs[xs.length / 2], xs.drop (xs.length / 2 + 1), ?_, ?_⟩
  · simp
  · rw [List.length_take]
    omega

/-- One turn of a bisection whose middle is known. -/
theorem bisect_eq (front back : List (Node V)) {low high : Nat} (hlow : low < high)
    (hmiddle : low + (high - low) / 2 = front.length) (hn : n.label? = some c) :
    bisect (front ++ n :: back) b (low, high) = .ok
      (if c = b then .done (.found front.length)
      else if c < b then .next (front.length + 1, high) else .next (low, front.length)) := by
  simp only [bisect, if_neg (Nat.not_le.2 hlow), hmiddle, item_append, label_eq_ok hn, ok_bind]
  split
  · rfl
  · split <;> rfl

/-- Each turn of a bisection finds the label, or encloses it in one half of the siblings. -/
theorem advances_bisect (h : Node.WfEdges path ns) {range : Nat × Nat}
    (henc : Encloses ns b range) :
    ∃ t, bisect ns b range = .ok t ∧
      t.Advances (Encloses ns b) (fun range => range.2 - range.1) (Around ns b) range := by
  obtain ⟨front, inner, back, rfl, hlow, hhigh, hfront, hback⟩ := henc
  obtain ⟨low, high⟩ := range
  obtain rfl : low = front.length := hlow
  obtain rfl : high = front.length + inner.length := hhigh
  by_cases hnil : inner = []
  · -- nothing is left between the two positions
    subst hnil
    refine ⟨.done (.missing front.length), ?_, .missing (by simp) hfront hback⟩
    rw [bisect, if_pos (by simp)]
  · have hpos : 0 < inner.length := List.length_pos_iff.2 hnil
    obtain ⟨left, n, right, rfl, hleft⟩ := exists_middle hnil
    -- the middle child splits all siblings
    have hsplit : front ++ ((left ++ n :: right) ++ back) =
        (front ++ left) ++ n :: (right ++ back) := by simp
    have hlength : (front ++ left).length = front.length + left.length := List.length_append
    have hmiddle : front.length + (front.length + (left ++ n :: right).length - front.length) / 2 =
        (front ++ left).length := by omega
    rw [hsplit] at h ⊢
    obtain ⟨c, _, _, hc, _⟩ := (h.stands (n := n) (by simp)).exists_label
    obtain ⟨hbelow, habove⟩ := below_and_above h hc
    rw [bisect_eq _ _ (by omega) hmiddle hc]
    refine ⟨_, rfl, ?_⟩
    split
    · rename_i heq
      subst heq
      exact .found rfl hc hbelow habove
    · rename_i hne
      split
      · -- the label is that of a node behind the middle
        rename_i hlt
        have hend : ((front ++ left) ++ [n]).length = (front ++ left).length + 1 :=
          List.length_append
        refine ⟨⟨(front ++ left) ++ [n], right, back, by simp, hend.symm, ?_,
          hbelow.concat hc hlt, hback⟩, ?_⟩
        · simp only [List.length_append, List.length_cons, List.length_nil]
          omega
        · simp only [List.length_append, List.length_cons]
          omega
      · rename_i hnotlt
        have hgt : b < c := UInt8.lt_of_le_of_ne (UInt8.not_lt.1 hnotlt) (Ne.symm hne)
        refine ⟨⟨front, left, n :: (right ++ back), by simp, rfl, by simp, hfront,
          habove.cons hc hgt⟩, ?_⟩
        simp only [List.length_append, List.length_cons]
        omega

/-- Among well-formed siblings, bisection finds where a label stands. -/
theorem exists_place (h : Node.WfEdges path ns) (b : UInt8) :
    ∃ p, position ns b = .ok p ∧ Around ns b p := by
  refine exists_loop (fun range henc => advances_bisect h henc) (ns.length + 1) (0, ns.length) ?_
    (by simp)
  refine ⟨[], ns, [], by simp, rfl, by simp, ?_, ?_⟩
  · intro m hm
    cases hm
  · intro m hm
    cases hm

-- a node without a chunk has no label that could be looked at
example : position [(.mk [] ⟨⟨0, 0, 0⟩, 0, .node⟩ none [] : Node Nat)] 7 = .error .range := rfl

end Checked

end SnapStore
