import SnapStore.Proofs.Radix.Cursor
import SnapStore.Proofs.Radix.Position
import SnapStore.Proofs.Radix.Walk

/-! # Walks by position

Each way down a tree is a loop: one turn looks at a node, finds by position the child that comes
next, and cuts off what the search has used. In a well-formed tree no turn fails, and a turn that
goes on comes closer to the end twice over: the child is less high than the node, and, as its chunk
is not empty, less of the search is left. So a walk ends within as many turns as the tree is high,
and within as many as the search is long, and one more; it answers as the reader of the node does.

Main statements: `loop_descend` (look-ups and seeks), `loop_goFirst` and `loop_goLast` (the ends),
`loop_goAtLeast` and `loop_goAtMost` (the ways to a key).
-/

namespace SnapStore

universe u v w

variable {V : Type u} {β : Type v} {α : Type w}

/-! ## Heights -/

namespace Node

mutual

/-- The number of edges on the longest way down from a node. -/
def height : Node V → Nat
  | mk _ _ _ edges => heightOf edges

/-- The number of edges on the longest way down from the parent of some nodes. -/
def heightOf : List (Node V) → Nat
  | [] => 0
  | n :: ns => max (n.height + 1) (heightOf ns)

end

theorem height_lt_heightOf {c : Node V} {ns : List (Node V)} (h : c ∈ ns) :
    c.height < heightOf ns := by
  induction ns with
  | nil => cases h
  | cons n ns ih =>
    rw [heightOf]
    rcases List.mem_cons.1 h with rfl | h
    · omega
    · have hlt := ih h
      omega

/-- A child is less high than its parent. -/
theorem height_lt {n c : Node V} (h : c ∈ n.edges) : c.height < n.height := by
  rcases n with ⟨chunk, channel, leaf, edges⟩
  exact height_lt_heightOf h

/-- A child of a well-formed node stands on its edge, and is less high. -/
theorem Wf.child {n c : Node V} {path : Key} {front back : List (Node V)} (h : n.Wf path)
    (split : n.edges = front ++ c :: back) : c.Stands path ∧ c.height < n.height := by
  have hc : c ∈ n.edges := split ▸ List.mem_append_right _ List.mem_cons_self
  exact ⟨(wf_iff.1 h).2.stands hc, height_lt hc⟩

end Node

/-- Behind a chunk that is not empty, less is left of a search. -/
theorem Key.length_lt_of_after? {chunk search rest : Key} (hchunk : chunk ≠ [])
    (h : chunk.after? search = some rest) : rest.length < search.length := by
  have hpos := List.length_pos_iff.2 hchunk
  rw [Key.after?_eq_some_iff.1 h, List.length_append]
  omega

/-! ## Readers -/

namespace Reader

variable {n c : Node V} {front back : List (Node V)} {b : UInt8}

/-- A reader passes by siblings without the label of the search. -/
theorem descendIn_front (r : Reader V β) (channel : Channel) {search : Key}
    (h : ∀ m ∈ front, m.label? ≠ search.head?) (ns : List (Node V)) :
    r.descendIn channel (front ++ ns) search = r.descendIn channel ns search := by
  induction front with
  | nil => rfl
  | cons m front ih =>
    rw [List.cons_append, descendIn_cons_of_ne r channel (h m List.mem_cons_self)]
    exact ih fun m' hm' => h m' (List.mem_cons_of_mem m hm')

/-- A reader goes on at the child with the label of the search, or parts before it. -/
theorem descend_of_found (r : Reader V β) {rest : Key} (split : n.edges = front ++ c :: back)
    (hlabel : c.label? = some b) (hfront : Checked.Below b front) :
    r.descend n (b :: rest) =
      match c.chunk.after? (b :: rest) with
      | none => r.part n.channel c (b :: rest)
      | some rest => r.descend c rest := by
  have hhead : c.label? = (b :: rest).head? := hlabel
  rw [descend_cons, split, descendIn_front r n.channel hfront.ne, descendIn]
  exact if_pos hhead

/-- A reader stops at a node where no child has the label of the search. -/
theorem descend_of_missing (r : Reader V β) {rest : Key} (split : n.edges = front ++ back)
    (hfront : Checked.Below b front) (hback : Checked.Above b back) :
    r.descend n (b :: rest) = r.miss n.channel := by
  rw [descend_cons, split, descendIn_front r n.channel hfront.ne]
  exact descendIn_of_label r n.channel hback.ne

end Reader

namespace Checked

/-- One turn of a walk by a search. Where the walk ends, `f` is what becomes of the answer of the
reader. -/
def descend (r : Reader V β) (f : Channel × β → α) :
    Node V × Key → Except Fault (Turn (Node V × Key) α)
  | (n, search) =>
    if search.isEmpty then .ok (.done (f (r.stop n)))
    else
      (item search 0).bind fun b =>
        (position n.edges b).bind fun
          | .missing _ => .ok (.done (f (r.miss n.channel)))
          | .found i =>
            (item n.edges i).bind fun child =>
              if search.startsWith child.chunk then
                (behind search child.chunk.length).bind fun rest => .ok (.next (child, rest))
              else .ok (.done (f (r.part n.channel child search)))

/-- The nodes on a walk are well-formed, and what is left of the walk leads to the answer. -/
def Leads (answer : Node V × Key → α) (a : α) (s : Node V × Key) : Prop :=
  (∃ path, s.1.Wf path) ∧ answer s = a

theorem advances_descend (r : Reader V β) (f : Channel × β → α) {a : α} {s : Node V × Key}
    (h : Leads (fun s => f (r.descend s.1 s.2)) a s) :
    ∃ t, descend r f s = .ok t ∧
      t.Advances (Leads (fun s => f (r.descend s.1 s.2)) a)
        (fun s => min s.1.height s.2.length) (· = a) s := by
  obtain ⟨n, search⟩ := s
  obtain ⟨⟨path, hwf⟩, ha⟩ := h
  change n.Wf path at hwf
  change f (r.descend n search) = a at ha
  have hedges : Node.WfEdges path n.edges := (Node.wf_iff.1 hwf).2
  rw [descend]
  cases search with
  | nil =>
    rw [r.descend_nil] at ha
    exact ⟨_, rfl, ha⟩
  | cons b rest =>
    obtain ⟨p, hp, haround⟩ := exists_place hedges b
    simp only [List.isEmpty_cons, Bool.false_eq_true, if_false, item_cons_zero, ok_bind, hp]
    cases haround with
    | missing split below above =>
      rw [r.descend_of_missing split below above] at ha
      exact ⟨_, rfl, ha⟩
    | @found front back c split hlabel below above =>
      obtain ⟨hstands, hheight⟩ := hwf.child split
      rw [r.descend_of_found split hlabel below] at ha
      simp only [split, item_append, ok_bind]
      cases hafter : c.chunk.after? (b :: rest) with
      | none =>
        rw [hafter] at ha
        rw [startsWith_of_none hafter]
        exact ⟨_, rfl, ha⟩
      | some tail =>
        rw [hafter] at ha
        simp only [startsWith_of_some hafter, if_true, behind_of_after? hafter, ok_bind]
        refine ⟨_, rfl, ⟨⟨_, hstands.wf⟩, ha⟩, ?_⟩
        -- the child is less high, and its chunk is cut off the search
        have hlength := Key.length_lt_of_after? hstands.chunk_ne_nil hafter
        show min c.height tail.length < min n.height (b :: rest).length
        omega

/-- A walk by position ends and answers as the reader does. -/
theorem loop_descend (r : Reader V β) (f : Channel × β → α) {n : Node V} {path search : Key}
    {turns : Nat} (h : n.Wf path) (hlt : min n.height search.length < turns) :
    loop (descend r f) turns (n, search) = .ok (f (r.descend n search)) :=
  loop_eq_ok (fun _ => advances_descend r f) ⟨⟨path, h⟩, rfl⟩ hlt

/-! ## The ends -/

/-- One turn of the walk to the smallest leaf. -/
def goFirst (n : Node V) : Except Fault (Turn (Node V) (Option (Leaf V))) :=
  if n.leaf.isSome then .ok (.done n.leaf)
  else
    match n.edges.head? with
    | none => .ok (.done none)
    | some child => .ok (.next child)

/-- One turn of the walk to the largest leaf. -/
def goLast (n : Node V) : Except Fault (Turn (Node V) (Option (Leaf V))) :=
  match n.edges.getLast? with
  | none => .ok (.done n.leaf)
  | some child => .ok (.next child)

theorem advances_goFirst {a : Option (Leaf V)} {n : Node V} (h : n.first? = a) :
    ∃ t, goFirst n = .ok t ∧ t.Advances (·.first? = a) Node.height (· = a) n := by
  rcases n with ⟨chunk, channel, leaf, edges⟩
  cases leaf with
  | some l => exact ⟨_, rfl, h⟩
  | none =>
    cases edges with
    | nil => exact ⟨_, rfl, h⟩
    | cons child edges => exact ⟨_, rfl, h, Node.height_lt List.mem_cons_self⟩

/-- The largest leaf below some nodes is that of the last one. -/
theorem lastIn?_concat (leaf : Option (Leaf V)) (child : Node V) (ns : List (Node V)) :
    Node.lastIn? leaf (ns ++ [child]) = child.last? := by
  induction ns with
  | nil => rfl
  | cons n ns ih =>
    cases ns with
    | nil => rfl
    | cons m ns => exact ih

theorem advances_goLast {a : Option (Leaf V)} {n : Node V} (h : n.last? = a) :
    ∃ t, goLast n = .ok t ∧ t.Advances (·.last? = a) Node.height (· = a) n := by
  rcases n with ⟨chunk, channel, leaf, edges⟩
  rcases List.eq_nil_or_concat' edges with rfl | ⟨front, child, rfl⟩
  · exact ⟨_, rfl, h⟩
  · have hlast : (front ++ [child]).getLast? = some child := List.getLast?_concat
    refine ⟨.next child, by simp [goLast, hlast], ?_, Node.height_lt ?_⟩
    · exact (lastIn?_concat leaf child front).symm.trans h
    · exact List.mem_append_right _ List.mem_cons_self

/-- The walk to the smallest leaf ends, and finds it. -/
theorem loop_goFirst {n : Node V} {turns : Nat} (h : n.height < turns) :
    loop goFirst turns n = .ok n.first? :=
  loop_eq_ok (fun _ => advances_goFirst) rfl h

/-- The walk to the largest leaf ends, and finds it. -/
theorem loop_goLast {n : Node V} {turns : Nat} (h : n.height < turns) :
    loop goLast turns n = .ok n.last? :=
  loop_eq_ok (fun _ => advances_goLast) rfl h

/-! ## On the way to a key -/

/-- A walk to a key: the node it has come to, the search from the chunk of this node on, and what
it has taken up so far, the next frame first. -/
structure Way (V : Type u) where
  node : Node V
  search : Key
  stack : List (Frame V)

/-- The nodes at the front of a list whose labels pass. -/
def whileLabel (p : UInt8 → Bool) : List (Node V) → Except Fault (List (Node V))
  | [] => .ok []
  | n :: ns =>
    (label n).bind fun b =>
      if p b then (whileLabel p ns).bind fun ms => .ok (n :: ms) else .ok []

/-- Goes on to the child with a label, if there is one. -/
def follow (n : Node V) (b : UInt8) (search : Key) (stack : List (Frame V)) :
    Except Fault (Turn (Way V) (List (Frame V))) :=
  (position n.edges b).bind fun
    | .missing _ => .ok (.done stack)
    | .found i => (item n.edges i).bind fun child => .ok (.next ⟨child, search, stack⟩)

/-- How a chunk compares with a search, as far as both go. -/
def order (chunk search : Key) : Ordering :=
  let len := min chunk.length search.length
  if search.take len < chunk.take len then .gt
  else if chunk.take len < search.take len then .lt
  else .eq

/-- The same, with the keys cut by position. -/
def compareFronts (chunk search : Key) : Except Fault Ordering :=
  let len := min chunk.length search.length
  (upTo chunk len).bind fun chunk =>
    (upTo search len).bind fun stem =>
      .ok (if stem < chunk then .gt else if chunk < stem then .lt else .eq)

/-- One turn of the walk that takes up what is the search or above it. -/
def goAtLeast : Way V → Except Fault (Turn (Way V) (List (Frame V)))
  | ⟨n, search, stack⟩ =>
    (compareFronts n.chunk search).bind fun
      | .gt => .ok (.done (.node n :: stack))
      | .lt => .ok (.done stack)
      | .eq =>
        -- every key below goes on behind the search
        if search.length ≤ n.chunk.length then .ok (.done (.node n :: stack))
        else
          (behind search n.chunk.length).bind fun search =>
            (item search 0).bind fun b =>
              (whileLabel (b < ·) n.edges.reverse).bind fun taken =>
                follow n b search ((Frame.nodes taken).reverse ++ stack)

/-- One turn of the walk that takes up what is the search or below it. -/
def goAtMost : Way V → Except Fault (Turn (Way V) (List (Frame V)))
  | ⟨n, search, stack⟩ =>
    (compareFronts n.chunk search).bind fun
      | .gt => .ok (.done stack)
      | .lt => .ok (.done (.node n :: stack))
      | .eq =>
        -- every key below goes on behind the search
        if search.length < n.chunk.length then .ok (.done stack)
        else
          (behind search n.chunk.length).bind fun search =>
            let stack := n.leaf.toList.map .leaf ++ stack
            if search.isEmpty then .ok (.done stack)
            else
              (item search 0).bind fun b =>
                (whileLabel (· < b) n.edges).bind fun taken =>
                  follow n b search ((Frame.nodes taken).reverse ++ stack)

theorem match_ordering {γ : Type w} (p q : Prop) [Decidable p] [Decidable q] (x y z : γ) :
    (match if p then Ordering.gt else if q then .lt else .eq with
      | .gt => x
      | .lt => y
      | .eq => z) = if p then x else if q then y else z := by
  by_cases hp : p
  · rw [if_pos hp, if_pos hp]
  · rw [if_neg hp, if_neg hp]
    by_cases hq : q
    · rw [if_pos hq, if_pos hq]
    · rw [if_neg hq, if_neg hq]

theorem compareFronts_eq (chunk search : Key) :
    compareFronts chunk search = .ok (order chunk search) := by
  rw [compareFronts, upTo_of_le (Nat.min_le_left _ _), ok_bind, upTo_of_le (Nat.min_le_right _ _)]
  rfl

theorem whileLabel_eq_ok (p : UInt8 → Bool) {ns : List (Node V)}
    (h : ∀ n ∈ ns, ∃ b, n.label? = some b) :
    whileLabel p ns = .ok (ns.takeWhile fun n => n.label?.any p) := by
  induction ns with
  | nil => rfl
  | cons n ns ih =>
    rcases List.forall_mem_cons.1 h with ⟨⟨b, hb⟩, hns⟩
    rw [whileLabel, label_eq_ok hb, ok_bind, List.takeWhile_cons, hb, Option.any_some, ih hns]
    cases p b <;> rfl

/-- What is left of the search behind the chunk of the node, or the way down from there. -/
def Way.distance (w : Way V) : Nat :=
  min w.node.height (w.search.length - w.node.chunk.length)

/-- The nodes on a way are well-formed, and what is left of the way leads to the frames. -/
def Heads (frames : Node V → Key → List (Frame V) → List (Frame V)) (a : List (Frame V))
    (w : Way V) : Prop :=
  (∃ path, w.node.Wf path) ∧ frames w.node w.search w.stack = a

/-- What is taken up through some edges is what is taken up behind the one that fits. -/
structure Passes (frames : Node V → Key → List (Frame V) → List (Frame V))
    (through : List (Node V) → Key → List (Frame V) → List (Frame V)) : Prop where
  nil : ∀ search stack, through [] search stack = stack
  cons : ∀ n ns search stack, through (n :: ns) search stack =
    if n.label? = search.head? then frames n search stack else through ns search stack

theorem passes_framesAtLeast : Passes (V := V) Node.framesAtLeast Node.framesAtLeastIn where
  nil _ _ := rfl
  cons _ _ _ _ := rfl

theorem passes_framesAtMost : Passes (V := V) Node.framesAtMost Node.framesAtMostIn where
  nil _ _ := rfl
  cons _ _ _ _ := rfl

section Follow

variable {frames : Node V → Key → List (Frame V) → List (Frame V)}
  {through : List (Node V) → Key → List (Frame V) → List (Frame V)}
  {front back : List (Node V)} {c : Node V} {b : UInt8} {rest : Key} {stack : List (Frame V)}

theorem Passes.append (h : Passes frames through) {search : Key}
    (hfront : ∀ m ∈ front, m.label? ≠ search.head?) (ns : List (Node V)) :
    through (front ++ ns) search stack = through ns search stack := by
  induction front with
  | nil => rfl
  | cons m front ih =>
    rcases List.forall_mem_cons.1 hfront with ⟨hm, hfront⟩
    rw [List.cons_append, h.cons, if_neg hm, ih hfront]

theorem Passes.of_found (h : Passes frames through) (hfront : Below b front)
    (hlabel : c.label? = some b) :
    through (front ++ c :: back) (b :: rest) stack = frames c (b :: rest) stack := by
  have hhead : c.label? = (b :: rest).head? := hlabel
  rw [h.append hfront.ne, h.cons, if_pos hhead]

theorem Passes.of_missing (h : Passes frames through) (hfront : Below b front)
    (hback : Above b back) : through (front ++ back) (b :: rest) stack = stack := by
  have hall : ∀ m ∈ front ++ back, m.label? ≠ (b :: rest).head? := by
    intro m hm
    rcases List.mem_append.1 hm with hm | hm
    · exact hfront.ne m hm
    · exact hback.ne m hm
  have hpass : through ((front ++ back) ++ []) (b :: rest) stack = through [] (b :: rest) stack :=
    h.append hall []
  rwa [List.append_nil, h.nil] at hpass

/-- A walk that goes on comes closer to the end: the child is less high, and more of the search
is used up. -/
theorem advances_follow (h : Passes frames through) {w : Way V} {path : Key}
    (hwf : w.node.Wf path) (hdrop : w.search.drop w.node.chunk.length = b :: rest)
    {a : List (Frame V)} (ha : through w.node.edges (b :: rest) stack = a) :
    ∃ t, follow w.node b (b :: rest) stack = .ok t ∧
      t.Advances (Heads frames a) Way.distance (· = a) w := by
  have hedges : Node.WfEdges path w.node.edges := (Node.wf_iff.1 hwf).2
  obtain ⟨p, hp, haround⟩ := exists_place hedges b
  rw [follow, hp, ok_bind]
  cases haround with
  | missing split below above =>
    rw [split, h.of_missing below above] at ha
    exact ⟨_, rfl, ha⟩
  | @found front back c split hlabel below above =>
    obtain ⟨hstands, hheight⟩ := hwf.child split
    rw [split, h.of_found below hlabel] at ha
    simp only [split, item_append, ok_bind]
    refine ⟨_, rfl, ⟨⟨_, hstands.wf⟩, ha⟩, ?_⟩
    have hchunk := List.length_pos_iff.2 hstands.chunk_ne_nil
    have hlength := congrArg List.length hdrop
    rw [List.length_drop, List.length_cons] at hlength
    simp only [Way.distance, List.length_cons]
    omega

end Follow

/-- Children on edges have labels. -/
theorem exists_label_of_wf {n : Node V} {path : Key} (h : n.Wf path) :
    ∀ c ∈ n.edges, ∃ b, c.label? = some b := by
  intro c hc
  obtain ⟨b, _, _, hb, _⟩ := ((Node.wf_iff.1 h).2.stands hc).exists_label
  exact ⟨b, hb⟩

theorem framesAtLeast_eq_order (n : Node V) (search : Key) (stack : List (Frame V)) :
    n.framesAtLeast search stack =
      match order n.chunk search with
      | .gt => .node n :: stack
      | .lt => stack
      | .eq =>
        match search.drop n.chunk.length with
        | [] => .node n :: stack
        | b :: rest =>
          Node.framesAtLeastIn n.edges (b :: rest)
            (Frame.nodes (Node.larger b n.edges) ++ stack) := by
  cases n
  exact (match_ordering _ _ _ _ _).symm

theorem advances_goAtLeast {a : List (Frame V)} {w : Way V} (h : Heads Node.framesAtLeast a w) :
    ∃ t, goAtLeast w = .ok t ∧
      t.Advances (Heads Node.framesAtLeast a) Way.distance (· = a) w := by
  obtain ⟨n, search, stack⟩ := w
  obtain ⟨⟨path, hwf⟩, ha⟩ := h
  rw [framesAtLeast_eq_order] at ha
  rw [goAtLeast, compareFronts_eq, ok_bind]
  cases horder : order n.chunk search with
  | gt =>
    rw [horder] at ha
    exact ⟨_, rfl, ha⟩
  | lt =>
    rw [horder] at ha
    exact ⟨_, rfl, ha⟩
  | eq =>
    rw [horder] at ha
    cases hdrop : search.drop n.chunk.length with
    | nil =>
      rw [hdrop] at ha
      exact ⟨_, if_pos (List.drop_eq_nil_iff.1 hdrop), ha⟩
    | cons b rest =>
      rw [hdrop] at ha
      have hlonger : ¬ search.length ≤ n.chunk.length := by
        rw [← List.drop_eq_nil_iff, hdrop]
        exact List.cons_ne_nil b rest
      have hlabels : ∀ c ∈ n.edges.reverse, ∃ b, c.label? = some b := fun c hc =>
        exists_label_of_wf hwf c (List.mem_reverse.1 hc)
      have htaken : (Frame.nodes
          (n.edges.reverse.takeWhile fun n => n.label?.any (b < ·))).reverse =
            Frame.nodes (Node.larger b n.edges) := List.map_reverse.symm
      simp only [if_neg hlonger, behind_of_le (Nat.le_of_not_le hlonger), hdrop, item_cons_zero,
        whileLabel_eq_ok _ hlabels, htaken, ok_bind]
      exact advances_follow passes_framesAtLeast hwf hdrop ha

theorem framesAtMost_eq_order (n : Node V) (search : Key) (stack : List (Frame V)) :
    n.framesAtMost search stack =
      match order n.chunk search with
      | .gt => stack
      | .lt => .node n :: stack
      | .eq =>
        if search.length < n.chunk.length then stack
        else
          let stack := n.leaf.toList.map .leaf ++ stack
          match search.drop n.chunk.length with
          | [] => stack
          | b :: rest =>
            Node.framesAtMostIn n.edges (b :: rest)
              ((Frame.nodes (Node.smaller b n.edges)).reverse ++ stack) := by
  cases n
  exact (match_ordering _ _ _ _ _).symm

theorem advances_goAtMost {a : List (Frame V)} {w : Way V} (h : Heads Node.framesAtMost a w) :
    ∃ t, goAtMost w = .ok t ∧
      t.Advances (Heads Node.framesAtMost a) Way.distance (· = a) w := by
  obtain ⟨n, search, stack⟩ := w
  obtain ⟨⟨path, hwf⟩, ha⟩ := h
  rw [framesAtMost_eq_order] at ha
  rw [goAtMost, compareFronts_eq, ok_bind]
  cases horder : order n.chunk search with
  | gt =>
    rw [horder] at ha
    exact ⟨_, rfl, ha⟩
  | lt =>
    rw [horder] at ha
    exact ⟨_, rfl, ha⟩
  | eq =>
    rw [horder] at ha
    by_cases hshorter : search.length < n.chunk.length
    · simp only [if_pos hshorter] at ha ⊢
      exact ⟨_, rfl, ha⟩
    · simp only [if_neg hshorter, behind_of_le (Nat.not_lt.1 hshorter), ok_bind] at ha ⊢
      cases hdrop : search.drop n.chunk.length with
      | nil =>
        rw [hdrop] at ha
        exact ⟨_, rfl, ha⟩
      | cons b rest =>
        rw [hdrop] at ha
        simp only [List.isEmpty_cons, Bool.false_eq_true, if_false, item_cons_zero,
          whileLabel_eq_ok _ (exists_label_of_wf hwf), ok_bind]
        exact advances_follow passes_framesAtMost hwf hdrop ha

/-- The walk that takes up what is a key or above it ends, with the stack of the reader. -/
theorem loop_goAtLeast {n : Node V} {path search : Key} {stack : List (Frame V)} {turns : Nat}
    (h : n.Wf path) (hlt : min n.height (search.length - n.chunk.length) < turns) :
    loop goAtLeast turns ⟨n, search, stack⟩ = .ok (n.framesAtLeast search stack) :=
  loop_eq_ok (fun _ => advances_goAtLeast) ⟨⟨path, h⟩, rfl⟩ hlt

/-- The walk that takes up what is a key or below it ends, with the stack of the reader. -/
theorem loop_goAtMost {n : Node V} {path search : Key} {stack : List (Frame V)} {turns : Nat}
    (h : n.Wf path) (hlt : min n.height (search.length - n.chunk.length) < turns) :
    loop goAtMost turns ⟨n, search, stack⟩ = .ok (n.framesAtMost search stack) :=
  loop_eq_ok (fun _ => advances_goAtMost) ⟨⟨path, h⟩, rfl⟩ hlt

end Checked

end SnapStore
