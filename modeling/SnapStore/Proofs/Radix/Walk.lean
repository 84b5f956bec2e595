import SnapStore.Proofs.Radix.Edits

/-! # Walks down a tree

A reader walks down from a node by a search, and answers with a channel of the node or
leaf at which it stops. If an edit does not displace this channel, a walk finds the same
place again and gives the same answer, wherever the edit copied, split, merged or dropped
nodes.

Main statements: `descend_insert`, `survives_erase` and `survives_eraseStem`, one for each
edit, and `lawful_watch` and `lawful_seek`, the two readers there are.
-/

namespace SnapStore

universe u v

variable {V : Type u} {β : Type v}

/-- What a reader answers at the place where its walk ends, with a channel. -/
structure Reader (V : Type u) (β : Type v) where
  /-- The search ends at this node. -/
  stop : Node V → Channel × β
  /-- No edge of a node with this channel has the label. -/
  miss : Channel → Channel × β
  /-- The search parts from the edge to this child of a node with this channel. -/
  part : Channel → Node V → Key → Channel × β

namespace Reader

/-- A reader answers with the channel of the node it stops at, of the leaf there, or of
the child it parts from, and with nothing that could change without that channel. -/
structure Lawful (r : Reader V β) : Prop where
  miss : ∀ c, (r.miss c).1 = c
  stop : ∀ n, (r.stop n).1 = n.channel ∨
    (∃ l ∈ n.leaf, (r.stop n).1 = l.channel) ∧ ∀ m : Node V, m.leaf = n.leaf → r.stop m = r.stop n
  part : ∀ c n search, (r.part c n search).1 = c ∨
    (r.part c n search).1 = n.channel ∧ ∀ c', r.part c' n search = r.part c n search

mutual

/-- The answer of a reader that walks from a node. -/
def descend (r : Reader V β) : Node V → Key → Channel × β
  | n, [] => r.stop n
  | .mk _ channel _ edges, b :: rest => r.descendIn channel edges (b :: rest)

/-- The answer of a reader that walks through one of the edges of a node with the given
channel. -/
def descendIn (r : Reader V β) (channel : Channel) : List (Node V) → Key → Channel × β
  | [], _ => r.miss channel
  | n :: ns, search =>
    if n.label? = search.head? then
      match n.chunk.after? search with
      | none => r.part channel n search
      | some rest => r.descend n rest
    else r.descendIn channel ns search

end

variable {r : Reader V β} {s : Stamp}

theorem descend_cons (r : Reader V β) (n : Node V) (b : UInt8) (rest : Key) :
    r.descend n (b :: rest) = r.descendIn n.channel n.edges (b :: rest) := by
  cases n
  rfl

theorem descend_nil (r : Reader V β) (n : Node V) : r.descend n [] = r.stop n := by
  cases n
  rfl

theorem descendIn_cons_of_ne (r : Reader V β) (channel : Channel) {n : Node V} {search : Key}
    (h : n.label? ≠ search.head?) (ns : List (Node V)) :
    r.descendIn channel (n :: ns) search = r.descendIn channel ns search := by
  rw [descendIn, if_neg h]

/-- Behind a fitting edge the other siblings do not count. -/
theorem descendIn_cons_of_eq (r : Reader V β) (channel : Channel) {n : Node V} {search : Key}
    (h : n.label? = search.head?) (ns ns' : List (Node V)) :
    r.descendIn channel (n :: ns) search = r.descendIn channel (n :: ns') search := by
  rw [descendIn, descendIn, if_pos h, if_pos h]

/-- Through a fitting edge the walk goes on at the child. -/
theorem descendIn_append (r : Reader V β) (channel : Channel) {n : Node V} (hc : n.chunk ≠ [])
    (ns : List (Node V)) (rest : Key) :
    r.descendIn channel (n :: ns) (n.chunk ++ rest) = r.descend n rest := by
  rcases List.exists_cons_of_ne_nil hc with ⟨a, chunk, hcc⟩
  have hlabel : n.label? = (n.chunk ++ rest).head? := by simp [Node.label?, hcc]
  rw [descendIn, if_pos hlabel, Key.after?_append]

theorem descendIn_of_label (r : Reader V β) (channel : Channel) {ns : List (Node V)} {search : Key}
    (h : ∀ n ∈ ns, n.label? ≠ search.head?) : r.descendIn channel ns search = r.miss channel := by
  induction ns with
  | nil => rfl
  | cons n ns ih =>
    rw [descendIn_cons_of_ne r channel (h n List.mem_cons_self)]
    exact ih fun m hm => h m (List.mem_cons_of_mem n hm)

/-! ## Answers that do not hang on a copied node -/

/-- There is more than one channel. -/
theorem exists_channel_ne (c : Channel) : ∃ c', c' ≠ c := by
  refine ⟨{ c with depth := c.depth + 1 }, fun h => ?_⟩
  have hd := congrArg Channel.depth h
  simp at hd

section Lawful

variable (hr : r.Lawful)

include hr

/-- A walk that does not end at the node itself ignores the channel of the node. -/
theorem descendIn_channel {channel : Channel} {search : Key} :
    ∀ ns : List (Node V), (r.descendIn channel ns search).1 ≠ channel →
      ∀ channel', r.descendIn channel' ns search = r.descendIn channel ns search
  | [], h, _ => absurd (hr.miss channel) h
  | n :: ns, h, channel' => by
    rw [descendIn] at h ⊢
    rw [descendIn]
    split
    · rename_i hlabel
      rw [if_pos hlabel] at h
      cases ha : n.chunk.after? search with
      | none =>
        simp only [ha] at h
        rcases hr.part channel n search with hp | ⟨_, hp⟩
        · exact absurd hp h
        · exact hp channel'
      | some rest => rfl
    · rename_i hlabel
      rw [if_neg hlabel] at h
      exact descendIn_channel ns h channel'

/-- A copy of a node with other children answers like the node, unless with the channel of
the node, if the walk through the children does. -/
theorem descend_copy_edges {n : Node V} {search : Key} (h : (r.descend n search).1 ≠ n.channel)
    {edges : List (Node V)}
    (hin : search ≠ [] → ∀ c, r.descendIn c edges search = r.descend n search)
    (chunk : Key) (channel : Channel) :
    r.descend (.mk chunk channel n.leaf edges) search = r.descend n search := by
  cases search with
  | nil =>
    rw [descend_nil] at h ⊢
    rw [descend_nil]
    rcases hr.stop n with hs | ⟨_, hs⟩
    · exact absurd hs h
    · exact hs _ rfl
  | cons b rest => exact hin (by simp) channel

/-- A walk beyond a node that does not end there ignores the channel of the node. -/
theorem descendIn_edges {n : Node V} {search : Key} (h : (r.descend n search).1 ≠ n.channel)
    (hne : search ≠ []) (channel : Channel) :
    r.descendIn channel n.edges search = r.descend n search := by
  rcases List.exists_cons_of_ne_nil hne with ⟨b, rest, rfl⟩
  rw [descend_cons] at h ⊢
  exact descendIn_channel hr n.edges h channel

/-- A copy of a node answers like the node, unless with the channel of the node. -/
theorem descend_copy {n : Node V} {search : Key} (h : (r.descend n search).1 ≠ n.channel)
    (chunk : Key) (channel : Channel) :
    r.descend (.mk chunk channel n.leaf n.edges) search = r.descend n search :=
  descend_copy_edges hr h (descendIn_edges hr h) chunk channel

/-- An answer that is the same for every channel of the parent does not stop there. -/
theorem part_channel (n : Node V) (search : Key) {a : Channel × β}
    (h : ∀ c, r.part c n search = a) : a.1 = n.channel := by
  rcases exists_channel_ne a.1 with ⟨c, hc⟩
  rcases hr.part c n search with hp | ⟨hp, _⟩
  · exact absurd ((h c ▸ hp).symm) hc
  · exact h c ▸ hp

theorem miss_ne {a : Channel × β} (h : ∀ c, r.miss c = a) : False := by
  rcases exists_channel_ne a.1 with ⟨c, hc⟩
  exact hc (h c ▸ hr.miss c).symm

mutual

/-- A walk answers with a channel of the subtree. -/
theorem descend_mem_channels :
    ∀ (n : Node V) (search : Key), (r.descend n search).1 ∈ n.channels
  | .mk chunk channel leaf edges, [] => by
    rw [descend_nil, Node.channels]
    rcases hr.stop (.mk chunk channel leaf edges) with hs | ⟨⟨l, hl, hs⟩, _⟩
    · rw [hs]
      exact List.mem_cons_self
    · obtain rfl : leaf = some l := hl
      simp [hs]
  | .mk chunk channel leaf edges, b :: rest => by
    rw [descend, Node.channels]
    rcases descendIn_mem_channels channel edges (b :: rest) with h | h
    · rw [h]
      exact List.mem_cons_self
    · simp [h]

theorem descendIn_mem_channels (channel : Channel) :
    ∀ (ns : List (Node V)) (search : Key),
      (r.descendIn channel ns search).1 = channel ∨
        (r.descendIn channel ns search).1 ∈ Node.channelsOf ns
  | [], _ => .inl (hr.miss channel)
  | n :: ns, search => by
    rw [descendIn, Node.channelsOf]
    split
    · cases n.chunk.after? search with
      | none =>
        rcases hr.part channel n search with hp | ⟨hp, _⟩
        · exact .inl hp
        · right
          simp only [hp, List.mem_append]
          left
          rcases n with ⟨chunk, channel, leaf, edges⟩
          exact List.mem_cons_self
      | some rest => exact .inr (List.mem_append_left _ (descend_mem_channels n rest))
    · rcases descendIn_mem_channels channel ns search with h | h
      · exact .inl h
      · exact .inr (List.mem_append_right _ h)

end

/-- An answer that is the same for every channel of the parent comes from a child. -/
theorem exists_descend {ns : List (Node V)} {q : Key} {a : Channel × β}
    (hc : ∀ n ∈ ns, n.chunk ≠ []) (ha : ∀ c, r.descendIn c ns q = a) :
    ∃ n ∈ ns, a.1 = n.channel ∨ ∃ tail, q = n.chunk ++ tail ∧ r.descend n tail = a := by
  induction ns with
  | nil => exact (miss_ne hr ha).elim
  | cons n ns ih =>
    by_cases hq : n.label? = q.head?
    · refine ⟨n, List.mem_cons_self, ?_⟩
      cases hafter : n.chunk.after? q with
      | none =>
        refine .inl (part_channel hr n q fun c => ?_)
        rw [← ha c, descendIn, if_pos hq, hafter]
      | some tail =>
        obtain rfl := Key.after?_eq_some_iff.1 hafter
        refine .inr ⟨tail, rfl, ?_⟩
        rw [← ha n.channel, descendIn_append r _ (hc n List.mem_cons_self)]
    · have htail : ∀ c, r.descendIn c ns q = a := by
        intro c
        rw [← ha c, descendIn_cons_of_ne r c hq]
      rcases ih (fun m hm => hc m (List.mem_cons_of_mem n hm)) htail with ⟨m, hm, h⟩
      exact ⟨m, List.mem_cons_of_mem n hm, h⟩

/-- A child gives way to what an edit left of it, if neither its channel nor the walk
below it minds. -/
theorem descendIn_replace (n' : Option (Node V)) {n : Node V} {ns : List (Node V)} {q : Key}
    {a : Channel × β} (ha : ∀ c, r.descendIn c (n :: ns) q = a) (hne : a.1 ≠ n.channel)
    (hc : n.chunk ≠ []) (hlabel : ∀ m ∈ n', m.label? = n.label?)
    (hin : ∀ tail, r.descend n tail = a →
      ∀ c, r.descendIn c (n'.toList ++ ns) (n.chunk ++ tail) = a) :
    ∀ c, r.descendIn c (n'.toList ++ ns) q = a := by
  by_cases hq : n.label? = q.head?
  · cases hafter : n.chunk.after? q with
    | none =>
      refine absurd (part_channel hr n q fun c => ?_) hne
      rw [← ha c, descendIn, if_pos hq, hafter]
    | some tail =>
      obtain rfl := Key.after?_eq_some_iff.1 hafter
      refine hin tail ?_
      rw [← ha n.channel, descendIn_append r _ hc]
  · intro c
    have htail : r.descendIn c ns q = a := by
      rw [← ha c, descendIn_cons_of_ne r c hq]
    cases n' with
    | none => exact htail
    | some m =>
      rw [Option.toList_some, List.singleton_append, descendIn_cons_of_ne r c, htail]
      rwa [hlabel m rfl]

omit hr in
/-- A child that stays hides an edit of its later siblings from the walks through it. -/
theorem descendIn_cons_tail {n : Node V} {ns ns' : List (Node V)} {q : Key} {a : Channel × β}
    (ha : ∀ c, r.descendIn c (n :: ns) q = a)
    (hin : (∀ c, r.descendIn c ns q = a) → ∀ c, r.descendIn c ns' q = a) :
    ∀ c, r.descendIn c (n :: ns') q = a := by
  intro c
  by_cases hq : n.label? = q.head?
  · rw [descendIn_cons_of_eq r c hq _ ns, ha c]
  · have htail : ∀ c, r.descendIn c ns q = a := by
      intro c
      rw [← ha c, descendIn_cons_of_ne r c hq]
    rw [descendIn_cons_of_ne r c hq]
    exact hin htail c

/-! ## Insertion -/

section Insertion

variable (key : Key) (value : V)

omit hr in
/-- The parent is displaced, whichever way the search goes on. -/
theorem parent_mem_insertIn (depth : Nat) (parent : Channel) (b : UInt8) (search : Key)
    (ns : List (Node V)) :
    parent ∈ (Node.insertIn s key value depth parent ns b search).2 := by
  induction ns with
  | nil => exact List.mem_singleton_self parent
  | cons n ns ih =>
    rw [Node.insertIn]
    split
    · exact ih
    · split
      · split <;> simp
      · split
        · exact List.mem_singleton_self parent
        · exact ih

omit hr in
theorem channel_mem_insert (n : Node V) (depth : Nat) (search : Key) :
    n.channel ∈ (n.insert s key value depth search).2 := by
  rcases n with ⟨chunk, channel, leaf, edges⟩
  cases search with
  | nil => simp [Node.insert, Node.channel]
  | cons b rest => exact parent_mem_insertIn key value depth channel b (b :: rest) edges

omit hr in
/-- Of two siblings with different labels the walk takes the one that fits, in whatever
order they stand. -/
theorem descendIn_pair {m n : Node V} {a b : UInt8} (ha : m.label? = some a)
    (hb : n.label? = some b) (hab : a ≠ b) (channel : Channel) (rest : Key) :
    r.descendIn channel (Node.pair m n) (m.chunk ++ rest) = r.descend m rest := by
  have hc : m.chunk ≠ [] := by
    intro h
    simp [Node.label?, h] at ha
  have hhead : (m.chunk ++ rest).head? = some a := by
    simp [List.head?_append, show m.chunk.head? = some a from ha]
  unfold Node.pair
  rw [ha, hb]
  simp only
  split
  · rw [descendIn_cons_of_ne r channel, descendIn_append r channel hc]
    rw [hb, hhead]
    exact fun h => hab (Option.some.inj h).symm
  · exact descendIn_append r channel hc _ rest

/-- A walk beyond an edge finds its way through the node that splits the edge. -/
theorem descend_split {search : Key} {n : Node V} {depth : Nat} {b : UInt8}
    (hb : n.label? = some b) (hleft : (Key.fork n.chunk (b :: search)).left ≠ [])
    {rest : Key} (hd : (r.descend n rest).1 ≠ n.channel) (channel : Channel) (ns : List (Node V)) :
    r.descendIn channel (n.split s depth key value (Key.fork n.chunk (b :: search)) :: ns)
      (n.chunk ++ rest) = r.descend n rest := by
  have hchunk := Key.fork_left n.chunk (b :: search)
  have hparted := Key.fork_parted n.chunk (b :: search)
  have hhead : (Key.fork n.chunk (b :: search)).shared.head? = some b := Key.head?_fork_shared hb
  generalize Key.fork n.chunk (b :: search) = f at *
  rcases f with ⟨shared, left, right⟩
  simp only at hchunk hparted hleft hhead
  rcases List.exists_cons_of_ne_nil hleft with ⟨a, left, rfl⟩
  have hne : shared ≠ [] := by
    rintro rfl
    simp at hhead
  have hstub : r.descend (n.stub s depth (a :: left)) rest = r.descend n rest :=
    descend_copy hr hd _ _
  have happ := descendIn_append r channel
    (n := n.split s depth key value ⟨shared, a :: left, right⟩) (by simpa using hne) ns
    (a :: (left ++ rest))
  rw [Node.chunk_split, descend_cons] at happ
  rw [← hchunk, List.append_assoc, List.cons_append, happ, ← hstub]
  cases right with
  | nil => exact descendIn_append r _ (n := n.stub s depth (a :: left)) (by simp) [] rest
  | cons y right =>
    exact descendIn_pair (m := n.stub s depth (a :: left))
      (n := Node.twig s depth key value (y :: right)) rfl rfl (hparted a rfl y rfl) _ rest

mutual

/-- An insertion that does not displace the channel of an answer does not change the
answer. -/
theorem descend_insert {path : Key} :
    ∀ (n : Node V) (depth : Nat) (search q : Key), n.Wf path →
      (r.descend n q).1 ∉ (n.insert s key value depth search).2 →
      r.descend (n.insert s key value depth search).1 q = r.descend n q
  | .mk chunk channel leaf edges, depth, [], q, h, hd => by
    simp only [Node.insert, List.mem_append, List.mem_map, Option.mem_toList,
      List.mem_singleton, not_or] at hd ⊢
    rcases hd with ⟨hleaf, hchannel⟩
    cases q with
    | nil =>
      -- the leaf is replaced, and an answer from here has its channel or that of the node
      rw [descend_nil] at hleaf hchannel
      rcases hr.stop (.mk chunk channel leaf edges) with hs | ⟨⟨l, hl, hs⟩, _⟩
      · exact absurd hs hchannel
      · exact absurd ⟨l, hl, hs.symm⟩ hleaf
    | cons b rest => exact descendIn_channel hr edges hchannel _
  | .mk chunk channel leaf edges, depth, b :: rest, q, h, hd => by
    have hmem := parent_mem_insertIn (s := s) key value depth channel b (b :: rest) edges
    have hchannel := (ne_of_mem_of_not_mem hmem hd).symm
    simp only [Node.Wf] at h
    refine descend_copy_edges hr (n := .mk chunk channel leaf edges) hchannel (fun hq => ?_) _ _
    exact descendIn_insertIn edges depth b rest h.2 (descendIn_edges hr hchannel hq) hd

theorem descendIn_insertIn {path : Key} {q : Key} {parent : Channel} {a : Channel × β} :
    ∀ (ns : List (Node V)) (depth : Nat) (b : UInt8) (rest : Key), Node.WfEdges path ns →
      (∀ c, r.descendIn c ns q = a) →
      a.1 ∉ (Node.insertIn s key value depth parent ns b (b :: rest)).2 →
      ∀ c, r.descendIn c (Node.insertIn s key value depth parent ns b (b :: rest)).1 q = a
  | [], _, _, _, _, ha, _ => (miss_ne hr ha).elim
  | n :: ns, depth, b, rest, h, ha, hd => by
    simp only [Node.WfEdges] at h
    rcases h with ⟨hc, _, hn, hb, hns⟩
    rcases List.exists_cons_of_ne_nil hc with ⟨x, chunk, hcc⟩
    have hlabel : n.label? = some x := by simp [Node.label?, hcc]
    rw [Node.insertIn, hlabel] at hd ⊢
    simp only at hd ⊢
    split at hd
    · rename_i hxb
      subst hxb
      rw [if_pos rfl]
      split at hd
      · -- the key goes on below this child
        rename_i rest' _
        have hin : a.1 ∉ (n.insert s key value (depth + 1) rest').2 := fun hmem =>
          hd (List.mem_append_left [parent] hmem)
        have hne : a.1 ≠ n.channel := by
          intro h
          exact hin (h ▸ channel_mem_insert key value n _ _)
        refine descendIn_replace hr (some (n.insert s key value (depth + 1) rest').1)
          ha hne hc (by simp [Node.label?]) fun tail ht c => ?_
        have happ := descendIn_append r c (n := (n.insert s key value (depth + 1) rest').1)
          (by rwa [Node.chunk_insert]) ns tail
        rw [Node.chunk_insert] at happ
        subst ht
        exact happ.trans (descend_insert n (depth + 1) rest' tail hn hin)
      · -- the key parts from the edge to this child, which is split
        rename_i hfork
        have hne : a.1 ≠ n.channel := fun hat => hd (by simp [hat])
        rw [← hfork]
        refine descendIn_replace hr (some (n.split s depth key value _)) ha hne hc ?_
          fun tail ht c => ?_
        · simpa [Node.label?, hcc] using Key.head?_fork_shared hlabel
        · subst ht
          exact descend_split hr key value hlabel (by simp [hfork]) hne c ns
    · rename_i hxb
      rw [if_neg hxb]
      split at hd
      · -- the new child comes before this one
        rename_i hlt
        intro c
        rw [if_pos hlt, descendIn_cons_of_ne r c, ha c]
        -- a walk by the new label missed before, and so ended at the parent
        intro hq
        have hqb : q.head? = some b := hq.symm
        refine miss_ne hr (a := a) fun c => ?_
        rw [← ha c, descendIn_of_label r c]
        intro m hm
        rw [hqb]
        rcases List.mem_cons.1 hm with rfl | hm
        · rwa [hlabel, ne_eq, Option.some.injEq]
        · intro hmb
          have hxb := hb m hm x hlabel b hmb
          exact UInt8.lt_irrefl b (UInt8.lt_trans hlt hxb)
      · rename_i hlt
        rw [if_neg hlt]
        exact descendIn_cons_tail ha fun htail => descendIn_insertIn ns depth b rest hns htail hd

end

end Insertion

/-! ## Removal -/

section Removal

/-- A walk does not end at a node without a leaf if its answer is not of the node. -/
theorem stop_ne {chunk : Key} {edges : List (Node V)} {a : Channel × β}
    (h : ∀ c, r.stop (.mk chunk c none edges) = a) : False := by
  rcases exists_channel_ne a.1 with ⟨c, hc⟩
  rcases hr.stop (.mk chunk c none edges) with hs | ⟨⟨l, hl, _⟩, _⟩
  · exact hc (h c ▸ hs).symm
  · simp at hl

/-- A walk that goes through any copy of a node finds its way through what is left of the
node, also if that joined its only child. -/
theorem descendIn_settle {depth : Nat} {chunk : Key} {leaf : Option (Leaf V)}
    {edges : List (Node V)} {q : Key} {a : Channel × β} (hc : chunk ≠ [])
    (hedges : ∀ n ∈ edges, n.chunk ≠ []) (ha : ∀ c, r.descend (.mk chunk c leaf edges) q = a)
    (hd : a.1 ∉ (Node.settle s (depth + 1) chunk leaf edges).2) (channel : Channel)
    (ns : List (Node V)) :
    r.descendIn channel ((Node.settle s (depth + 1) chunk leaf edges).1.toList ++ ns)
      (chunk ++ q) = a := by
  unfold Node.settle at hd ⊢
  split at hd
  · -- nothing is left, so the walk cannot have ended there
    cases q with
    | nil => exact (stop_ne hr ha).elim
    | cons b rest => exact (miss_ne hr ha).elim
  · -- the only child takes over the chunk
    cases q with
    | nil => exact (stop_ne hr ha).elim
    | cons b rest =>
      rcases exists_descend hr hedges ha with ⟨n, hn, h⟩
      obtain rfl := List.mem_singleton.1 hn
      rcases h with h | ⟨tail, hs, ht⟩
      · simp [h] at hd
      · have hne : (r.descend n tail).1 ≠ n.channel := by simpa [ht] using hd
        rw [hs, ← List.append_assoc]
        refine (descendIn_append r channel
          (n := .mk (chunk ++ n.chunk) (s.channel (depth + 1) .node) n.leaf n.edges)
          (by simp [hc]) ns tail).trans ?_
        exact (descend_copy hr hne _ _).trans ht
  · -- a copy with the same children
    rename_i leaf edges _ _ _ _ _
    refine (descendIn_append r channel (n := .mk chunk (s.channel (depth + 1) .node) leaf edges)
      hc ns q).trans (ha _)

/-- What a removal leaves of a node, told by leaf and children, answers a walk from the
node as the node did. -/
structure Survives (r : Reader V β) (s : Stamp) (depth : Nat) (n : Node V) (q : Key)
    (leaf : Option (Leaf V)) (edges : List (Node V)) : Prop where
  chunk_ne_nil : ∀ m ∈ edges, m.chunk ≠ []
  descend : ∀ c, r.descend (.mk n.chunk c leaf edges) q = r.descend n q
  kept : (r.descend n q).1 ∉ (Node.settle s depth n.chunk leaf edges).2

/-- A child gives way to what a removal left of it. -/
theorem descendIn_survives (s : Stamp) (depth : Nat) {n : Node V} {n' : Option (Node V)}
    {ns : List (Node V)} {q : Key} {a : Channel × β} (hc : n.chunk ≠ [])
    (ha : ∀ c, r.descendIn c (n :: ns) q = a) (hne : a.1 ≠ n.channel)
    (hlabel : ∀ m ∈ n', m.label? = n.label?)
    (hs : ∀ tail, r.descend n tail = a → ∃ leaf edges,
      n' = (Node.settle s (depth + 1) n.chunk leaf edges).1 ∧
        r.Survives s (depth + 1) n tail leaf edges) :
    ∀ c, r.descendIn c (n'.toList ++ ns) q = a := by
  refine descendIn_replace hr n' ha hne hc hlabel fun tail ht c => ?_
  rcases hs tail ht with ⟨leaf, edges, rfl, hsur⟩
  rw [← ht]
  exact descendIn_settle hr hc hsur.chunk_ne_nil hsur.descend hsur.kept c ns

omit hr in
theorem channel_mem_erase {n : Node V} {depth : Nat} {search : Key}
    {e : Option (Node V) × List Channel} (he : n.erase s depth search = some e) :
    n.channel ∈ e.2 := by
  rcases Node.erase_cases he with ⟨_, _, _, rfl⟩ | ⟨_, _, _, _, _, rfl⟩ <;> simp

mutual

/-- A removal that does not displace the channel of an answer keeps the answer. -/
theorem survives_erase {path : Key} :
    ∀ (n : Node V) (depth : Nat) (search q : Key) (e : Option (Node V) × List Channel),
      n.Wf path → n.erase s depth search = some e → (r.descend n q).1 ∉ e.2 →
      ∃ leaf edges, e.1 = (Node.settle s depth n.chunk leaf edges).1 ∧
        r.Survives s depth n q leaf edges
  | .mk chunk channel leaf edges, depth, search, q, e, h, he, hd => by
    simp only [Node.Wf] at h
    rcases Node.erase_cases he with ⟨l, rfl, hl, rfl⟩ | ⟨b, rest, e', rfl, hin, rfl⟩
    · simp only [List.cons_append, List.nil_append, List.mem_cons, not_or] at hd
      rcases hd with ⟨hleaf, hchannel, hkept⟩
      refine ⟨none, edges, rfl, h.2.chunk_ne_nil, fun c => ?_, hkept⟩
      cases q with
      | nil =>
        -- the leaf is gone, and an answer from here has its channel or that of the node
        rw [descend_nil] at hleaf hchannel
        rcases hr.stop (.mk chunk channel leaf edges) with hs | ⟨⟨l', hl', hs⟩, _⟩
        · exact absurd hs hchannel
        · obtain rfl : l = l' := Option.some.inj (hl.symm.trans hl')
          exact absurd hs hleaf
      | cons b rest => exact descendIn_channel hr edges hchannel c
    · simp only [List.mem_append, List.mem_singleton, not_or] at hd
      rcases hd with ⟨⟨hdisp, hchannel⟩, hkept⟩
      have hedges := (Node.wfEdges_eraseIn s edges depth b rest e' h.2 hin).1.chunk_ne_nil
      refine ⟨leaf, e'.1, rfl, hedges, fun c => ?_, hkept⟩
      refine descend_copy_edges hr (n := .mk chunk channel leaf edges) hchannel (fun hq => ?_) _ c
      exact descendIn_eraseIn edges depth b rest e' h.2 hin (descendIn_edges hr hchannel hq) hdisp

theorem descendIn_eraseIn {path q : Key} {a : Channel × β} :
    ∀ (ns : List (Node V)) (depth : Nat) (b : UInt8) (rest : Key)
      (e : List (Node V) × List Channel), Node.WfEdges path ns →
      Node.eraseIn s depth ns (b :: rest) = some e →
      (∀ c, r.descendIn c ns q = a) → a.1 ∉ e.2 → ∀ c, r.descendIn c e.1 q = a
  | [], _, _, _, _, _, he, _, _ => by simp [Node.eraseIn] at he
  | n :: ns, depth, b, rest, e, h, he, ha, hd => by
    simp only [Node.WfEdges] at h
    rcases h with ⟨hc, _, hn, hb, hns⟩
    rcases Node.eraseIn_cons_cases he with ⟨tail, e', _, _, hin, rfl⟩ | ⟨e', _, hin, rfl⟩
    · have hne : a.1 ≠ n.channel := fun h => hd (h ▸ channel_mem_erase hin)
      obtain ⟨leaf, edges, he', hw, _⟩ := Node.exists_settle_of_erase s n (depth + 1) tail e' hn hin
      refine descendIn_survives hr s depth hc ha hne ?_ fun tail' ht => ?_
      · exact fun m hm => (Node.replaces_settle s hc hw m (he' ▸ hm)).label
      · exact survives_erase n (depth + 1) tail tail' e' hn hin (ht ▸ hd)
    · exact descendIn_cons_tail ha fun htail =>
        descendIn_eraseIn ns depth b rest e' hns hin htail hd

end

omit hr in
theorem channel_mem_eraseStem {n : Node V} {depth : Nat} {stem : Key}
    {e : Option (Node V) × List Channel} (he : n.eraseStem s depth stem = some e) :
    n.channel ∈ e.2 := by
  rcases Node.eraseStem_cases he with ⟨_, rfl⟩ | ⟨_, _, _, _, _, rfl⟩
  · exact n.channel_mem_channels
  · simp

mutual

/-- The removal of a stem that does not displace the channel of an answer keeps the
answer. -/
theorem survives_eraseStem {path : Key} :
    ∀ (n : Node V) (depth : Nat) (stem q : Key) (e : Option (Node V) × List Channel),
      n.Wf path → n.eraseStem s depth stem = some e → (r.descend n q).1 ∉ e.2 →
      ∃ leaf edges, e.1 = (Node.settle s depth n.chunk leaf edges).1 ∧
        r.Survives s depth n q leaf edges
  | .mk chunk channel leaf edges, depth, stem, q, e, h, he, hd => by
    simp only [Node.Wf] at h
    rcases Node.eraseStem_cases he with ⟨rfl, rfl⟩ | ⟨b, rest, e', rfl, hin, rfl⟩
    · -- everything is gone, with all channels that an answer could have
      exact absurd (descend_mem_channels hr _ q) hd
    · simp only [List.mem_append, List.mem_singleton, not_or] at hd
      rcases hd with ⟨⟨hdisp, hchannel⟩, hkept⟩
      have hedges := (Node.wfEdges_eraseStemIn s edges depth b rest e' h.2 hin).1.chunk_ne_nil
      refine ⟨leaf, e'.1, rfl, hedges, fun c => ?_, hkept⟩
      refine descend_copy_edges hr (n := .mk chunk channel leaf edges) hchannel (fun hq => ?_) _ c
      exact descendIn_eraseStemIn edges depth b rest e' h.2 hin (descendIn_edges hr hchannel hq)
        hdisp

theorem descendIn_eraseStemIn {path q : Key} {a : Channel × β} :
    ∀ (ns : List (Node V)) (depth : Nat) (b : UInt8) (rest : Key)
      (e : List (Node V) × List Channel), Node.WfEdges path ns →
      Node.eraseStemIn s depth ns (b :: rest) = some e →
      (∀ c, r.descendIn c ns q = a) → a.1 ∉ e.2 → ∀ c, r.descendIn c e.1 q = a
  | [], _, _, _, _, _, he, _, _ => by simp [Node.eraseStemIn] at he
  | n :: ns, depth, b, rest, e, h, he, ha, hd => by
    simp only [Node.WfEdges] at h
    rcases h with ⟨hc, _, hn, hb, hns⟩
    rcases Node.eraseStemIn_cons_cases he with
      ⟨_, _, rfl⟩ | ⟨tail, e', _, _, hin, rfl⟩ | ⟨e', _, hin, rfl⟩
    · -- the stem takes the whole child, and no walk through it can have its answer
      have hall (q : Key) : (r.descend n q).1 ∈ n.channels := descend_mem_channels hr n q
      have hne : a.1 ≠ n.channel := fun h => hd (h ▸ n.channel_mem_channels)
      exact descendIn_replace hr none ha hne hc (by simp) fun tail ht => absurd (ht ▸ hall tail) hd
    · have hne : a.1 ≠ n.channel := fun h => hd (h ▸ channel_mem_eraseStem hin)
      refine descendIn_survives hr s depth hc ha hne ?_ fun tail' ht => ?_
      · rcases Node.exists_settle_of_eraseStem s n (depth + 1) tail e' hn hin with
          ⟨_, he'⟩ | ⟨edges, he', hw, _⟩
        · simp [he']
        · exact fun m hm => (Node.replaces_settle s hc hw m (he' ▸ hm)).label
      · exact survives_eraseStem n (depth + 1) tail tail' e' hn hin (ht ▸ hd)
    · exact descendIn_cons_tail ha fun htail =>
        descendIn_eraseStemIn ns depth b rest e' hns hin htail hd

end

end Removal

end Lawful

/-! ## The readers of a node -/

/-- The reader behind `Node.watch`. -/
def watch : Reader V (Option (Leaf V)) where
  stop n := (n.leaf.elim n.channel Leaf.channel, n.leaf)
  miss channel := (channel, none)
  part channel _ _ := (channel, none)

/-- The reader behind `Node.seek`. -/
def seek : Reader V (Option (Node V)) where
  stop n := (n.channel, some n)
  miss channel := (channel, none)
  part _ n search := (n.channel, if n.chunk.startsWith search then some n else none)

theorem lawful_watch : (watch : Reader V _).Lawful where
  miss _ := rfl
  stop n := by
    rcases n with ⟨chunk, channel, leaf, edges⟩
    cases leaf with
    | none => exact .inl rfl
    | some l =>
      refine .inr ⟨⟨l, rfl, rfl⟩, fun m hm => ?_⟩
      simp [watch, hm]
  part _ _ _ := .inl rfl

theorem lawful_seek : (seek : Reader V _).Lawful where
  miss _ := rfl
  stop _ := .inl rfl
  part _ _ _ := .inr ⟨rfl, fun _ => rfl⟩

mutual

theorem descend_watch : ∀ (n : Node V) (search : Key), watch.descend n search = n.watch search
  | .mk _ _ none _, [] => rfl
  | .mk _ _ (some _) _, [] => rfl
  | .mk _ channel leaf edges, b :: rest => by
    rw [descend, descendIn_watch channel edges (b :: rest)]
    cases leaf <;> rfl

theorem descendIn_watch (channel : Channel) : ∀ (ns : List (Node V)) (search : Key),
    watch.descendIn channel ns search = Node.watchIn channel ns search
  | [], _ => rfl
  | n :: ns, search => by
    rw [descendIn, Node.watchIn, descendIn_watch channel ns search]
    split
    · cases n.chunk.after? search with
      | none => rfl
      | some rest => exact descend_watch n rest
    · rfl

end

mutual

theorem descend_seek : ∀ (n : Node V) (stem : Key), seek.descend n stem = n.seek stem
  | .mk _ _ _ _, [] => rfl
  | .mk _ channel _ edges, b :: rest => descendIn_seek channel edges (b :: rest)

theorem descendIn_seek (channel : Channel) : ∀ (ns : List (Node V)) (stem : Key),
    seek.descendIn channel ns stem = Node.seekIn channel ns stem
  | [], _ => rfl
  | n :: ns, stem => by
    rw [descendIn, Node.seekIn, descendIn_seek channel ns stem]
    split
    · cases n.chunk.after? stem with
      | none =>
        change (n.channel, if n.chunk.startsWith stem then some n else none) = _
        cases n.chunk.startsWith stem <;> rfl
      | some rest => exact descend_seek n rest
    · rfl

end

end Reader

end SnapStore
