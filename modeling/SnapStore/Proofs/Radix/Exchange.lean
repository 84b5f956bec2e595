import SnapStore.Radix.Tree
import SnapStore.Proofs.Radix.Edits

/-! # What an edit exchanges

Every node and every leaf of a tree owns a channel. An edit lets some of these owners go and
makes new ones, and the books balance: the owners after the edit and those that went are the
owners before it and those that were made. The channels of those that went are the ones that the
edit answers with, each as often as its owner went; the channels of the new ones carry the stamp
of the edit and differ from each other by the depth and the part.

Nothing here depends on the shape of the tree.

Main statements: `exchanges_insert`, `exchanges_erase` and `exchanges_eraseStem`, one for each
edit.
-/

namespace SnapStore

universe u

variable {V : Type u}

/-! ## Owners -/

/-- An owner of a channel. -/
inductive Owner (V : Type u) where
  | node (n : Node V)
  | leaf (l : Leaf V)

/-- The channel that fires when its owner is replaced or removed. -/
def Owner.channel : Owner V → Channel
  | node n => n.channel
  | leaf l => l.channel

namespace Node

mutual

/-- The owners of a subtree: the node, its leaf, and all below. -/
def owners : Node V → List (Owner V)
  | n@(mk _ _ leaf edges) => .node n :: (leaf.toList.map .leaf ++ ownersOf edges)

/-- The owners of several subtrees. -/
def ownersOf : List (Node V) → List (Owner V)
  | [] => []
  | n :: ns => n.owners ++ ownersOf ns

end

theorem owners_eq (n : Node V) :
    n.owners = .node n :: (n.leaf.toList.map .leaf ++ ownersOf n.edges) := by
  cases n
  rfl

theorem ownersOf_append (ns ms : List (Node V)) :
    ownersOf (ns ++ ms) = ownersOf ns ++ ownersOf ms := by
  induction ns with
  | nil => rfl
  | cons n ns ih => simp [ownersOf, ih]

theorem map_channel_leaf (leaf : Option (Leaf V)) :
    (leaf.toList.map Owner.leaf).map Owner.channel = leaf.toList.map Leaf.channel := by
  rw [List.map_map]
  rfl

mutual

theorem map_channel_owners : ∀ n : Node V, n.owners.map Owner.channel = n.channels
  | mk _ channel leaf edges => by
    rw [owners, channels, List.map_cons, List.map_append, map_channel_leaf,
      map_channel_ownersOf edges]
    rfl

theorem map_channel_ownersOf : ∀ ns : List (Node V),
    (ownersOf ns).map Owner.channel = channelsOf ns
  | [] => rfl
  | n :: ns => by
    rw [ownersOf, channelsOf, List.map_append, map_channel_owners n, map_channel_ownersOf ns]

end

end Node

/-! ## Exchanges -/

theorem perm_append_swap {β : Type u} (xs ys zs : List β) :
    (xs ++ ys ++ zs).Perm (xs ++ zs ++ ys) := by
  rw [List.append_assoc, List.append_assoc]
  exact List.perm_append_comm.append_left xs

/-- The owners `old` become `new`: those in `gone` went, those in `made` are new, and the
channels of the new ones are distinct and fit `P`. -/
structure Exchange (P : Channel → Prop) (old new gone made : List (Owner V)) : Prop where
  balance : (new ++ gone).Perm (old ++ made)
  nodup : (made.map Owner.channel).Nodup
  fits : ∀ x ∈ made, P x.channel

/-- The owners `old` become `new` while the given channels are displaced. -/
def Exchanges (P : Channel → Prop) (old new : List (Owner V)) (displaced : List Channel) : Prop :=
  ∃ gone made, Exchange P old new gone made ∧ gone.map Owner.channel = displaced

namespace Exchanges

variable {P Q R : Channel → Prop} {old mid new : List (Owner V)}
  {displaced displaced' : List Channel}

/-- Some owners go and others take their place. -/
theorem swap (xs ys : List (Owner V)) (hnodup : (ys.map Owner.channel).Nodup)
    (hfits : ∀ y ∈ ys, P y.channel) (ctx : List (Owner V)) :
    Exchanges P (xs ++ ctx) (ys ++ ctx) (xs.map Owner.channel) := by
  refine ⟨xs, ys, ⟨?_, hnodup, hfits⟩, rfl⟩
  calc
    (ys ++ ctx ++ xs).Perm (xs ++ (ys ++ ctx)) := List.perm_append_comm
    (xs ++ (ys ++ ctx)).Perm (xs ++ (ctx ++ ys)) := List.perm_append_comm.append_left xs
    (xs ++ (ctx ++ ys)).Perm (xs ++ ctx ++ ys) := by rw [List.append_assoc]

theorem refl (P : Channel → Prop) (old : List (Owner V)) : Exchanges P old old [] :=
  swap [] [] List.nodup_nil (fun _ h => nomatch h) old

/-- Some owners go. -/
theorem drop (P : Channel → Prop) (xs ctx : List (Owner V)) :
    Exchanges P (xs ++ ctx) ctx (xs.map Owner.channel) :=
  swap xs [] List.nodup_nil (fun _ h => nomatch h) ctx

/-- New owners come. -/
theorem make (ys : List (Owner V)) (hnodup : (ys.map Owner.channel).Nodup)
    (hfits : ∀ y ∈ ys, P y.channel) (ctx : List (Owner V)) :
    Exchanges P ctx (ys ++ ctx) [] :=
  swap [] ys hnodup hfits ctx

theorem mono (h : Exchanges P old new displaced) (hPQ : ∀ c, P c → Q c) :
    Exchanges Q old new displaced := by
  rcases h with ⟨gone, made, hex, hdisp⟩
  exact ⟨gone, made, ⟨hex.balance, hex.nodup, fun x hx => hPQ _ (hex.fits x hx)⟩, hdisp⟩

/-- The order of the owners does not count. -/
theorem perm {old' new' : List (Owner V)} (h : Exchanges P old new displaced)
    (hold : old'.Perm old) (hnew : new'.Perm new) : Exchanges P old' new' displaced := by
  rcases h with ⟨gone, made, hex, hdisp⟩
  refine ⟨gone, made, ⟨?_, hex.nodup, hex.fits⟩, hdisp⟩
  exact ((hnew.append_right gone).trans hex.balance).trans (hold.symm.append_right made)

/-- Owners beside those that are exchanged stay. -/
theorem append_right (h : Exchanges P old new displaced) (ctx : List (Owner V)) :
    Exchanges P (old ++ ctx) (new ++ ctx) displaced := by
  rcases h with ⟨gone, made, hex, hdisp⟩
  refine ⟨gone, made, ⟨?_, hex.nodup, hex.fits⟩, hdisp⟩
  calc
    (new ++ ctx ++ gone).Perm (new ++ gone ++ ctx) := perm_append_swap new ctx gone
    (new ++ gone ++ ctx).Perm (old ++ made ++ ctx) := hex.balance.append_right ctx
    (old ++ made ++ ctx).Perm (old ++ ctx ++ made) := perm_append_swap old made ctx

theorem append_left (h : Exchanges P old new displaced) (ctx : List (Owner V)) :
    Exchanges P (ctx ++ old) (ctx ++ new) displaced :=
  (h.append_right ctx).perm List.perm_append_comm List.perm_append_comm

/-- One exchange follows the other, if what they make cannot be confused. -/
theorem trans (h : Exchanges P old mid displaced) (h' : Exchanges Q mid new displaced')
    (hP : ∀ c, P c → R c) (hQ : ∀ c, Q c → R c) (hPQ : ∀ c, P c → ¬ Q c) :
    Exchanges R old new (displaced ++ displaced') := by
  rcases h with ⟨gone, made, hex, rfl⟩
  rcases h' with ⟨gone', made', hex', rfl⟩
  refine ⟨gone ++ gone', made ++ made', ⟨?_, ?_, ?_⟩, List.map_append⟩
  · calc
      (new ++ (gone ++ gone')).Perm (new ++ gone' ++ gone) := by
        rw [← List.append_assoc]
        exact perm_append_swap new gone gone'
      (new ++ gone' ++ gone).Perm (mid ++ made' ++ gone) := hex'.balance.append_right gone
      (mid ++ made' ++ gone).Perm (mid ++ gone ++ made') := perm_append_swap mid made' gone
      (mid ++ gone ++ made').Perm (old ++ (made ++ made')) := by
        rw [← List.append_assoc]
        exact hex.balance.append_right made'
  · rw [List.map_append, List.nodup_append]
    refine ⟨hex.nodup, hex'.nodup, fun c hc c' hc' heq => ?_⟩
    rcases List.mem_map.1 hc with ⟨x, hx, rfl⟩
    rcases List.mem_map.1 hc' with ⟨y, hy, rfl⟩
    exact hPQ _ (hex.fits x hx) (heq ▸ hex'.fits y hy)
  · intro x hx
    rcases List.mem_append.1 hx with hx | hx
    · exact hP _ (hex.fits x hx)
    · exact hQ _ (hex'.fits x hx)

/-- Another owner goes behind those that are exchanged. -/
theorem drop_after (h : Exchanges P old new displaced) (x : Owner V) :
    Exchanges P (x :: old) new (displaced ++ [x.channel]) :=
  (h.append_left [x]).trans (drop (fun _ => False) [x] new) (fun _ hc => hc)
    (fun _ hc => hc.elim) fun _ _ hc => hc

/-- Another owner goes before those that are exchanged. -/
theorem drop_before (h : Exchanges P old new displaced) (x : Owner V) :
    Exchanges P (x :: old) new (x.channel :: displaced) :=
  (drop (fun _ => False) [x] old).trans h (fun _ hc => hc.elim) (fun _ hc => hc)
    fun _ hc => hc.elim

end Exchanges

/-! ## Where an edit makes channels -/

/-- Made by an edit with the stamp `s`, at the given depth or below. -/
def Channel.From (s : Stamp) (depth : Nat) (c : Channel) : Prop :=
  c.stamp = s ∧ depth ≤ c.depth

/-- Made by an edit with the stamp `s` beneath the node at the given depth: the part of a copied
node at this depth itself is not among them. -/
def Channel.Beneath (s : Stamp) (depth : Nat) (c : Channel) : Prop :=
  c.stamp = s ∧ (depth < c.depth ∨ depth = c.depth ∧ c.part ≠ .node)

namespace Channel

variable {s : Stamp} {depth : Nat} {c : Channel}

theorem From.beneath (h : c.From s (depth + 1)) : c.Beneath s depth :=
  ⟨h.1, .inl h.2⟩

theorem Beneath.from (h : c.Beneath s depth) : c.From s depth :=
  ⟨h.1, h.2.elim Nat.le_of_lt fun heq => Nat.le_of_eq heq.1⟩

theorem from_channel (s : Stamp) (depth : Nat) (part : Part) :
    (s.channel depth part).From s depth :=
  ⟨rfl, Nat.le_refl depth⟩

theorem beneath_channel {part : Part} (h : part ≠ .node) :
    (s.channel depth part).Beneath s depth :=
  ⟨rfl, .inr ⟨rfl, h⟩⟩

theorem Beneath.ne (h : c.Beneath s depth) : c ≠ s.channel depth .node := by
  rintro rfl
  rcases h.2 with hlt | ⟨_, hpart⟩
  · exact Nat.lt_irrefl depth hlt
  · exact hpart rfl

end Channel

/-- What happens beneath a node and the copy of the node itself cannot be confused. -/
theorem Exchanges.copied {s : Stamp} {depth : Nat} {old mid new : List (Owner V)}
    {displaced displaced' : List Channel}
    (h : Exchanges (Channel.Beneath s depth) old mid displaced)
    (h' : Exchanges (· = s.channel depth .node) mid new displaced') :
    Exchanges (Channel.From s depth) old new (displaced ++ displaced') :=
  h.trans h' (fun _ => Channel.Beneath.from) (fun _ hc => hc ▸ Channel.from_channel s depth .node)
    fun _ => Channel.Beneath.ne

namespace Node

variable (s : Stamp)

/-! ## One node -/

/-- When a node goes, its leaf and what became of its children are left. -/
theorem exchanges_open {depth : Nat} {edges edges' : List (Node V)} {displaced : List Channel}
    (h : Exchanges (Channel.Beneath s depth) (ownersOf edges) (ownersOf edges') displaced)
    (chunk : Key) (channel : Channel) (leaf : Option (Leaf V)) :
    Exchanges (Channel.Beneath s depth) (mk chunk channel leaf edges).owners
      (leaf.toList.map .leaf ++ ownersOf edges') (displaced ++ [channel]) :=
  (h.append_left (leaf.toList.map .leaf)).drop_after (.node (mk chunk channel leaf edges))

/-- A new node takes a leaf and children. -/
theorem exchanges_mk (depth : Nat) (chunk : Key) (leaf : Option (Leaf V))
    (edges : List (Node V)) :
    Exchanges (· = s.channel depth .node) (leaf.toList.map .leaf ++ ownersOf edges)
      (mk chunk (s.channel depth .node) leaf edges).owners [] := by
  refine Exchanges.make [.node (mk chunk (s.channel depth .node) leaf edges)] ?_ ?_ _
  · simp
  · simp [Owner.channel, channel]

/-! ## Insertion -/

section Insertion

variable (key : Key) (value : V)

theorem owners_twig (depth : Nat) (chunk : Key) :
    (twig s depth key value chunk).owners =
      [.node (twig s depth key value chunk), .leaf (newLeaf s depth key value)] := rfl

theorem owners_stub (depth : Nat) (n : Node V) (chunk : Key) :
    (n.stub s depth chunk).owners =
      .node (n.stub s depth chunk) :: (n.leaf.toList.map .leaf ++ ownersOf n.edges) := rfl

theorem perm_ownersOf_pair (m n : Node V) : (ownersOf (pair m n)).Perm (m.owners ++ n.owners) := by
  have hswap : (ownersOf [n, m]).Perm (m.owners ++ n.owners) := by
    simpa [ownersOf] using List.perm_append_comm
  unfold pair
  split
  · split
    · exact hswap
    · simp [ownersOf]
  · simp [ownersOf]

/-- A new child stands beneath its parent. -/
theorem exchanges_twig (depth : Nat) (chunk : Key) (ctx : List (Owner V)) :
    Exchanges (Channel.Beneath s depth) ctx ((twig s depth key value chunk).owners ++ ctx) [] := by
  rw [owners_twig]
  refine Exchanges.make _ ?_ ?_ ctx
  · simp [Owner.channel, channel, twig, newLeaf, Stamp.channel]
  · simp [Owner.channel, channel, twig, newLeaf, Channel.beneath_channel]

/-- A split replaces the node whose edge it splits, and keeps all below. -/
theorem exchanges_split (depth : Nat) (n : Node V) (f : Key.Fork) :
    Exchanges (Channel.Beneath s depth) n.owners (n.split s depth key value f).owners
      [n.channel] := by
  let below := n.leaf.toList.map Owner.leaf ++ ownersOf n.edges
  have hold : n.owners = [.node n] ++ below := owners_eq n
  rcases f with ⟨shared, left, right⟩
  cases right with
  | nil =>
    let fork := mk shared (s.channel depth .fork) (some (newLeaf s depth key value))
      [n.stub s depth left]
    have hnew : fork.owners =
        [.node fork, .leaf (newLeaf s depth key value), .node (n.stub s depth left)] ++ below := by
      simp [fork, owners, ownersOf, owners_stub, below]
    change Exchanges _ n.owners fork.owners _
    rw [hold, hnew]
    refine Exchanges.swap _ _ ?_ ?_ below
    · simp [Owner.channel, channel, newLeaf, stub, fork, Stamp.channel]
    · simp [Owner.channel, channel, newLeaf, stub, fork, Channel.beneath_channel]
  | cons b rest =>
    let twig := twig s depth key value (b :: rest)
    let fork := mk shared (s.channel depth .fork) none (pair (n.stub s depth left) twig)
    have hnew : fork.owners.Perm ([.node fork, .node (n.stub s depth left), .node twig,
        .leaf (newLeaf s depth key value)] ++ below) := by
      refine .cons _ ((perm_ownersOf_pair _ _).trans ?_)
      rw [owners_stub, owners_twig]
      exact .cons _ List.perm_append_comm
    change Exchanges _ n.owners fork.owners _
    refine Exchanges.perm (Exchanges.swap _ _ ?_ ?_ below) (.of_eq hold) hnew
    · simp [Owner.channel, channel, newLeaf, stub, fork, twig, Node.twig, Stamp.channel]
    · simp [Owner.channel, channel, newLeaf, stub, fork, twig, Node.twig, Channel.beneath_channel]

mutual

/-- An insertion makes its nodes at this depth and below. -/
theorem exchanges_insert :
    ∀ (n : Node V) (depth : Nat) (search : Key), Exchanges (Channel.From s depth) n.owners
      (n.insert s key value depth search).1.owners (n.insert s key value depth search).2
  | mk chunk channel leaf edges, depth, [] => by
    -- the node and its leaf go, and both get a successor
    let old := mk chunk channel leaf edges
    have hleaf : Exchanges (Channel.Beneath s depth) old.owners
        ([.leaf (newLeaf s depth key value)] ++ ownersOf edges)
        ((leaf.toList.map Owner.leaf ++ [Owner.node old]).map Owner.channel) := by
      refine (Exchanges.swap _ _ ?_ ?_ (ownersOf edges)).perm ?_ (.refl _)
      · simp
      · simp [Owner.channel, newLeaf, Channel.beneath_channel]
      · rw [List.append_assoc]
        exact List.perm_middle.symm
    have hcopy := exchanges_mk s depth chunk (some (newLeaf s depth key value)) edges
    have hboth := hleaf.copied hcopy
    rw [List.map_append, map_channel_leaf, List.append_nil] at hboth
    exact hboth
  | mk chunk channel leaf edges, depth, b :: rest => by
    let n := mk chunk channel leaf edges
    have hin := (exchanges_insertIn (.node n) edges depth b (b :: rest)).append_left
      (leaf.toList.map .leaf)
    have hold : n.owners.Perm (leaf.toList.map .leaf ++ .node n :: ownersOf edges) :=
      List.perm_middle.symm
    have hopen := hin.perm hold (.refl _)
    have hcopy := exchanges_mk s depth chunk leaf
      (insertIn s key value depth channel edges b (b :: rest)).1
    have hboth := hopen.copied hcopy
    rw [List.append_nil] at hboth
    exact hboth

/-- An insertion behind the edges of a node makes its nodes beneath that node, which goes. -/
theorem exchanges_insertIn (x : Owner V) :
    ∀ (ns : List (Node V)) (depth : Nat) (b : UInt8) (search : Key),
      Exchanges (Channel.Beneath s depth) (x :: ownersOf ns)
        (ownersOf (insertIn s key value depth x.channel ns b search).1)
        (insertIn s key value depth x.channel ns b search).2
  | [], depth, _, search => by
    have htwig := (exchanges_twig s key value depth search []).drop_after x
    simpa [insertIn, ownersOf] using htwig
  | n :: ns, depth, b, search => by
    have hold : (x :: ownersOf (n :: ns)).Perm (n.owners ++ x :: ownersOf ns) :=
      List.perm_middle.symm
    have htail := ((exchanges_insertIn x ns depth b search).append_left n.owners).perm hold
      (.refl _)
    rw [insertIn]
    split
    · exact htail
    · split
      · split
        · -- the search goes on below this child
          rename_i rest _
          have hchild := (exchanges_insert n (depth + 1) rest).mono fun _ => Channel.From.beneath
          exact (hchild.append_right (ownersOf ns)).drop_after x
        · exact ((exchanges_split s key value depth n _).append_right (ownersOf ns)).drop_before x
      · split
        · exact (exchanges_twig s key value depth search (ownersOf (n :: ns))).drop_after x
        · exact htail

end

end Insertion

/-! ## Removal -/

/-- The copy of a node that lost something takes what is left, or nothing is left to take, or
the one child that is left is joined with it. -/
theorem exchanges_settle (depth : Nat) (chunk : Key) (leaf : Option (Leaf V))
    (edges : List (Node V)) :
    Exchanges (· = s.channel depth .node) (leaf.toList.map .leaf ++ ownersOf edges)
      (ownersOf (settle s depth chunk leaf edges).1.toList)
      (settle s depth chunk leaf edges).2 := by
  unfold settle
  split
  · exact .refl _ _
  · -- all but the node of the child stays
    rename_i depth n
    let below := n.leaf.toList.map Owner.leaf ++ ownersOf n.edges
    let joined := mk (chunk ++ n.chunk) (s.channel (depth + 1) .node) n.leaf n.edges
    have hjoin : Exchanges (· = s.channel (depth + 1) .node) ([.node n] ++ below)
        ([.node joined] ++ below) [n.channel] := by
      refine Exchanges.swap [.node n] _ ?_ ?_ below
      · simp
      · simp [Owner.channel, channel, joined]
    simpa [ownersOf, owners, owners_eq n, joined, below] using hjoin
  · have hnew := exchanges_mk s depth chunk leaf edges
    simpa [ownersOf] using hnew

mutual

/-- A removal makes its nodes at this depth and below. -/
theorem exchanges_erase :
    ∀ (n : Node V) (depth : Nat) (search : Key) (r : Option (Node V) × List Channel),
      n.erase s depth search = some r →
        Exchanges (Channel.From s depth) n.owners (ownersOf r.1.toList) r.2
  | mk chunk channel leaf edges, depth, search, r, he => by
    rcases erase_cases he with ⟨l, rfl, hl, rfl⟩ | ⟨b, rest, e, rfl, hin, rfl⟩
    · simp only [leaf_mk] at hl
      subst hl
      let old := mk chunk channel (some l) edges
      have hgone : Exchanges (Channel.Beneath s depth) old.owners (ownersOf edges)
          [l.channel, channel] :=
        (Exchanges.drop _ [.leaf l, .node old] (ownersOf edges)).perm (.swap _ _ _) (.refl _)
      exact hgone.copied (exchanges_settle s depth chunk none edges)
    · have hopen := exchanges_open s (exchanges_eraseIn edges depth (b :: rest) e hin) chunk
        channel leaf
      exact hopen.copied (exchanges_settle s depth chunk leaf e.1)

/-- A removal behind the edges of a node makes its nodes beneath that node. -/
theorem exchanges_eraseIn :
    ∀ (ns : List (Node V)) (depth : Nat) (search : Key) (r : List (Node V) × List Channel),
      eraseIn s depth ns search = some r →
        Exchanges (Channel.Beneath s depth) (ownersOf ns) (ownersOf r.1) r.2
  | [], _, _, _, he => by simp [eraseIn] at he
  | n :: ns, depth, search, r, he => by
    rcases eraseIn_cons_cases he with ⟨rest, e, _, _, hin, rfl⟩ | ⟨e, _, hin, rfl⟩
    · have hchild := exchanges_erase n (depth + 1) rest e hin
      rw [ownersOf_append]
      exact (hchild.mono fun _ => Channel.From.beneath).append_right (ownersOf ns)
    · exact (exchanges_eraseIn ns depth search e hin).append_left n.owners

end

mutual

/-- The removal of a stem makes its nodes at this depth and below. -/
theorem exchanges_eraseStem :
    ∀ (n : Node V) (depth : Nat) (stem : Key) (r : Option (Node V) × List Channel),
      n.eraseStem s depth stem = some r →
        Exchanges (Channel.From s depth) n.owners (ownersOf r.1.toList) r.2
  | mk chunk channel leaf edges, depth, stem, r, he => by
    rcases eraseStem_cases he with ⟨rfl, rfl⟩ | ⟨b, rest, e, rfl, hin, rfl⟩
    · -- the node goes with all below
      have hgone := Exchanges.drop (Channel.From s depth) (mk chunk channel leaf edges).owners []
      rwa [List.append_nil, map_channel_owners] at hgone
    · have hopen := exchanges_open s (exchanges_eraseStemIn edges depth (b :: rest) e hin) chunk
        channel leaf
      exact hopen.copied (exchanges_settle s depth chunk leaf e.1)

/-- The removal of a stem behind the edges of a node makes its nodes beneath that node. -/
theorem exchanges_eraseStemIn :
    ∀ (ns : List (Node V)) (depth : Nat) (stem : Key) (r : List (Node V) × List Channel),
      eraseStemIn s depth ns stem = some r →
        Exchanges (Channel.Beneath s depth) (ownersOf ns) (ownersOf r.1) r.2
  | [], _, _, _, he => by simp [eraseStemIn] at he
  | n :: ns, depth, stem, r, he => by
    rcases eraseStemIn_cons_cases he with
      ⟨_, _, rfl⟩ | ⟨rest, e, _, _, hin, rfl⟩ | ⟨e, _, hin, rfl⟩
    · have hgone := Exchanges.drop (Channel.Beneath s depth) n.owners (ownersOf ns)
      rwa [map_channel_owners] at hgone
    · have hchild := exchanges_eraseStem n (depth + 1) rest e hin
      rw [ownersOf_append]
      exact (hchild.mono fun _ => Channel.From.beneath).append_right (ownersOf ns)
    · exact (exchanges_eraseStemIn ns depth stem e hin).append_left n.owners

end

end Node

end SnapStore
