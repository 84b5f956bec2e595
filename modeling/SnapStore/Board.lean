import SnapStore.Channel
import SnapStore.Text.Outline

/-! # The board of fired channels

Channels carry no state of their own: the board records which of them have fired,
which wakeups are listening to which, which wakeups have been notified, and how many
owners of channels and wakeups there are so far, so that each gets a name of its own. Firing
is two kinds of step, as concurrent observers can tell them apart: `mark` sets the
channel and takes its listeners in one step, and each listener is notified in a
step of its own. `fire` runs them all.

Main statements: `isFired_fire` (firing sets this channel and no other),
`isNotified_fire` (and wakes exactly its listeners) and `listeners_fire` (none of whom
is left).
-/

namespace SnapStore

/-- A wakeup target that several channels may share. -/
abbrev Wakeup := Nat

/-- Which channels have fired (the latest first, and as often as they did), which
wakeups listen to which channel (in the order in which they came), which wakeups have
been notified, and how many names have been given out. -/
structure Board where
  fired : List Channel := []
  listening : List (Channel × Wakeup) := []
  notified : List Wakeup := []
  named : Nat := 0
  deriving Repr

namespace Board

/-- Whether a channel has fired. -/
def isFired (b : Board) (c : Channel) : Bool :=
  b.fired.contains c

/-- Whether a wakeup has been notified; a wait for it then returns at once. -/
def isNotified (b : Board) (w : Wakeup) : Bool :=
  b.notified.contains w

/-- The wakeups that listen to a channel, in the order in which they came. -/
def listeners (b : Board) (c : Channel) : List Wakeup :=
  (b.listening.filter (·.1 == c)).map (·.2)

/-! ## Names -/

/-- Gives out a name that nobody has: for an owner of channels, or for a wakeup. -/
def newName (b : Board) : Nat × Board :=
  (b.named, { b with named := b.named + 1 })

/-- Makes a channel that belongs to no tree. -/
def newChannel (b : Board) : Channel × Board :=
  let (name, b) := b.newName
  (⟨⟨name, 0, 0⟩, 0, .node⟩, b)

/-! ## Steps -/

/-- Marks a channel as fired and takes its listeners, who are still to be notified.
A channel that has fired before has none, as nobody can register with it any more. -/
def mark (b : Board) (c : Channel) : Board × List Wakeup :=
  ({ b with fired := c :: b.fired, listening := b.listening.filter (·.1 != c) },
    b.listeners c)

/-- Notifies a wakeup. -/
def notify (b : Board) (w : Wakeup) : Board :=
  if b.isNotified w then b else { b with notified := w :: b.notified }

/-- Registers a wakeup with a channel. If the channel has fired, nothing is
registered and the answer is true. -/
def subscribe (b : Board) (c : Channel) (w : Wakeup) : Board × Bool :=
  if b.isFired c then (b, true)
  else ({ b with listening := b.listening ++ [(c, w)] }, false)

/-- Takes every registration of a wakeup with a channel back. -/
def unsubscribe (b : Board) (c : Channel) (w : Wakeup) : Board :=
  { b with listening := b.listening.filter (· != (c, w)) }

/-! ## Firing -/

/-- Fires a channel: marks it, then notifies each of its listeners. -/
def fire (b : Board) (c : Channel) : Board :=
  let (marked, waiting) := b.mark c
  waiting.foldl notify marked

/-- Fires channels one after another. -/
def fireAll (b : Board) (cs : List Channel) : Board :=
  cs.foldl fire b

/-- A channel in words. -/
def describe (b : Board) (c : Channel) : String :=
  Outline.record "WatchCh" [("fired", Outline.bool (b.isFired c))]

@[simp] theorem fired_notify (b : Board) (w : Wakeup) : (b.notify w).fired = b.fired := by
  unfold notify
  split <;> rfl

@[simp] theorem listening_notify (b : Board) (w : Wakeup) :
    (b.notify w).listening = b.listening := by
  unfold notify
  split <;> rfl

@[simp] theorem isNotified_notify (b : Board) (w v : Wakeup) :
    (b.notify w).isNotified v = (v == w || b.isNotified v) := by
  unfold notify
  split
  · rename_i h
    by_cases hv : v = w
    · simp [hv, h]
    · simp [hv]
  · simp only [isNotified, List.contains_cons]

@[simp] theorem fired_foldl_notify (b : Board) (ws : List Wakeup) :
    (ws.foldl notify b).fired = b.fired := by
  induction ws generalizing b with
  | nil => rfl
  | cons w ws ih => simp [ih]

@[simp] theorem listening_foldl_notify (b : Board) (ws : List Wakeup) :
    (ws.foldl notify b).listening = b.listening := by
  induction ws generalizing b with
  | nil => rfl
  | cons w ws ih => simp [ih]

@[simp] theorem isNotified_foldl_notify (b : Board) (ws : List Wakeup) (v : Wakeup) :
    (ws.foldl notify b).isNotified v = (ws.contains v || b.isNotified v) := by
  induction ws generalizing b with
  | nil => simp
  | cons w ws ih =>
    simp only [List.foldl_cons, ih, isNotified_notify, List.contains_cons]
    cases ws.contains v <;> simp

@[simp] theorem isFired_fire (b : Board) (c d : Channel) :
    (b.fire c).isFired d = (d == c || b.isFired d) := by
  simp only [fire, mark, isFired, fired_foldl_notify, List.contains_cons]

@[simp] theorem isNotified_fire (b : Board) (c : Channel) (w : Wakeup) :
    (b.fire c).isNotified w = ((b.listeners c).contains w || b.isNotified w) := by
  simp only [fire, mark, isNotified_foldl_notify]
  rfl

@[simp] theorem listeners_fire (b : Board) (c d : Channel) :
    (b.fire c).listeners d = if d = c then [] else b.listeners d := by
  simp only [fire, mark, listeners, listening_foldl_notify, List.filter_filter]
  split
  · rename_i h
    simp [h]
  · rename_i h
    congr 2
    funext l
    by_cases hl : l.1 = d <;> simp [hl, h]

@[simp] theorem isFired_fireAll (b : Board) (cs : List Channel) (d : Channel) :
    (b.fireAll cs).isFired d = (cs.contains d || b.isFired d) := by
  unfold fireAll
  induction cs generalizing b with
  | nil => simp
  | cons c cs ih =>
    simp only [List.foldl_cons, ih, isFired_fire, List.contains_cons]
    cases cs.contains d <;> simp

end Board

end SnapStore
