import SnapStore.Board

/-! # Waiting for the first of many channels

A watch set collects channels. A watcher waits for the first member to fire: it
subscribes a wakeup of its own to the members one by one, stopping early at one that
has fired, waits for the wakeup, and takes its registrations back. Each `Watcher.step`
is one of these actions on the board, so that steps of other threads may come between
any two of them.

Main statement: `length_add` bounds the growth of a set, which holds no channel twice.
-/

namespace SnapStore

/-- A set of channels that can be waited on together. -/
structure WatchSet where
  members : List Channel := []
  nodup : members.Nodup := by decide

namespace WatchSet

/-- Adds a channel, unless it is there. -/
def add (ws : WatchSet) (c : Channel) : WatchSet :=
  if h : c ∈ ws.members then ws
  else ⟨ws.members ++ [c], by
    have hne : ∀ d ∈ ws.members, d ≠ c := fun d hd hc => h (hc ▸ hd)
    simpa [List.nodup_append, ws.nodup] using hne⟩

/-- Adds a channel while the set holds fewer than `limit`, and otherwise another one,
which should cover it. -/
def addWithLimit (ws : WatchSet) (limit : Nat) (c cover : Channel) : WatchSet :=
  if ws.members.length < limit then ws.add c else ws.add cover

/-- The number of different channels. -/
def size (ws : WatchSet) : Nat :=
  ws.members.length

/-- Whether the set has no channels. -/
def isEmpty (ws : WatchSet) : Bool :=
  ws.members.isEmpty

theorem length_add (ws : WatchSet) (c : Channel) :
    (ws.add c).size = if c ∈ ws.members then ws.size else ws.size + 1 := by
  unfold add size
  split <;> simp

end WatchSet

/-! ## The watcher -/

/-- Where a watcher is. -/
inductive Watcher where
  /-- It has not yet subscribed to these members. -/
  | subscribing (left : List Channel)
  /-- It waits for its wakeup. -/
  | waiting
  /-- It has yet to take its registrations with these members back; `fired` tells
  whether a member had fired. -/
  | leaving (left : List Channel) (fired : Bool)
  /-- It is done. -/
  | returned (fired : Bool)
  deriving DecidableEq, Repr

namespace Watcher

/-- The next action of a watcher with the wakeup `w` on the given members, if it is
not done and need not wait. -/
def step (members : List Channel) (w : Wakeup) : Watcher → Board → Option (Watcher × Board)
  | subscribing [], b => some (waiting, b)
  | subscribing (c :: cs), b =>
    match b.subscribe c w with
    -- a fired member ends the watch before it began to wait
    | (b, true) => some (leaving members true, b)
    | (b, false) => some (subscribing cs, b)
  | waiting, b => if b.isNotified w then some (leaving members true, b) else none
  | leaving [] fired, b => some (returned fired, b)
  | leaving (c :: cs) fired, b => some (leaving cs fired, b.unsubscribe c w)
  | returned _, _ => none

/-- A waiting watcher whose time is up leaves, notified or not. -/
def timeUp (members : List Channel) (w : Wakeup) : Watcher → Board → Watcher
  | waiting, b => leaving members (b.isNotified w)
  | other, _ => other

/-- Runs a watcher alone for at most the given number of steps. -/
def run (members : List Channel) (w : Wakeup) : Nat → Watcher → Board → Watcher × Board
  | 0, watcher, b => (watcher, b)
  | n + 1, watcher, b =>
    match step members w watcher b with
    | none => (watcher, b)
    | some (watcher, b) => run members w n watcher b

/-- Whether a watcher is done, and then whether a member had fired. -/
def result? : Watcher → Option Bool
  | returned fired => some fired
  | _ => none

end Watcher

namespace WatchSet

/-- As many steps as a watcher of the set can take without waiting. -/
def steps (ws : WatchSet) : Nat :=
  2 * ws.size + 3

/-- Runs a watcher of the set until it is done or has to wait. -/
def advance (ws : WatchSet) (w : Wakeup) (watcher : Watcher) (b : Board) : Watcher × Board :=
  watcher.run ws.members w ws.steps b

/-- Watches the set with no time to wait. The answer is whether the time ran out; an
empty set has nothing to wait for, so there it does. -/
def watchNow (ws : WatchSet) (b : Board) : Bool × Board :=
  if ws.isEmpty then (true, b)
  else
    let (w, b) := b.newName
    let (watcher, b) := ws.advance w (.subscribing ws.members) b
    let (watcher, b) := ws.advance w (watcher.timeUp ws.members w b) b
    (watcher.result? != some true, b)

/-- Watches the set without a time limit while `others` act. The answer is whether the
time ran out, and nothing if the watcher still waits when they are through. An empty
set could never wake anyone, so there the watcher returns at once. -/
def watchDuring (ws : WatchSet) (others : Board → Board) (b : Board) : Option Bool × Board :=
  if ws.isEmpty then (some false, others b)
  else
    let (w, b) := b.newName
    let (watcher, b) := ws.advance w (.subscribing ws.members) b
    let (watcher, b) := ws.advance w watcher (others b)
    (watcher.result?.map (!·), b)

end WatchSet

end SnapStore
