import Mathlib.Logic.Function.Basic
import SnapStore.Watch

/-! # Watches and the threads that fire

Any number of watches are under way, and any number of threads fire channels. A watch makes a
wakeup of its own, registers it with the members of its set one by one, waits, and takes the
registrations back. A thread marks a channel as fired and takes its listeners in one step, and
notifies each of them in a step of its own. So a thread may have taken the listeners of one
member while a watch still registers with the next one.

Main statements: `Sound.step` (what a step of a watch keeps to), `Sound.move`, and
`loses_no_wakeup`.
-/

namespace SnapStore

namespace Board

variable {b : Board} {c d : Channel} {w u : Wakeup}

theorem mem_listeners : w ∈ b.listeners c ↔ (c, w) ∈ b.listening := by
  simp [listeners]

theorem mem_listeners_subscribe (hfired : b.isFired c = false) :
    u ∈ (b.subscribe c w).1.listeners d ↔ u ∈ b.listeners d ∨ (d = c ∧ u = w) := by
  simp [subscribe, hfired, mem_listeners]

theorem mem_listeners_unsubscribe :
    u ∈ (b.unsubscribe c w).listeners d ↔ u ∈ b.listeners d ∧ ¬ (d = c ∧ u = w) := by
  simp [unsubscribe, mem_listeners]

theorem isFired_mark : (b.mark c).1.isFired d = (d == c || b.isFired d) := by
  simp only [mark, isFired, List.contains_cons]

theorem mem_listeners_mark : u ∈ (b.mark c).1.listeners d ↔ u ∈ b.listeners d ∧ d ≠ c := by
  simp [mark, mem_listeners]

end Board

/-- A watch under way: its set, whether it has a time limit, and where its watcher is. -/
structure Watch where
  set : WatchSet
  timed : Bool
  watcher : Watcher

/-- A thread that has marked a channel and has these listeners still to notify. -/
structure Firing where
  channel : Channel
  waiting : List Wakeup

/-- The watches under way, each known by its wakeup, and the threads that fire, around one
board. -/
structure Lookout where
  board : Board := {}
  watches : Wakeup → Option Watch := fun _ => none
  threads : Nat → Option Firing := fun _ => none

namespace Lookout

/-! ## Moves -/

/-- What may happen next. -/
inductive Move where
  /-- Somebody begins to watch a set. -/
  | watch (set : WatchSet) (timed : Bool)
  /-- The watch with this wakeup takes its next step. -/
  | advance (w : Wakeup)
  /-- The time limit of the watch with this wakeup has passed. -/
  | timeUp (w : Wakeup)
  /-- A thread marks a channel and takes its listeners. -/
  | mark (thread : Nat) (c : Channel)
  /-- A thread notifies the next listener, or has notified all. -/
  | notify (thread : Nat)

/-- The watch with this wakeup is now at `v`. -/
def goOn (x : Lookout) (w : Wakeup) (v : Watch) (board : Board) : Lookout :=
  { x with board := board, watches := Function.update x.watches w (some v) }

/-- One move. A set without members has nothing to wait for, so watching it takes no step. A
thread that is still notifying does not mark another channel. -/
def move (x : Lookout) : Move → Lookout
  | .watch set timed =>
    if set.isEmpty then x
    else
      let (w, board) := x.board.newName
      x.goOn w ⟨set, timed, .subscribing set.members⟩ board
  | .advance w =>
    match x.watches w with
    | none => x
    | some v =>
      match v.watcher.step v.set.members w x.board with
      | none => x
      | some (watcher, board) => x.goOn w { v with watcher := watcher } board
  | .timeUp w =>
    match x.watches w with
    | none => x
    | some v =>
      if v.timed then
        x.goOn w { v with watcher := v.watcher.timeUp v.set.members w x.board } x.board
      else x
  | .mark thread c =>
    match x.threads thread with
    | some _ => x
    | none =>
      let (board, waiting) := x.board.mark c
      { x with board := board, threads := Function.update x.threads thread (some ⟨c, waiting⟩) }
  | .notify thread =>
    match x.threads thread with
    | none => x
    | some ⟨_, []⟩ => { x with threads := Function.update x.threads thread none }
    | some ⟨c, w :: waiting⟩ =>
      { x with
        board := x.board.notify w
        threads := Function.update x.threads thread (some ⟨c, waiting⟩) }

/-- Some moves, in their order. -/
def moveAll (x : Lookout) (moves : List Move) : Lookout :=
  moves.foldl move x

/-! ## What watches keep to -/

/-- A thread has marked the channel and has this wakeup still to notify. -/
def Owes (x : Lookout) (c : Channel) (w : Wakeup) : Prop :=
  ∃ thread waiting, x.threads thread = some ⟨c, waiting⟩ ∧ w ∈ waiting

/-- The wakeup is notified, or it is about to be. -/
def Wakes (x : Lookout) (w : Wakeup) : Prop :=
  x.board.isNotified w = true ∨ ∃ c, x.Owes c w

/-- No firing of the channel can pass the wakeup by: either the channel has not fired and has
the wakeup among its listeners, or it has fired, and the wakeup is notified or about to be
notified by the thread that fired it. -/
def Covers (x : Lookout) (c : Channel) (w : Wakeup) : Prop :=
  (x.board.isFired c = false ∧ w ∈ x.board.listeners c) ∨
    (x.board.isFired c = true ∧ (x.board.isNotified w = true ∨ x.Owes c w))

/-- One of the channels has fired. -/
def AnyFired (x : Lookout) (cs : List Channel) : Prop :=
  ∃ c ∈ cs, x.board.isFired c = true

/-- What a watcher keeps to between its steps. -/
def KeepsAt (x : Lookout) (members : List Channel) (timed : Bool) (w : Wakeup) : Watcher → Prop
  | .subscribing left => ∃ done, members = done ++ left ∧ ∀ c ∈ done, x.Covers c w
  | .waiting => ∀ c ∈ members, x.Covers c w
  | .leaving left fired =>
    (∀ c, w ∈ x.board.listeners c → c ∈ left) ∧ (fired = true → x.AnyFired members) ∧
      (fired = false → timed = true)
  | .returned fired =>
    (∀ c, w ∉ x.board.listeners c) ∧ (fired = true → x.AnyFired members) ∧
      (fired = false → timed = true)

/-- What a watch keeps to: its wakeup listens to members only, nobody notifies it before a
member has fired, and the watcher keeps to its stage. -/
structure Keeps (x : Lookout) (w : Wakeup) (v : Watch) : Prop where
  named : w < x.board.named
  lists : ∀ c, w ∈ x.board.listeners c → c ∈ v.set.members
  wakes : x.Wakes w → x.AnyFired v.set.members
  stage : x.KeepsAt v.set.members v.timed w v.watcher

/-- What the board, the threads and all watches keep to. -/
structure Sound (x : Lookout) : Prop where
  /-- Nobody listens to a channel that has fired. -/
  silent : ∀ c, x.board.isFired c = true → x.board.listeners c = []
  /-- Every wakeup that listens has a name. -/
  listed : ∀ c, ∀ w ∈ x.board.listeners c, w < x.board.named
  /-- So has every wakeup that is notified or about to be. -/
  woken : ∀ w, x.Wakes w → w < x.board.named
  keeps : ∀ w v, x.watches w = some v → x.Keeps w v

theorem Sound.empty : ({} : Lookout).Sound where
  silent := nofun
  listed := nofun
  woken := by
    rintro w (h | ⟨c, thread, waiting, h, -⟩)
    · cases h
    · cases h
  keeps := nofun

variable {x y : Lookout} {w u : Wakeup} {v : Watch} {c d : Channel}

/-! ## Steps of others -/

/-- A move of somebody else passes a wakeup by: what covers it goes on to cover it, it listens
to nothing new, and if it will be woken now, a channel that it listened to has fired. -/
structure Spares (w : Wakeup) (x y : Lookout) : Prop where
  named : x.board.named ≤ y.board.named
  fired : ∀ c, x.board.isFired c = true → y.board.isFired c = true
  lists : ∀ c, w ∈ y.board.listeners c → w ∈ x.board.listeners c
  covers : ∀ c, x.Covers c w → y.Covers c w
  wakes : y.Wakes w → x.Wakes w ∨ ∃ c, w ∈ x.board.listeners c ∧ y.board.isFired c = true

theorem Spares.anyFired (h : Spares w x y) {cs : List Channel} (hx : x.AnyFired cs) :
    y.AnyFired cs := by
  rcases hx with ⟨c, hc, hfired⟩
  exact ⟨c, hc, h.fired c hfired⟩

theorem Spares.keepsAt (h : Spares w x y) {members : List Channel} {timed : Bool}
    {watcher : Watcher} (hx : x.KeepsAt members timed w watcher) :
    y.KeepsAt members timed w watcher := by
  cases watcher with
  | subscribing left =>
    rcases hx with ⟨done, hdone, hcovers⟩
    exact ⟨done, hdone, fun c hc => h.covers c (hcovers c hc)⟩
  | waiting => exact fun c hc => h.covers c (hx c hc)
  | leaving left fired =>
    rcases hx with ⟨hlists, hfired, htimed⟩
    exact ⟨fun c hc => hlists c (h.lists c hc), fun hf => h.anyFired (hfired hf), htimed⟩
  | returned fired =>
    rcases hx with ⟨hlists, hfired, htimed⟩
    exact ⟨fun c hc => hlists c (h.lists c hc), fun hf => h.anyFired (hfired hf), htimed⟩

/-- A watch keeps to it while others move. -/
theorem Keeps.spares (hx : x.Keeps w v) (h : Spares w x y) : y.Keeps w v where
  named := Nat.lt_of_lt_of_le hx.named h.named
  lists := fun c hc => hx.lists c (h.lists c hc)
  wakes := by
    intro hwakes
    rcases h.wakes hwakes with hbefore | ⟨c, hlisted, hfired⟩
    · exact h.anyFired (hx.wakes hbefore)
    · exact ⟨c, hx.lists c hlisted, hfired⟩
  stage := h.keepsAt hx.stage

/-- Steps that fire and notify nothing spare every wakeup whose registrations stay. -/
theorem Spares.of_listeners (hfired : y.board.fired = x.board.fired)
    (hnotified : y.board.notified = x.board.notified) (hthreads : y.threads = x.threads)
    (hnamed : x.board.named ≤ y.board.named)
    (hlists : ∀ c, w ∈ y.board.listeners c ↔ w ∈ x.board.listeners c) : Spares w x y := by
  have hisFired (c : Channel) : y.board.isFired c = x.board.isFired c := by
    rw [Board.isFired, Board.isFired, hfired]
  have hisNotified : y.board.isNotified w = x.board.isNotified w := by
    rw [Board.isNotified, Board.isNotified, hnotified]
  have howes (c : Channel) : y.Owes c w ↔ x.Owes c w := by rw [Owes, Owes, hthreads]
  refine ⟨hnamed, fun c hc => (hisFired c).trans hc, fun c => (hlists c).1, fun c hc => ?_,
    fun hwakes => .inl ?_⟩
  · rwa [Covers, hisFired, hisNotified, howes, hlists]
  · simpa only [Wakes, hisNotified, howes] using hwakes

/-! ## Steps of a watch -/

/-- A watch goes on, and touches nothing on the board but the registrations of its wakeup. -/
structure Touches (x : Lookout) (w : Wakeup) (board : Board) : Prop where
  fired : board.fired = x.board.fired
  notified : board.notified = x.board.notified
  named : x.board.named ≤ board.named
  others : ∀ u, u ≠ w → ∀ c, u ∈ board.listeners c ↔ u ∈ x.board.listeners c
  silent : ∀ c, x.board.isFired c = true → board.listeners c = []

theorem Touches.isFired {board : Board} (h : x.Touches w board) (c : Channel) :
    board.isFired c = x.board.isFired c := by
  rw [Board.isFired, Board.isFired, h.fired]

/-- A watch that goes on and keeps to it leaves all others to theirs. -/
theorem Sound.goOn (hx : x.Sound) {board : Board} (h : x.Touches w board)
    (hkeeps : (x.goOn w v board).Keeps w v) : (x.goOn w v board).Sound where
  silent := fun c hc => h.silent c ((h.isFired c).symm.trans hc)
  listed := by
    intro c u hu
    by_cases heq : u = w
    · exact heq ▸ hkeeps.named
    · exact Nat.lt_of_lt_of_le (hx.listed c u ((h.others u heq c).1 hu)) h.named
  woken := by
    intro u hu
    have hbefore : x.Wakes u := by
      simpa only [Wakes, Owes, Lookout.goOn, Board.isNotified, h.notified] using hu
    exact Nat.lt_of_lt_of_le (hx.woken u hbefore) h.named
  keeps := by
    intro u v' hv'
    change Function.update x.watches w (some v) u = some v' at hv'
    by_cases heq : u = w
    · subst heq
      rw [Function.update_self] at hv'
      obtain rfl := Option.some.inj hv'
      exact hkeeps
    · rw [Function.update_of_ne heq] at hv'
      exact (hx.keeps u v' hv').spares
        (.of_listeners h.fired h.notified rfl h.named (h.others u heq))

theorem Sound.touches_rfl (hx : x.Sound) (w : Wakeup) : x.Touches w x.board :=
  ⟨rfl, rfl, Nat.le_refl _, fun _ _ _ => .rfl, hx.silent⟩

/-- A watch that goes on without a look at the board need only keep to its new stage. -/
theorem Sound.stay (hx : x.Sound) (h : x.Keeps w v) {watcher : Watcher}
    (hstage : x.KeepsAt v.set.members v.timed w watcher) :
    (x.goOn w { v with watcher := watcher } x.board).Sound := by
  have hkeeps : x.Keeps w { v with watcher := watcher } := ⟨h.named, h.lists, h.wakes, hstage⟩
  exact hx.goOn (hx.touches_rfl w)
    (hkeeps.spares (.of_listeners rfl rfl rfl (Nat.le_refl _) fun _ => .rfl))

/-- A watcher registers with the next member. -/
theorem Sound.subscribe (hx : x.Sound) (h : x.Keeps w v) {cs : List Channel}
    (hwatcher : v.watcher = .subscribing (c :: cs)) (hfired : x.board.isFired c = false) :
    (x.goOn w { v with watcher := .subscribing cs } (x.board.subscribe c w).1).Sound := by
  have hlists (u : Wakeup) (d : Channel) : u ∈ (x.board.subscribe c w).1.listeners d ↔
      u ∈ x.board.listeners d ∨ (d = c ∧ u = w) := Board.mem_listeners_subscribe hfired
  have htouches : x.Touches w (x.board.subscribe c w).1 := by
    refine ⟨by simp [Board.subscribe, hfired], by simp [Board.subscribe, hfired],
      by simp [Board.subscribe, hfired], fun u hu d => by simp [hlists, hu], fun d hd => ?_⟩
    have hne : d ≠ c := by
      rintro rfl
      rw [hfired] at hd
      cases hd
    exact List.eq_nil_iff_forall_not_mem.2 fun u => by simp [hlists, hx.silent d hd, hne]
  have hnotified : (x.board.subscribe c w).1.isNotified w = x.board.isNotified w := by
    rw [Board.isNotified, Board.isNotified, htouches.notified]
  rcases hwatcher ▸ h.stage with ⟨done, hdone, hcovers⟩
  refine hx.goOn htouches ⟨Nat.lt_of_lt_of_le h.named htouches.named, fun d hd => ?_,
    fun hwakes => ?_, done ++ [c], by rw [hdone, List.append_assoc]; rfl, fun d hd => ?_⟩
  · rcases (hlists w d).1 hd with hold | ⟨rfl, -⟩
    · exact h.lists d hold
    · simp [hdone]
  · have hbefore : x.Wakes w := by
      simpa only [Wakes, Owes, Lookout.goOn, hnotified] using hwakes
    rcases h.wakes hbefore with ⟨d, hd, hf⟩
    exact ⟨d, hd, (htouches.isFired d).trans hf⟩
  · rcases List.mem_append.1 hd with hold | hnew
    · rcases hcovers d hold with ⟨hf, hlisted⟩ | ⟨hf, hwoken⟩
      · exact .inl ⟨(htouches.isFired d).trans hf, (hlists w d).2 (.inl hlisted)⟩
      · refine .inr ⟨(htouches.isFired d).trans hf, ?_⟩
        simpa only [Owes, Lookout.goOn, hnotified] using hwoken
    · obtain rfl := List.mem_singleton.1 hnew
      exact .inl ⟨(htouches.isFired d).trans hfired, (hlists w d).2 (.inr ⟨rfl, rfl⟩)⟩

/-- A watcher takes its registration with the next member back. -/
theorem Sound.unsubscribe (hx : x.Sound) (h : x.Keeps w v) {cs : List Channel} {fired : Bool}
    (hwatcher : v.watcher = .leaving (c :: cs) fired) :
    (x.goOn w { v with watcher := .leaving cs fired } (x.board.unsubscribe c w)).Sound := by
  have htouches : x.Touches w (x.board.unsubscribe c w) := by
    refine ⟨rfl, rfl, Nat.le_refl _, fun u hu d => ?_, fun d hd => ?_⟩
    · simp [Board.mem_listeners_unsubscribe, hu]
    · exact List.eq_nil_iff_forall_not_mem.2 fun u => by
        simp [Board.mem_listeners_unsubscribe, hx.silent d hd]
  rcases hwatcher ▸ h.stage with ⟨hlists, hfired, htimed⟩
  refine hx.goOn htouches ⟨h.named, fun d hd => ?_, h.wakes, fun d hd => ?_, hfired, htimed⟩
  · exact h.lists d (Board.mem_listeners_unsubscribe.1 hd).1
  · rcases Board.mem_listeners_unsubscribe.1 hd with ⟨hold, hne⟩
    have hmem : d ∈ c :: cs := hlists d hold
    exact (List.mem_cons.1 hmem).resolve_left fun heq => hne ⟨heq, rfl⟩

/-- Every step of a watch keeps what all keep to. -/
theorem Sound.step (hx : x.Sound) (hv : x.watches w = some v) {watcher : Watcher} {board : Board}
    (hstep : v.watcher.step v.set.members w x.board = some (watcher, board)) :
    (x.goOn w { v with watcher := watcher } board).Sound := by
  have h := hx.keeps w v hv
  have hstage := h.stage
  cases hwatcher : v.watcher with
  | subscribing left =>
    rw [hwatcher] at hstep hstage
    cases left with
    | nil =>
      obtain ⟨rfl, rfl⟩ := Prod.mk.inj (Option.some.inj hstep)
      rcases hstage with ⟨done, hdone, hcovers⟩
      rw [List.append_nil] at hdone
      exact hx.stay h (hdone ▸ hcovers)
    | cons c cs =>
      cases hfired : x.board.isFired c with
      | true =>
        simp only [Watcher.step, Board.subscribe, hfired, if_true] at hstep
        obtain ⟨rfl, rfl⟩ := Prod.mk.inj (Option.some.inj hstep)
        rcases hstage with ⟨done, hdone, -⟩
        have hany : x.AnyFired v.set.members := ⟨c, by simp [hdone], hfired⟩
        exact hx.stay h ⟨h.lists, fun _ => hany, nofun⟩
      | false =>
        have hsound := hx.subscribe h hwatcher hfired
        simp only [Watcher.step, Board.subscribe, hfired] at hstep hsound
        obtain ⟨rfl, rfl⟩ := Prod.mk.inj (Option.some.inj hstep)
        exact hsound
  | waiting =>
    rw [hwatcher] at hstep
    simp only [Watcher.step] at hstep
    split at hstep
    · rename_i hnotified
      obtain ⟨rfl, rfl⟩ := Prod.mk.inj (Option.some.inj hstep)
      exact hx.stay h ⟨h.lists, fun _ => h.wakes (.inl hnotified), nofun⟩
    · cases hstep
  | leaving left fired =>
    rw [hwatcher] at hstep hstage
    cases left with
    | nil =>
      obtain ⟨rfl, rfl⟩ := Prod.mk.inj (Option.some.inj hstep)
      rcases hstage with ⟨hlists, hrest⟩
      exact hx.stay h ⟨fun c hc => List.not_mem_nil (hlists c hc), hrest⟩
    | cons c cs =>
      obtain ⟨rfl, rfl⟩ := Prod.mk.inj (Option.some.inj hstep)
      exact hx.unsubscribe h hwatcher
  | returned fired =>
    rw [hwatcher] at hstep
    cases hstep

/-- A watcher whose time is up leaves if it is waiting, and otherwise goes on as before. -/
theorem Sound.timeUp (hx : x.Sound) (hv : x.watches w = some v) (htimed : v.timed = true) :
    (x.goOn w { v with watcher := v.watcher.timeUp v.set.members w x.board } x.board).Sound := by
  have h := hx.keeps w v hv
  refine hx.stay h ?_
  have hstage := h.stage
  cases hwatcher : v.watcher with
  | waiting => exact ⟨h.lists, fun hnotified => h.wakes (.inl hnotified), fun _ => htimed⟩
  | subscribing left =>
    rw [hwatcher] at hstage
    exact hstage
  | leaving left fired =>
    rw [hwatcher] at hstage
    exact hstage
  | returned fired =>
    rw [hwatcher] at hstage
    exact hstage

/-- A watch begins with a wakeup that nobody else has. -/
theorem Sound.begin (hx : x.Sound) (set : WatchSet) (timed : Bool) :
    (x.goOn x.board.named ⟨set, timed, .subscribing set.members⟩ x.board.newName.2).Sound := by
  have hnew (c : Channel) : x.board.named ∉ x.board.listeners c := fun hlisted =>
    Nat.lt_irrefl _ (hx.listed c _ hlisted)
  refine hx.goOn ⟨rfl, rfl, Nat.le_succ _, fun _ _ _ => .rfl, hx.silent⟩
    ⟨Nat.lt_succ_self _, fun c hc => absurd hc (hnew c), fun hwakes => ?_, [], rfl, nofun⟩
  exact absurd (hx.woken _ hwakes) (Nat.lt_irrefl _)

/-! ## Steps of a thread -/

/-- What is owed while one thread goes on. -/
theorem owes_update {n : Nat} {r : Option Firing} (hy : y.threads = Function.update x.threads n r) :
    y.Owes c w ↔ (∃ waiting, r = some ⟨c, waiting⟩ ∧ w ∈ waiting) ∨
      ∃ m waiting, m ≠ n ∧ x.threads m = some ⟨c, waiting⟩ ∧ w ∈ waiting := by
  constructor
  · rintro ⟨m, waiting, hm, hw⟩
    rw [hy] at hm
    by_cases hmn : m = n
    · rw [hmn, Function.update_self] at hm
      exact .inl ⟨waiting, hm, hw⟩
    · rw [Function.update_of_ne hmn] at hm
      exact .inr ⟨m, waiting, hmn, hm, hw⟩
  · rintro (⟨waiting, rfl, hw⟩ | ⟨m, waiting, hmn, hm, hw⟩)
    · exact ⟨n, waiting, by rw [hy, Function.update_self], hw⟩
    · exact ⟨m, waiting, by rw [hy, Function.update_of_ne hmn, hm], hw⟩

/-- What is owed, by one thread or by others. -/
theorem owes_iff (x : Lookout) (n : Nat) (c : Channel) (w : Wakeup) :
    x.Owes c w ↔ (∃ waiting, x.threads n = some ⟨c, waiting⟩ ∧ w ∈ waiting) ∨
      ∃ m waiting, m ≠ n ∧ x.threads m = some ⟨c, waiting⟩ ∧ w ∈ waiting :=
  owes_update (Function.update_eq_self n x.threads).symm

/-- With the mark a thread owes the listeners that it has taken. -/
theorem spares_mark {n : Nat} (hidle : x.threads n = none) (c : Channel) (w : Wakeup) :
    Spares w x { x with
      board := (x.board.mark c).1
      threads := Function.update x.threads n (some ⟨c, x.board.listeners c⟩) } := by
  have howes (d : Channel) := owes_update (x := x) (c := d) (w := w)
    (y := { x with
      board := (x.board.mark c).1
      threads := Function.update x.threads n (some ⟨c, x.board.listeners c⟩) }) rfl
  have hothers {d : Channel} : x.Owes d w ↔
      ∃ m waiting, m ≠ n ∧ x.threads m = some ⟨d, waiting⟩ ∧ w ∈ waiting := by
    simp [owes_iff x n, hidle]
  refine ⟨Nat.le_refl _, fun d hd => by simp [Board.isFired_mark, hd],
    fun d hd => (Board.mem_listeners_mark.1 hd).1, fun d hd => ?_, fun hwakes => ?_⟩
  · rcases hd with ⟨hd, hlisted⟩ | ⟨hd, hwoken⟩
    · by_cases hdc : d = c
      · subst hdc
        exact .inr ⟨by simp [Board.isFired_mark], .inr ((howes d).2 (.inl ⟨_, rfl, hlisted⟩))⟩
      · exact .inl ⟨by simp [Board.isFired_mark, hd, hdc],
          Board.mem_listeners_mark.2 ⟨hlisted, hdc⟩⟩
    · exact .inr ⟨by simp [Board.isFired_mark, hd],
        hwoken.imp_right fun h => (howes d).2 (.inr (hothers.1 h))⟩
  · rcases hwakes with hnotified | ⟨d, hd⟩
    · exact .inl (.inl hnotified)
    · rcases (howes d).1 hd with ⟨waiting, heq, hlisted⟩ | hold
      · obtain ⟨rfl, rfl⟩ := Firing.mk.inj (Option.some.inj heq)
        exact .inr ⟨_, hlisted, by simp [Board.isFired_mark]⟩
      · exact .inl (.inr ⟨d, hothers.2 hold⟩)

/-- Whoever is notified is not owed to any more, and everybody else is still. -/
theorem spares_notify {n : Nat} {u : Wakeup} {waiting : List Wakeup}
    (hn : x.threads n = some ⟨c, u :: waiting⟩) (w : Wakeup) :
    Spares w x { x with
      board := x.board.notify u
      threads := Function.update x.threads n (some ⟨c, waiting⟩) } := by
  have howes (d : Channel) := owes_update (x := x) (c := d) (w := w)
    (y := { x with
      board := x.board.notify u
      threads := Function.update x.threads n (some ⟨c, waiting⟩) }) rfl
  have hisFired (d : Channel) : (x.board.notify u).isFired d = x.board.isFired d := by
    simp [Board.isFired]
  have hlists (d : Channel) : (x.board.notify u).listeners d = x.board.listeners d := by
    simp [Board.listeners]
  refine ⟨by unfold Board.notify; split <;> exact Nat.le_refl _,
    fun d hd => (hisFired d).trans hd, fun d hd => hlists d ▸ hd, fun d hd => ?_, fun hwakes => ?_⟩
  · rcases hd with ⟨hd, hlisted⟩ | ⟨hd, hwoken⟩
    · exact .inl ⟨(hisFired d).trans hd, (hlists d).symm ▸ hlisted⟩
    · refine .inr ⟨(hisFired d).trans hd, ?_⟩
      rcases hwoken with hnotified | howed
      · exact .inl (by simp [hnotified])
      · rcases (owes_iff x n d w).1 howed with ⟨ws, heq, hmem⟩ | hothers
        · obtain ⟨rfl, rfl⟩ := Firing.mk.inj (Option.some.inj (hn.symm.trans heq))
          rcases List.mem_cons.1 hmem with rfl | hlater
          · exact .inl (by simp)
          · exact .inr ((howes _).2 (.inl ⟨_, rfl, hlater⟩))
        · exact .inr ((howes d).2 (.inr hothers))
  · refine .inl ?_
    rcases hwakes with hnotified | ⟨d, hd⟩
    · rcases Bool.or_eq_true_iff.1 ((Board.isNotified_notify _ _ _).symm.trans hnotified) with
        heq | hold
      · obtain rfl : w = u := beq_iff_eq.1 heq
        exact .inr ⟨c, (owes_iff x n c w).2 (.inl ⟨_, hn, List.mem_cons_self⟩)⟩
      · exact .inl hold
    · rcases (howes d).1 hd with ⟨ws, heq, hmem⟩ | hothers
      · obtain ⟨rfl, rfl⟩ := Firing.mk.inj (Option.some.inj heq)
        exact .inr ⟨_, (owes_iff x n _ w).2 (.inl ⟨_, hn, List.mem_cons_of_mem _ hmem⟩)⟩
      · exact .inr ⟨d, (owes_iff x n d w).2 (.inr hothers)⟩

/-- A thread that has notified all owes nothing. -/
theorem spares_done {n : Nat} (hn : x.threads n = some ⟨c, []⟩) (w : Wakeup) :
    Spares w x { x with threads := Function.update x.threads n none } := by
  have howes (d : Channel) : Owes { x with threads := Function.update x.threads n none } d w ↔
      x.Owes d w := by
    rw [owes_update (x := x) (y := { x with threads := Function.update x.threads n none }) rfl,
      owes_iff x n]
    refine or_congr_left ⟨nofun, ?_⟩
    rintro ⟨waiting, heq, hmem⟩
    obtain ⟨-, rfl⟩ := Firing.mk.inj (Option.some.inj (hn.symm.trans heq))
    cases hmem
  refine ⟨Nat.le_refl _, fun _ => id, fun _ => id, fun d hd => ?_, fun hwakes => .inl ?_⟩
  · exact hd.imp_right fun h => ⟨h.1, h.2.imp_right (howes d).2⟩
  · exact hwakes.imp_right fun ⟨d, hd⟩ => ⟨d, (howes d).1 hd⟩

/-- Moves that spare all wakeups keep what all keep to. -/
theorem Sound.of_spares (hx : x.Sound) (hwatches : y.watches = x.watches)
    (hspares : ∀ w, Spares w x y)
    (hsilent : ∀ c, y.board.isFired c = true → y.board.listeners c = []) : y.Sound where
  silent := hsilent
  listed := fun c w hw =>
    Nat.lt_of_lt_of_le (hx.listed c w ((hspares w).lists c hw)) (hspares w).named
  woken := by
    intro w hw
    refine Nat.lt_of_lt_of_le ?_ (hspares w).named
    rcases (hspares w).wakes hw with hbefore | ⟨c, hlisted, -⟩
    · exact hx.woken w hbefore
    · exact hx.listed c w hlisted
  keeps := fun w v hv => (hx.keeps w v (hwatches ▸ hv)).spares (hspares w)

/-! ## Runs -/

/-- Every move keeps what all keep to. -/
theorem Sound.move (hx : x.Sound) (m : Move) : (x.move m).Sound := by
  cases m with
  | watch set timed =>
    simp only [Lookout.move]
    split
    · exact hx
    · exact hx.begin set timed
  | advance w =>
    simp only [Lookout.move]
    cases hv : x.watches w with
    | none => exact hx
    | some v =>
      dsimp only
      split
      · exact hx
      · rename_i hstep
        exact hx.step hv hstep
  | timeUp w =>
    simp only [Lookout.move]
    cases hv : x.watches w with
    | none => exact hx
    | some v =>
      dsimp only
      split
      · rename_i htimed
        exact hx.timeUp hv htimed
      · exact hx
  | mark n c =>
    simp only [Lookout.move]
    cases hn : x.threads n with
    | some f => exact hx
    | none =>
      refine hx.of_spares rfl (spares_mark hn c) fun d hd => ?_
      refine List.eq_nil_iff_forall_not_mem.2 fun w hw => ?_
      rcases Board.mem_listeners_mark.1 hw with ⟨hlisted, hne⟩
      have hbefore : x.board.isFired d = true := by simpa [Board.isFired_mark, hne] using hd
      rw [hx.silent d hbefore] at hlisted
      cases hlisted
  | notify n =>
    simp only [Lookout.move]
    rcases hn : x.threads n with _ | ⟨c, _ | ⟨u, waiting⟩⟩
    · exact hx
    · exact hx.of_spares rfl (spares_done hn) hx.silent
    · refine hx.of_spares rfl (spares_notify hn) fun d hd => ?_
      simp only [Board.isFired, Board.fired_notify] at hd
      simpa only [Board.listeners, Board.listening_notify] using hx.silent d hd

theorem Sound.moveAll (hx : x.Sound) (moves : List Move) : (x.moveAll moves).Sound := by
  induction moves generalizing x with
  | nil => exact hx
  | cons m moves ih => exact ih (hx.move m)

/-- A watcher left to itself takes its steps, as many as it can. -/
theorem moveAll_advance (hv : x.watches w = some v) (n : Nat) :
    x.moveAll (List.replicate n (.advance w)) =
      x.goOn w { v with watcher := (v.watcher.run v.set.members w n x.board).1 }
        (v.watcher.run v.set.members w n x.board).2 := by
  have hself : x.goOn w v x.board = x := by
    rw [goOn, ← hv, Function.update_eq_self]
  induction n generalizing x v with
  | zero => exact hself.symm
  | succ n ih =>
    change (x.move (.advance w)).moveAll (List.replicate n (.advance w)) = _
    cases hstep : v.watcher.step v.set.members w x.board with
    | none =>
      have hstuck : x.move (.advance w) = x := by simp only [Lookout.move, hv, hstep]
      have hrest : v.watcher.run v.set.members w n x.board = (v.watcher, x.board) := by
        cases n with
        | zero => rfl
        | succ n => simp only [Watcher.run, hstep]
      rw [hstuck, ih hv hself]
      simp only [Watcher.run, hstep, hrest]
    | some next =>
      have hnext : x.move (.advance w) = x.goOn w { v with watcher := next.1 } next.2 := by
        simp only [Lookout.move, hv, hstep]
      have hgone : (x.goOn w { v with watcher := next.1 } next.2).watches w =
          some { v with watcher := next.1 } := Function.update_self _ _ _
      rw [hnext, ih hgone (by simp only [goOn, Function.update_idem])]
      simp only [Watcher.run, hstep, goOn, Function.update_idem]

/-- A watch without time to wait is a run of these moves with nobody in between. -/
theorem watchNow_eq_moves (ws : WatchSet) (b : Board) (hne : ws.isEmpty = false) :
    let alone := List.replicate ws.steps (Move.advance b.named)
    let x := moveAll { board := b } (.watch ws true :: alone ++ .timeUp b.named :: alone)
    ∃ watcher, x.watches b.named = some ⟨ws, true, watcher⟩ ∧
      ws.watchNow b = (watcher.result? != some true, x.board) := by
  intro alone x
  let w := b.named
  let subscribed := ws.advance w (.subscribing ws.members) b.newName.2
  let left := subscribed.1.timeUp ws.members w subscribed.2
  let ended := ws.advance w left subscribed.2
  let started := goOn { board := b } w ⟨ws, true, .subscribing ws.members⟩ b.newName.2
  have hstart : move { board := b } (.watch ws true) = started := by
    simp only [move, hne]
    rfl
  have hself {x : Lookout} {v : Watch} {board : Board} : (x.goOn w v board).watches w = some v :=
    Function.update_self _ _ _
  have hagain {x : Lookout} {v v' : Watch} {board board' : Board} :
      (x.goOn w v board).goOn w v' board' = x.goOn w v' board' := by
    simp only [goOn, Function.update_idem]
  have hfirst : started.moveAll alone =
      goOn { board := b } w ⟨ws, true, subscribed.1⟩ subscribed.2 :=
    (moveAll_advance hself ws.steps).trans hagain
  have hleft : (started.moveAll alone).move (.timeUp w) =
      goOn { board := b } w ⟨ws, true, left⟩ subscribed.2 := by
    rw [hfirst]
    simp only [move, hself, if_true]
    exact hagain
  have hx : x = goOn { board := b } w ⟨ws, true, ended.1⟩ ended.2 := by
    change moveAll { board := b } (.watch ws true :: (alone ++ .timeUp w :: alone)) = _
    rw [moveAll, List.foldl_cons, List.foldl_append, List.foldl_cons, hstart]
    change ((started.moveAll alone).move (.timeUp w)).moveAll alone = _
    rw [hleft]
    exact (moveAll_advance hself ws.steps).trans hagain
  refine ⟨ended.1, by rw [hx]; exact hself, ?_⟩
  rw [hx]
  simp only [WatchSet.watchNow, hne]
  rfl

/-- No wakeup is lost, and nothing is left behind. Any number of watches are under way and any
number of threads fire channels, in any order of their steps and whatever the order of the members
is. While a watcher waits, every member that has not fired lists its wakeup, and for every member
that has fired the wakeup is notified already or the thread that fired it will still notify it. A
watch that tells of a firing has a member that has fired, and one without a time limit tells of
nothing else. When a watch has returned, no channel lists its wakeup. -/
theorem loses_no_wakeup (moves : List Move) :
    let x : Lookout := moveAll {} moves
    ∀ w v, x.watches w = some v →
      (v.watcher = .waiting → ∀ c ∈ v.set.members, x.Covers c w) ∧
      (v.watcher.result? = some true → ∃ c ∈ v.set.members, x.board.isFired c = true) ∧
      (v.watcher.result? = some false → v.timed = true) ∧
      (v.watcher.result?.isSome = true → ∀ c, w ∉ x.board.listeners c) := by
  intro x w v hv
  have hstage := ((Sound.empty.moveAll moves).keeps w v hv).stage
  cases hwatcher : v.watcher with
  | subscribing left => simp [Watcher.result?]
  | waiting =>
    rw [hwatcher] at hstage
    exact ⟨fun _ => hstage, nofun, nofun, nofun⟩
  | leaving left fired => simp [Watcher.result?]
  | returned fired =>
    rw [hwatcher] at hstage
    rcases hstage with ⟨hlists, hfired, htimed⟩
    refine ⟨nofun, fun h => hfired (Option.some.inj h), fun h => htimed (Option.some.inj h),
      fun _ => hlists⟩

/-- A thread takes the listeners of the first member while the watch still registers with the
second one; the watch goes on to wait, is notified and returns. -/
theorem loses_no_wakeup_race :
    let first : Channel := ⟨⟨0, 0, 0⟩, 0, .node⟩
    let second : Channel := ⟨⟨0, 1, 0⟩, 0, .node⟩
    let ws : WatchSet := { members := [first, second] }
    let moves : List Move := [.watch ws false, .advance 0, .mark 7 first, .advance 0, .advance 0]
    let x := moveAll {} moves
    let y := moveAll {} (moves ++ [.notify 7, .advance 0, .advance 0, .advance 0, .advance 0])
    (x.watches 0 = some ⟨ws, false, .waiting⟩ ∧ x.Covers first 0 ∧ x.Covers second 0) ∧
      y.watches 0 = some ⟨ws, false, .returned true⟩ ∧
        (∃ c ∈ ws.members, y.board.isFired c = true) ∧ ∀ c, 0 ∉ y.board.listeners c := by
  intro first second ws moves x y
  have hx : x.watches 0 = some ⟨ws, false, .waiting⟩ := by rfl
  have hy : y.watches 0 = some ⟨ws, false, .returned true⟩ := by rfl
  have hwaiting := (loses_no_wakeup moves 0 _ hx).1 rfl
  rcases loses_no_wakeup _ 0 _ hy with ⟨-, hfired, -, hlists⟩
  exact ⟨⟨hx, hwaiting first (by decide), hwaiting second (by decide)⟩, hy, hfired rfl, hlists rfl⟩

/-- When the threads are through, no watcher goes on waiting if a member has fired: its wakeup is
notified, and the next step is its own. -/
theorem notified_of_fired (moves : List Move) :
    let x : Lookout := moveAll {} moves
    ∀ w v c, x.watches w = some v → v.watcher = .waiting → c ∈ v.set.members →
      x.board.isFired c = true → (∀ thread, x.threads thread = none) →
      v.watcher.step v.set.members w x.board = some (.leaving v.set.members true, x.board) := by
  intro x w v c hv hwaiting hc hfired hidle
  have hstage := ((Sound.empty.moveAll moves).keeps w v hv).stage
  rw [hwaiting] at hstage ⊢
  rcases hstage c hc with ⟨hnot, -⟩ | ⟨-, hnotified | ⟨thread, waiting, howed, -⟩⟩
  · rw [hfired] at hnot
    cases hnot
  · exact if_pos hnotified
  · rw [hidle thread] at howed
    cases howed

end Lookout

end SnapStore
