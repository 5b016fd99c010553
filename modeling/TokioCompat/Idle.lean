import TokioCompat.Channel
import TokioCompat.Transition
import Mathlib.Data.BitVec

/-!
# The idle tracker of a compatibility runtime

One `Idle`/`Rx` pair with every `Track` reserved on it. Each atomic operation
is one step: the increment of `Idle::reserve`, the decrement and the send of
`Track::with`, the load and the receive of `Rx::idle`. Polls of the tracked
futures, panics, cancellations and the drops of the handles are further steps,
so a list of labels is one interleaving of all threads of a process.
-/

namespace TokioCompat.Idle

open Channel Transition

/-- How far one `Track` has come, from `Idle::reserve` to its last effect. -/
inductive Phase where
  /-- Returned by `Idle::reserve` and still a local of the reserving call. -/
  | reserved
  /-- Moved into `Track::with` and handed to an executor or to `block_on`. -/
  | handed
  /-- The wrapped future is being polled. -/
  | polling
  /-- The wrapped future resolved in the current poll. -/
  | resolved
  /-- The decrement returned 1 and the notification is still to be sent. -/
  | notifying
  /-- `Track::with` returned. -/
  | finished
  /-- The `Track` was dropped before its decrement. -/
  | lost
  deriving DecidableEq, Repr

/-- Reserved and not yet ended; a resolved future's `Track` ends at its decrement. -/
def Phase.live : Phase → Bool
  | .reserved | .handed | .polling | .resolved => true
  | .notifying | .finished | .lost => false

/-- Phases in which the `Track` still owns its clone of the `Idle`. -/
def Phase.holding : Phase → Bool
  | .reserved | .handed | .polling | .resolved | .notifying => true
  | .finished | .lost => false

/-- Phases after the decrement. -/
def Phase.decremented : Phase → Bool
  | .notifying | .finished => true
  | .reserved | .handed | .polling | .resolved | .lost => false

/-- One reservation: the tracked task that was being polled when it was made,
if any, and its phase. -/
structure Cell where
  /-- Index of the tracked task whose poll made the reservation. -/
  parent : Option ℕ
  /-- Progress of this reservation. -/
  phase : Phase
  deriving DecidableEq, Repr

/-- Where the caller of `Rx::idle` stands. -/
inductive Waiter where
  /-- No call of `idle` is in progress. -/
  | outside
  /-- About to load the count. -/
  | checking
  /-- Loaded a non-zero count and suspended in `recv`. -/
  | receiving
  deriving DecidableEq, Repr

/-- The shared state of one `Idle`/`Rx` pair on a `w`-bit target. -/
structure State (w : ℕ) where
  /-- `spawned: Arc<AtomicUsize>`. -/
  spawned : BitVec w
  /-- `tx` and `rx`, the unbounded channel of `()`. -/
  chan : Chan Unit
  /-- Every reservation so far, in order. -/
  tracks : List Cell
  /-- The runtime's own `idle` field has not been dropped. -/
  own : Bool
  /-- Clones of the `Idle` in spawners and handles. -/
  clones : ℕ
  /-- The caller of `Rx::idle`. -/
  waiter : Waiter
  deriving DecidableEq, Repr

variable {w : ℕ}

/-- `Idle::new`. -/
def new (w : ℕ) : State w := ⟨0, unbounded, [], true, 0, .outside⟩

/-- `isize::MAX`, the largest count an `Arc` may be cloned from; beyond it
`Arc::clone` aborts the process. -/
def isizeMax (w : ℕ) : ℕ := 2 ^ (w - 1) - 1

/-- Strong count of `spawned`: one per `Idle` and one in the `Rx`. -/
def State.arcs (s : State w) : ℕ := s.chan.senders + s.chan.rxAlive.toNat

/-- Some `Idle` outside the tracks exists and its `Arc` may still be cloned. -/
def State.CanClone (s : State w) : Prop := (s.own = true ∨ 0 < s.clones) ∧ s.arcs ≤ isizeMax w

instance (s : State w) : Decidable s.CanClone :=
  inferInstanceAs (Decidable ((s.own = true ∨ 0 < s.clones) ∧ s.arcs ≤ isizeMax w))

/-- The named parent, if any, is being polled. -/
def State.ParentPolling (s : State w) (parent : Option ℕ) : Prop :=
  ∀ p ∈ parent, (s.tracks[p]?).map Cell.phase = some .polling

instance (s : State w) (parent : Option ℕ) : Decidable (s.ParentPolling parent) :=
  match parent with
  | none => isTrue (by intro p hp; cases hp)
  | some p => decidable_of_iff ((s.tracks[p]?).map Cell.phase = some .polling)
      (by simp [State.ParentPolling])

/-- `Idle::reserve`: increment, and clone the `Idle` into the new `Track`. -/
def State.reserve (s : State w) (parent : Option ℕ) : State w :=
  { s with
    spawned := s.spawned + 1
    chan := s.chan.cloneTx
    tracks := s.tracks ++ [⟨parent, .reserved⟩] }

/-- Put the reservation `i`, now `c`, into another phase. -/
def State.setPhase (s : State w) (i : ℕ) (c : Cell) (p : Phase) : State w :=
  { s with tracks := s.tracks.set i { c with phase := p } }

/-- Drop the `Idle` held by a `Track`. -/
def State.dropIdle (s : State w) : State w := { s with chan := s.chan.dropTx }

/-- The decrement in `Track::with`: only the previous value 1 leads on to the
notification, any other ends `with` and drops the `Track`. -/
def State.fetchSub (s : State w) (i : ℕ) (c : Cell) : State w :=
  let t := { s with spawned := s.spawned - 1 }
  if s.spawned = 1 then t.setPhase i c .notifying else (t.setPhase i c .finished).dropIdle

/-- `let _ = self.0.tx.send(())`, the end of `Track::with`. -/
def State.send (s : State w) (i : ℕ) (c : Cell) : State w :=
  ({ s with chan := s.chan.send () }.setPhase i c .finished).dropIdle

/-- Steps of a tracked future that leave the counter and the channel alone. -/
inductive Move where
  /-- The `Track` moves into `with` and the task to its executor. -/
  | handOff
  /-- A poll of the wrapped future begins. -/
  | poll
  /-- The poll returns `Pending`. -/
  | pend
  /-- The poll returns `Ready`. -/
  | resolve
  deriving DecidableEq, Repr

/-- The phase a move leads to from the phase it starts in. -/
def Move.next : Move → Phase → Option Phase
  | .handOff, .reserved => some .handed
  | .poll, .handed => some .polling
  | .pend, .polling => some .handed
  | .resolve, .polling => some .resolved
  | _, _ => none

/-- Ways a `Track` is dropped before its decrement. -/
inductive Loss where
  /-- The reserving call panics before the hand-off. -/
  | abandoned
  /-- The tracked future is dropped before it resolves. -/
  | dropped
  /-- The tracked future panics while being polled. -/
  | panicked
  deriving DecidableEq, Repr

/-- The phase each loss happens in. -/
def Loss.phase : Loss → Phase
  | .abandoned => .reserved
  | .dropped => .handed
  | .panicked => .polling

/-- One indivisible step of some thread. -/
inductive Label where
  /-- `Idle::reserve`, made while the named tracked task is being polled. -/
  | reserve (parent : Option ℕ)
  | move (i : ℕ) (m : Move)
  | lose (i : ℕ) (l : Loss)
  /-- `spawned.fetch_sub(1)` of track `i`. -/
  | fetchSub (i : ℕ)
  /-- `tx.send(())` of track `i`. -/
  | send (i : ℕ)
  /-- Clone the `Idle` into a spawner or handle. -/
  | cloneIdle
  /-- Drop such a clone. -/
  | dropClone
  /-- Drop the runtime's `idle` field. -/
  | dropOwn
  /-- Drop the runtime's `idle_rx` field. -/
  | dropRx
  /-- Start a call of `Rx::idle`. -/
  | callIdle
  /-- `self.spawned.load()`; zero returns from `idle`. -/
  | load
  /-- `self.rx.recv().await` completes. -/
  | recv
  /-- The future of `idle` is dropped before it returns. -/
  | cancel
  deriving DecidableEq, Repr

/-- The effect of one step, or `none` while it is not enabled. Polling `recv`
on an empty open channel suspends the waiter, so that step is refused. -/
def State.step (s : State w) : Label → Option (State w)
  | .reserve parent =>
    if s.CanClone ∧ s.ParentPolling parent then some (s.reserve parent) else none
  | .move i m =>
    (s.tracks[i]?).bind fun c => (m.next c.phase).map fun p => s.setPhase i c p
  | .lose i l =>
    (s.tracks[i]?).bind fun c =>
      if c.phase = l.phase then some (s.setPhase i c .lost).dropIdle else none
  | .fetchSub i =>
    (s.tracks[i]?).bind fun c => if c.phase = .resolved then some (s.fetchSub i c) else none
  | .send i =>
    (s.tracks[i]?).bind fun c => if c.phase = .notifying then some (s.send i c) else none
  | .cloneIdle =>
    if s.CanClone then some { s with clones := s.clones + 1, chan := s.chan.cloneTx } else none
  | .dropClone =>
    if 0 < s.clones then some { s with clones := s.clones - 1, chan := s.chan.dropTx } else none
  | .dropOwn =>
    -- the runtime is borrowed for as long as a call of `idle` runs
    if s.own = true ∧ s.waiter = .outside then
      some { s with own := false, chan := s.chan.dropTx } else none
  | .dropRx =>
    -- declared after `idle` in both runtimes, hence dropped after it
    if s.own = false ∧ s.chan.rxAlive = true then some { s with chan := s.chan.dropRx } else none
  | .callIdle =>
    if s.own = true ∧ s.waiter = .outside then some { s with waiter := .checking } else none
  | .load =>
    if s.waiter = .checking then
      some { s with waiter := if s.spawned ≠ 0 then .receiving else .outside } else none
  | .recv =>
    if s.waiter = .receiving then
      match s.chan.recv with
      | (.pending, _) => none
      | (_, c) => some { s with chan := c, waiter := .checking }
    else none
  | .cancel => if s.waiter ≠ .outside then some { s with waiter := .outside } else none

/-! ### What each step requires and does -/

theorem step_reserve {s t : State w} {parent : Option ℕ} :
    s.step (.reserve parent) = some t ↔
      s.CanClone ∧ s.ParentPolling parent ∧ s.reserve parent = t := by
  simp [State.step, and_assoc]

theorem step_move {s t : State w} {i : ℕ} {m : Move} :
    s.step (.move i m) = some t ↔
      ∃ c, s.tracks[i]? = some c ∧ ∃ p, m.next c.phase = some p ∧ s.setPhase i c p = t := by
  simp [State.step, Option.bind_eq_some_iff]

theorem step_lose {s t : State w} {i : ℕ} {l : Loss} :
    s.step (.lose i l) = some t ↔
      ∃ c, s.tracks[i]? = some c ∧ c.phase = l.phase ∧ (s.setPhase i c .lost).dropIdle = t := by
  simp [State.step, Option.bind_eq_some_iff]

theorem step_fetchSub {s t : State w} {i : ℕ} :
    s.step (.fetchSub i) = some t ↔
      ∃ c, s.tracks[i]? = some c ∧ c.phase = .resolved ∧ s.fetchSub i c = t := by
  simp [State.step, Option.bind_eq_some_iff]

theorem step_send {s t : State w} {i : ℕ} :
    s.step (.send i) = some t ↔
      ∃ c, s.tracks[i]? = some c ∧ c.phase = .notifying ∧ s.send i c = t := by
  simp [State.step, Option.bind_eq_some_iff]

theorem step_cloneIdle {s t : State w} :
    s.step .cloneIdle = some t ↔
      s.CanClone ∧ { s with clones := s.clones + 1, chan := s.chan.cloneTx } = t := by
  simp [State.step]

theorem step_dropClone {s t : State w} :
    s.step .dropClone = some t ↔
      0 < s.clones ∧ { s with clones := s.clones - 1, chan := s.chan.dropTx } = t := by
  simp [State.step]

theorem step_dropOwn {s t : State w} :
    s.step .dropOwn = some t ↔
      s.own = true ∧ s.waiter = .outside ∧
        { s with own := false, chan := s.chan.dropTx } = t := by
  simp [State.step, and_assoc]

theorem step_dropRx {s t : State w} :
    s.step .dropRx = some t ↔
      s.own = false ∧ s.chan.rxAlive = true ∧ { s with chan := s.chan.dropRx } = t := by
  simp [State.step, and_assoc]

theorem step_callIdle {s t : State w} :
    s.step .callIdle = some t ↔
      s.own = true ∧ s.waiter = .outside ∧ { s with waiter := .checking } = t := by
  simp [State.step, and_assoc]

theorem step_load {s t : State w} :
    s.step .load = some t ↔
      s.waiter = .checking ∧
        { s with waiter := if s.spawned ≠ 0 then .receiving else .outside } = t := by
  simp [State.step]

/-- A completed `recv` either delivers the oldest notification or reports a
channel whose senders are all gone. -/
theorem step_recv {s t : State w} :
    s.step .recv = some t ↔
      s.waiter = .receiving ∧
        ((∃ rest, s.chan.queue = () :: rest ∧
            { s with chan := { s.chan with queue := rest }, waiter := .checking } = t) ∨
          (s.chan.queue = [] ∧ s.chan.senders = 0 ∧ { s with waiter := .checking } = t)) := by
  by_cases hw : s.waiter = .receiving
  · simp only [State.step, hw, if_true, true_and]
    rcases recv_cases s.chan with ⟨a, rest, hq, hr⟩ | ⟨hq, hs, hr⟩ | ⟨hq, hs, hr⟩
    · simp [hq, hr]
    · simp [hq, hs, hr]
    · simp [hq, hs, hr]
  · simp [State.step, hw]

theorem step_cancel {s t : State w} :
    s.step .cancel = some t ↔ s.waiter ≠ .outside ∧ { s with waiter := .outside } = t := by
  simp [State.step]

end TokioCompat.Idle
