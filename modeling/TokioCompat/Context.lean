import TokioCompat.Scope
import TokioCompat.Transition

/-!
# A thread and its runtime context

The context slots a thread can have installed, the guards by which the two
runtimes install them, and the six calls that do so. Calls nest through
closures and polled futures; a panic unwinds frame by frame until something
catches it. Each set-up line of a call is one step of the thread.
-/

namespace TokioCompat.Context

open Scope Transition

/-- `compat::CompatSpawner<Handle>`: the tokio 0.2 runtime it spawns on and the
idle tracker it reserves from. -/
structure CompatSpawner where
  inner : ℕ
  idle : ℕ
  deriving DecidableEq, Repr

/-- A default tokio 0.1 executor: one of this crate's, or another crate's. -/
inductive Executor01 where
  | compat (s : CompatSpawner)
  | foreign (k : ℕ)
  deriving DecidableEq, Repr

/-- A default tokio 0.1 timer or reactor: that of a background thread, or another. -/
inductive Driver where
  | background (b : ℕ)
  | foreign (k : ℕ)
  deriving DecidableEq, Repr

/-- The parts of a compatibility runtime that a context can refer to. -/
structure Runtime where
  /-- The tokio 0.2 runtime. -/
  inner : ℕ
  /-- The `LocalSet` of a current-thread runtime. -/
  localSet : ℕ
  /-- The idle tracker. -/
  idle : ℕ
  /-- The `compat::Background`. -/
  compat : ℕ
  deriving DecidableEq, Repr

/-- `Runtime::spawner`, and `CompatSpawner::new` on the runtime's own handle. -/
def Runtime.spawner (rt : Runtime) : CompatSpawner := ⟨rt.inner, rt.idle⟩

/-- The thread-local state the calls read and write. -/
structure Slots where
  /-- Default tokio 0.1 executor. -/
  executor : Option Executor01
  /-- Default tokio 0.1 timer. -/
  timer : Option Driver
  /-- Default tokio 0.1 reactor. -/
  reactor : Option Driver
  /-- `CURRENT_IDLE`. -/
  currentIdle : Option ℕ
  /-- The `Enter` token of tokio 0.1 is taken. -/
  entered01 : Bool
  /-- The thread blocks on, or is a worker of, a tokio 0.2 runtime. -/
  entered02 : Bool
  /-- The `LocalSet` being polled. -/
  localSet : Option ℕ
  deriving DecidableEq, Repr

/-- Panics that can cross a call. -/
inductive Panic where
  /-- Raised by user code. -/
  | user (k : ℕ)
  /-- `executor_01::enter().unwrap()` inside an entered thread. -/
  | enterError
  /-- A default tokio 0.1 executor is already set. -/
  | executorSet
  /-- A default tokio 0.1 timer is already set. -/
  | timerSet
  /-- A default tokio 0.1 reactor is already set. -/
  | reactorSet
  /-- tokio 0.2 refuses to block on a thread that already does. -/
  | nestedBlockOn
  /-- `tokio_02::task::spawn_local` outside every `LocalSet`. -/
  | noLocalSet
  /-- An assertion of this crate. -/
  | assertion (text : String)
  deriving DecidableEq, Repr

/-- One line of a call's set-up; the locals it creates live to the end of the call. -/
inductive Guard where
  /-- Clone the handle and the `Idle` into a `CompatSpawner`. -/
  | spawner
  /-- `idle.reserve()`. -/
  | reserve
  /-- `timer_02::timer::set_default(compat.timer())`. -/
  | timer
  /-- `reactor_01::set_default(compat.reactor())`. -/
  | reactor
  /-- `executor_01::set_default(spawner)`, or entering `with_default`. -/
  | executor
  /-- `executor_01::enter().unwrap()`. -/
  | enter01
  /-- Entering `Runtime::with_idle`. -/
  | currentIdle
  /-- Entering `block_on` of the tokio 0.2 runtime. -/
  | enter02
  deriving DecidableEq, Repr

/-- The assertion in `with_idle`. -/
def enteredTwice : Panic := .assertion "entered current_thread runtime twice!"

/-- The panic of a set-up line whose slot is in use. -/
def Guard.occupied (s : Slots) : Guard → Option Panic
  | .spawner | .reserve => none
  | .timer => if s.timer.isSome then some .timerSet else none
  | .reactor => if s.reactor.isSome then some .reactorSet else none
  | .executor => if s.executor.isSome then some .executorSet else none
  | .enter01 => if s.entered01 then some .enterError else none
  | .currentIdle => if s.currentIdle.isSome then some enteredTwice else none
  | .enter02 => if s.entered02 then some .nestedBlockOn else none

/-- What a set-up line of a call on `rt` writes. -/
def Guard.install (rt : Runtime) (s : Slots) : Guard → Slots
  | .spawner | .reserve => s
  | .timer => { s with timer := some (.background rt.compat) }
  | .reactor => { s with reactor := some (.background rt.compat) }
  | .executor => { s with executor := some (.compat rt.spawner) }
  | .enter01 => { s with entered01 := true }
  | .currentIdle => { s with currentIdle := some rt.idle }
  | .enter02 => { s with entered02 := true }

/-- Run one set-up line of a call on `rt`. Each looks at its slot before it
writes, except `with_idle`, which replaces `CURRENT_IDLE` and then asserts. -/
def Guard.acquire (rt : Runtime) (s : Slots) (g : Guard) : Option Panic × Slots :=
  match g.occupied s with
  | none => (none, g.install rt s)
  | some p => (some p, if g = .currentIdle then g.install rt s else s)

/-- Drop what one set-up line left behind. -/
def Guard.release (s : Slots) : Guard → Slots
  | .spawner | .reserve => s
  | .timer => { s with timer := none }
  | .reactor => { s with reactor := none }
  | .executor => { s with executor := none }
  | .enter01 => { s with entered01 := false }
  | .currentIdle => { s with currentIdle := none }
  | .enter02 => { s with entered02 := false }

theorem acquire_none {rt : Runtime} {g : Guard} {s t : Slots} :
    g.acquire rt s = (none, t) ↔ g.occupied s = none ∧ g.install rt s = t := by
  unfold Guard.acquire
  cases g.occupied s <;> simp

/-- Dropping what was installed on an empty slot restores the slots. -/
theorem release_install {rt : Runtime} {g : Guard} {s : Slots} (h : g.occupied s = none) :
    g.release (g.install rt s) = s := by
  obtain ⟨executor, timer, reactor, idle, e1, e2, l⟩ := s
  cases g <;> simp_all [Guard.occupied, Guard.install, Guard.release]

/-- The set-up lines of calls on `rt` as scoped guards. -/
def guards (rt : Runtime) : Guards Slots Guard Panic where
  acquire g s := g.acquire rt s
  release g s := g.release s
  release_acquire h := by
    obtain ⟨hf, rfl⟩ := acquire_none.mp h
    exact release_install hf

/-- The calls that install a runtime's context on the calling thread. -/
inductive Api where
  /-- `threadpool::Runtime::enter`. -/
  | poolEnter
  /-- `threadpool::Runtime::block_on_std`. -/
  | poolBlockOn
  /-- `threadpool::Runtime::shutdown_on_idle`. -/
  | poolShutdownOnIdle
  /-- `current_thread::Runtime::enter`. -/
  | currentEnter
  /-- `current_thread::Runtime::block_on_std`. -/
  | currentBlockOn
  /-- `current_thread::Runtime::run`. -/
  | currentRun
  deriving DecidableEq, Repr

/-- The set-up lines of each call, in the order of the source. -/
def Api.setup : Api → List Guard
  | .poolEnter => [.spawner, .timer, .reactor, .executor]
  | .poolBlockOn => [.reserve, .spawner, .timer, .reactor, .executor, .enter02]
  | .poolShutdownOnIdle => [.spawner, .timer, .reactor, .executor, .enter02]
  | .currentEnter => [.spawner, .enter01, .reactor, .timer, .executor, .currentIdle]
  | .currentBlockOn =>
    [.spawner, .enter01, .reactor, .timer, .reserve, .executor, .currentIdle, .enter02]
  | .currentRun => [.spawner, .enter01, .reactor, .timer, .executor, .currentIdle, .enter02]

/-- The call is one of `current_thread::Runtime`. -/
def Api.currentThread : Api → Bool
  | .currentEnter | .currentBlockOn | .currentRun => true
  | .poolEnter | .poolBlockOn | .poolShutdownOnIdle => false

/-- The body of the call is a closure of the caller, run as it is. -/
def Api.closure : Api → Bool
  | .poolEnter | .currentEnter => true
  | .poolBlockOn | .poolShutdownOnIdle | .currentBlockOn | .currentRun => false

/-- The body of a call on `rt` polls futures with this `LocalSet` current; the
panics of spawned tasks are caught, those of the blocked-on future are not. -/
def Api.polls (rt : Runtime) (l : Option ℕ) (caught : Bool) : Api → Bool
  | .poolBlockOn => l == none && !caught
  | .currentBlockOn => l == some rt.localSet || (l == none && caught)
  | .currentRun => (l == some rt.localSet || l == none) && caught
  | .poolEnter | .poolShutdownOnIdle | .currentEnter => false

/-- A call in progress. -/
structure Call where
  api : Api
  rt : Runtime
  /-- Set-up lines that succeeded, the latest first. -/
  held : List Guard
  /-- Set-up lines still to run; when there is none the body runs. -/
  todo : List Guard
  /-- The reservation the set-up made. -/
  track : Option ℕ
  /-- The slots when the call began, recorded for the statements below. -/
  before : Slots
  deriving DecidableEq, Repr

/-- One level of nesting. -/
inductive Frame where
  | call (c : Call)
  /-- A `catch_unwind` of user code. -/
  | catching
  /-- The poll of a future, with the `LocalSet` that was current before it;
  `caught` when its panics are caught by the task. -/
  | poll (task : ℕ) (previous : Option ℕ) (caught : Bool)
  deriving DecidableEq, Repr

/-- A thread: its slots, its nesting with the innermost frame first, and the
panic that is unwinding it. -/
structure Thread where
  slots : Slots
  frames : List Frame
  unwinding : Option Panic
  deriving DecidableEq, Repr

/-- User code is running and may do as it likes. -/
def Thread.userCode (t : Thread) : Bool :=
  t.unwinding.isNone && match t.frames with
    | [] | .catching :: _ | .poll _ _ _ :: _ => true
    | .call c :: _ => c.todo.isEmpty && c.api.closure

/-- The runtime code on top of the thread may poll a future in this way. -/
def Thread.polls (t : Thread) (l : Option ℕ) (caught : Bool) : Bool :=
  t.unwinding.isNone && match t.frames with
    | [] => l == none && caught
    | .call c :: _ => c.todo.isEmpty && c.api.polls c.rt l caught
    | .catching :: _ | .poll _ _ _ :: _ => false

/-- What a thread can do next. -/
inductive Act where
  /-- User code calls into a runtime. -/
  | call (api : Api) (rt : Runtime)
  /-- The next set-up line; a reservation gets the number `i`. -/
  | setup (i : ℕ)
  /-- The innermost call, `catch_unwind` or poll returns. -/
  | ret
  /-- User code panics. -/
  | panic (k : ℕ)
  /-- The panic leaves the innermost frame, or is caught there. -/
  | unwind
  /-- User code enters `catch_unwind`. -/
  | catchUnwind
  /-- The runtime polls a task, with this `LocalSet` current if any. -/
  | poll (task : ℕ) (l : Option ℕ) (caught : Bool)
  deriving DecidableEq, Repr

/-- Drop the locals of a call. -/
def Call.leave (c : Call) (s : Slots) : Slots := (guards c.rt).releaseAll c.held s

/-- The next set-up line of the call `c` on top of `fs`: its local is kept, or
its panic drops the locals made so far. -/
def Call.setup (c : Call) (i : ℕ) (s : Slots) (fs : List Frame) : Option Thread :=
  match c.todo with
  | [] => none
  | g :: todo =>
    match g.acquire c.rt s with
    | (none, u) =>
      let track := if g = .reserve then some i else c.track
      some ⟨u, .call { c with held := g :: c.held, todo := todo, track := track } :: fs, none⟩
    | (some p, u) => some ⟨c.leave u, fs, some p⟩

/-- One step of a thread, or `none` where it is not enabled. -/
def Thread.step (t : Thread) : Act → Option Thread
  | .call api rt =>
    if t.userCode then
      some { t with frames := .call ⟨api, rt, [], api.setup, none, t.slots⟩ :: t.frames }
    else none
  | .setup i =>
    match t.unwinding, t.frames with
    | none, .call c :: fs => c.setup i t.slots fs
    | _, _ => none
  | .ret =>
    match t.unwinding, t.frames with
    | none, .call c :: fs => if c.todo = [] then some ⟨c.leave t.slots, fs, none⟩ else none
    | none, .catching :: fs => some ⟨t.slots, fs, none⟩
    | none, .poll _ l _ :: fs => some ⟨{ t.slots with localSet := l }, fs, none⟩
    | _, _ => none
  | .panic k => if t.userCode then some { t with unwinding := some (.user k) } else none
  | .unwind =>
    match t.unwinding, t.frames with
    | some p, .call c :: fs => some ⟨c.leave t.slots, fs, some p⟩
    | some _, .catching :: fs => some ⟨t.slots, fs, none⟩
    | some p, .poll _ l caught :: fs =>
      some ⟨{ t.slots with localSet := l }, fs, if caught then none else some p⟩
    | _, _ => none
  | .catchUnwind => if t.userCode then some { t with frames := .catching :: t.frames } else none
  | .poll k l caught =>
    if t.polls l caught then
      let slots := if l.isSome then { t.slots with localSet := l } else t.slots
      some { t with slots := slots, frames := .poll k t.slots.localSet caught :: t.frames }
    else none

/-- Everything a thread can do, one constructor for each way to take a step. -/
inductive Thread.Steps : Thread → Act → Thread → Prop where
  | call {t api rt} (hu : Thread.userCode t = true) :
    Steps t (.call api rt)
      { t with frames := .call ⟨api, rt, [], api.setup, none, t.slots⟩ :: t.frames }
  | setup {s u c g gs fs i} (hn : Call.todo c = g :: gs) (ha : g.acquire c.rt s = (none, u)) :
    Steps ⟨s, .call c :: fs, none⟩ (.setup i)
      ⟨u, .call { c with held := g :: c.held, todo := gs,
                         track := if g = .reserve then some i else c.track } :: fs, none⟩
  | setupPanic {s u c g gs fs i p} (hn : Call.todo c = g :: gs)
    (ha : g.acquire c.rt s = (some p, u)) :
    Steps ⟨s, .call c :: fs, none⟩ (.setup i) ⟨c.leave u, fs, some p⟩
  | retCall {s c fs} (hn : Call.todo c = []) :
    Steps ⟨s, .call c :: fs, none⟩ .ret ⟨c.leave s, fs, none⟩
  | retCatching {s fs} : Steps ⟨s, .catching :: fs, none⟩ .ret ⟨s, fs, none⟩
  | retPoll {s k l caught fs} :
    Steps ⟨s, .poll k l caught :: fs, none⟩ .ret ⟨{ s with localSet := l }, fs, none⟩
  | panic {t k} (hu : Thread.userCode t = true) :
    Steps t (.panic k) { t with unwinding := some (.user k) }
  | unwindCall {s c fs p} :
    Steps ⟨s, .call c :: fs, some p⟩ .unwind ⟨c.leave s, fs, some p⟩
  | unwindCatching {s fs p} : Steps ⟨s, .catching :: fs, some p⟩ .unwind ⟨s, fs, none⟩
  | unwindPoll {s k l caught fs p} :
    Steps ⟨s, .poll k l caught :: fs, some p⟩ .unwind
      ⟨{ s with localSet := l }, fs, if caught then none else some p⟩
  | catchUnwind {t} (hu : Thread.userCode t = true) :
    Steps t .catchUnwind { t with frames := .catching :: t.frames }
  | poll {t k l caught} (hp : Thread.polls t l caught = true) :
    Steps t (.poll k l caught)
      { t with
        slots := if l.isSome then { t.slots with localSet := l } else t.slots
        frames := .poll k t.slots.localSet caught :: t.frames }

/-- The executable step takes only these steps. -/
theorem step_cases {t u : Thread} {a : Act} (h : t.step a = some u) : t.Steps a u := by
  obtain ⟨s, fs, p⟩ := t
  cases a with
  | call api rt =>
    obtain ⟨hu, ⟨⟩⟩ := Option.ite_none_right_eq_some.mp h
    exact .call hu
  | setup i =>
    cases p with
    | some p => cases h
    | none =>
      rcases fs with _ | ⟨_ | _ | _, fs⟩
      case cons.call c =>
        change c.setup i s fs = some u at h
        unfold Call.setup at h
        split at h
        · cases h
        next g gs hn =>
          split at h
          next v ha =>
            cases h
            exact .setup hn ha
          next q v ha =>
            cases h
            exact .setupPanic hn ha
      all_goals cases h
  | ret =>
    cases p with
    | some p => cases h
    | none =>
      rcases fs with _ | ⟨_ | _ | _, fs⟩
      · cases h
      · obtain ⟨hn, ⟨⟩⟩ := Option.ite_none_right_eq_some.mp h
        exact .retCall hn
      · cases h
        exact .retCatching
      · cases h
        exact .retPoll
  | panic k =>
    obtain ⟨hu, ⟨⟩⟩ := Option.ite_none_right_eq_some.mp h
    exact .panic hu
  | unwind =>
    cases p with
    | none => cases h
    | some p =>
      rcases fs with _ | ⟨_ | _ | _, fs⟩ <;> cases h
      · exact .unwindCall
      · exact .unwindCatching
      · exact .unwindPoll
  | catchUnwind =>
    obtain ⟨hu, ⟨⟩⟩ := Option.ite_none_right_eq_some.mp h
    exact .catchUnwind hu
  | poll k l caught =>
    obtain ⟨hp, ⟨⟩⟩ := Option.ite_none_right_eq_some.mp h
    exact .poll hp

end TokioCompat.Context
