import TokioCompat.Context

/-!
# The entry points that spawn a future

Every function of the library that takes a future to run, as a program over
the few operations it uses: reserve on an idle tracker, hand a future to an
executor, read `CURRENT_IDLE` or the default tokio 0.1 executor. A program is
run one operation at a time, so other threads can interleave with it.
-/

namespace TokioCompat.Spawn

open Context

/-- A reservation: the tracker it was made on and its number there. -/
structure Track where
  idle : ℕ
  index : ℕ
  deriving DecidableEq, Repr

/-- A future with the adapters around it. -/
inductive Fut where
  /-- A `std::future` of the program. -/
  | std (user : ℕ)
  /-- A futures 0.1 future of the program. -/
  | futures01 (user : ℕ)
  /-- `.compat()`. -/
  | compat (f : Fut)
  /-- `.map(|_| ())`. -/
  | map (f : Fut)
  /-- `Box::pin` or `Box::new`. -/
  | boxed (f : Fut)
  /-- `Track::with`. -/
  | tracked (t : Track) (f : Fut)
  deriving DecidableEq, Repr

/-- The program's own future inside. -/
def Fut.user : Fut → ℕ
  | .std u | .futures01 u => u
  | .compat f | .map f | .boxed f | .tracked _ f => f.user

/-- The reservations that completing the future ends, outermost first. -/
def Fut.tracks : Fut → List Track
  | .std _ | .futures01 _ => []
  | .compat f | .map f | .boxed f => f.tracks
  | .tracked t f => t :: f.tracks

/-- Where a future is queued. -/
inductive Queue where
  /-- The scheduler of a tokio 0.2 runtime. -/
  | scheduler (inner : ℕ)
  | localSet (l : ℕ)
  /-- `block_on` of this thread. -/
  | root (thread : ℕ)
  deriving DecidableEq, Repr

/-- How a future is handed over. -/
inductive Target where
  /-- `Handle::spawn` or `Runtime::spawn` of tokio 0.2. -/
  | scheduler (inner : ℕ)
  /-- `LocalSet::spawn_local`. -/
  | localSet (l : ℕ)
  /-- `tokio_02::task::spawn_local`. -/
  | currentLocal
  deriving DecidableEq, Repr

/-- The queue a target means on a thread; without a current `LocalSet`,
`task::spawn_local` panics. -/
def Target.queue (s : Slots) : Target → Option Queue
  | .scheduler r => some (.scheduler r)
  | .localSet l => some (.localSet l)
  | .currentLocal => s.localSet.map .localSet

/-- A program over the operations of the entry points. -/
inductive Code (α : Type) : Type where
  | done (a : α)
  /-- `Idle::reserve`. -/
  | reserve (idle : ℕ) (k : Track → Code α)
  | handOff (q : Target) (f : Fut) (k : Unit → Code α)
  /-- Read `CURRENT_IDLE`. -/
  | currentIdle (k : Option ℕ → Code α)
  /-- Read the default tokio 0.1 executor. -/
  | defaultExecutor (k : Option Executor01 → Code α)

/-- Run one program and then another. -/
def Code.bind {α β : Type} : Code α → (α → Code β) → Code β
  | .done a, f => f a
  | .reserve i k, f => .reserve i fun t => (k t).bind f
  | .handOff q u k, f => .handOff q u fun _ => (k ()).bind f
  | .currentIdle k, f => .currentIdle fun i => (k i).bind f
  | .defaultExecutor k, f => .defaultExecutor fun e => (k e).bind f

instance : Monad Code where
  pure := .done
  bind := Code.bind

/-- `Idle::reserve` as a program. -/
def reserve (idle : ℕ) : Code Track := .reserve idle .done

/-- Handing a future over, as a program. -/
def handOff (q : Target) (f : Fut) : Code Unit := .handOff q f .done

/-- `executor_01::SpawnError`. -/
inductive SpawnError where
  | shutdown
  | atCapacity
  deriving DecidableEq, Repr

/-- `future_01::ExecuteError`, which gives the future back. -/
structure ExecuteError where
  kind : SpawnError
  future : Fut
  deriving DecidableEq, Repr

/-- `tokio_02::task::JoinHandle`. -/
structure JoinHandle where
  deriving DecidableEq, Repr

/-! ### `runtime/compat.rs` -/

/-- `Executor::spawn` of `CompatSpawner<Handle>` and `CompatSpawner<&Handle>`. -/
def CompatSpawner.spawn (self : CompatSpawner) (future : Fut) : Code (Except SpawnError Unit) := do
  let future := future.compat.map
  let idle ← reserve self.idle
  handOff (.scheduler self.inner) (.tracked idle future)
  return .ok ()

/-- `TypedExecutor::spawn` of `CompatSpawner<Handle>` and `CompatSpawner<&Handle>`. -/
def CompatSpawner.spawnTyped (self : CompatSpawner) (future : Fut) :
    Code (Except SpawnError Unit) := do
  let idle ← reserve self.idle
  let future := Fut.boxed (.tracked idle future.compat.map)
  handOff (.scheduler self.inner) future
  return .ok ()

/-! ### `runtime/threadpool` -/

namespace ThreadPool

/-- `threadpool::Runtime::spawn_std`. -/
def Runtime.spawnStd (self : Runtime) (future : Fut) : Code Unit := do
  let idle ← reserve self.idle
  handOff (.scheduler self.inner) (.tracked idle future)

/-- `threadpool::Runtime::spawn`. -/
def Runtime.spawn (self : Runtime) (future : Fut) : Code Unit :=
  Runtime.spawnStd self future.compat.map

/-- `threadpool::Runtime::spawn_handle_std`. -/
def Runtime.spawnHandleStd (self : Runtime) (future : Fut) : Code JoinHandle := do
  handOff (.scheduler self.inner) future
  return {}

/-- `threadpool::Runtime::spawn_handle`. -/
def Runtime.spawnHandle (self : Runtime) (future : Fut) : Code JoinHandle :=
  Runtime.spawnHandleStd self (.boxed future.compat)

/-- `threadpool::TaskExecutor`. -/
structure TaskExecutor where
  inner : CompatSpawner
  deriving DecidableEq, Repr

/-- `threadpool::Runtime::executor`. -/
def Runtime.executor (self : Runtime) : TaskExecutor := ⟨self.spawner⟩

/-- `TaskExecutor::spawn_std`. -/
def TaskExecutor.spawnStd (self : TaskExecutor) (future : Fut) : Code Unit := do
  let idle ← reserve self.inner.idle
  handOff (.scheduler self.inner.inner) (.tracked idle future)

/-- `TaskExecutor::spawn`. -/
def TaskExecutor.spawn (self : TaskExecutor) (future : Fut) : Code Unit :=
  self.spawnStd (.boxed future.compat.map)

/-- `TaskExecutor::spawn_handle_std`. -/
def TaskExecutor.spawnHandleStd (self : TaskExecutor) (future : Fut) : Code JoinHandle := do
  handOff (.scheduler self.inner.inner) future
  return {}

/-- `TaskExecutor::spawn_handle`. -/
def TaskExecutor.spawnHandle (self : TaskExecutor) (future : Fut) : Code JoinHandle :=
  self.spawnHandleStd (.boxed future.compat)

/-- `future_01::Executor::execute` of `TaskExecutor`. -/
def TaskExecutor.execute (self : TaskExecutor) (future : Fut) : Code (Except ExecuteError Unit) := do
  self.spawn future
  return .ok ()

/-- `executor_01::Executor::spawn` of `TaskExecutor`. -/
def TaskExecutor.executorSpawn (self : TaskExecutor) (future : Fut) :
    Code (Except SpawnError Unit) := CompatSpawner.spawn self.inner future

/-- `executor_01::TypedExecutor::spawn` of `TaskExecutor`. -/
def TaskExecutor.typedSpawn (self : TaskExecutor) (future : Fut) :
    Code (Except SpawnError Unit) := CompatSpawner.spawnTyped self.inner future

end ThreadPool

/-! ### `runtime/current_thread` -/

namespace CurrentThread

/-- `current_thread::Handle`. -/
structure Handle where
  inner : ℕ
  idle : ℕ
  deriving DecidableEq, Repr

/-- `current_thread::Runtime::handle`. -/
def Runtime.handle (self : Runtime) : Handle := ⟨self.inner, self.idle⟩

/-- `Handle::spawn_std`. -/
def Handle.spawnStd (self : Handle) (future : Fut) : Code (Except SpawnError Unit) := do
  let idle ← reserve self.idle
  handOff (.scheduler self.inner) (.tracked idle future)
  return .ok ()

/-- `Handle::spawn`. -/
def Handle.spawn (self : Handle) (future : Fut) : Code (Except SpawnError Unit) :=
  self.spawnStd future.compat.map

/-- `Handle::spawn_handle_std`. -/
def Handle.spawnHandleStd (self : Handle) (future : Fut) : Code JoinHandle := do
  handOff (.scheduler self.inner) future
  return {}

/-- `Handle::spawn_handle`. -/
def Handle.spawnHandle (self : Handle) (future : Fut) : Code JoinHandle :=
  self.spawnHandleStd (.boxed future.compat)

/-- `current_thread::Runtime::spawn_std`. -/
def Runtime.spawnStd (self : Runtime) (future : Fut) : Code Unit := do
  let idle ← reserve self.idle
  handOff (.localSet self.localSet) (.tracked idle future)

/-- `current_thread::Runtime::spawn`. -/
def Runtime.spawn (self : Runtime) (future : Fut) : Code Unit :=
  Runtime.spawnStd self future.compat.map

/-- `current_thread::Runtime::reserve_idle`. -/
def Runtime.reserveIdle : Code (Option Track) := do
  match ← Code.currentIdle .done with
  | none => return none
  | some idle => return some (← reserve idle)

/-- `current_thread::Runtime::is_current`. -/
def Runtime.isCurrent : Code Bool := do
  return (← Code.currentIdle .done).isSome

/-- `TaskExecutor::spawn_local_std`. -/
def TaskExecutor.spawnLocalStd (future : Fut) : Code (Except SpawnError Unit) := do
  match ← Runtime.reserveIdle with
  | some idle =>
    handOff .currentLocal (.tracked idle future)
    return .ok ()
  | none => return .error .shutdown

/-- `TaskExecutor::spawn_local`. -/
def TaskExecutor.spawnLocal (future : Fut) : Code (Except SpawnError Unit) :=
  TaskExecutor.spawnLocalStd future.compat.map

/-- `TaskExecutor::spawn_handle_std`. -/
def TaskExecutor.spawnHandleStd (future : Fut) : Code JoinHandle := do
  handOff .currentLocal future
  return {}

/-- `TaskExecutor::spawn_handle`. -/
def TaskExecutor.spawnHandle (future : Fut) : Code JoinHandle :=
  TaskExecutor.spawnHandleStd future.compat

/-- `future_01::Executor::execute` of `TaskExecutor`. -/
def TaskExecutor.execute (future : Fut) : Code (Except ExecuteError Unit) := do
  match ← Runtime.reserveIdle with
  | some idle =>
    handOff .currentLocal (.tracked idle future.compat)
    return .ok ()
  | none => return .error ⟨.shutdown, future⟩

/-- `executor_01::Executor::spawn` of `TaskExecutor`. -/
def TaskExecutor.executorSpawn (future : Fut) : Code (Except SpawnError Unit) :=
  TaskExecutor.spawnLocal future

/-- `executor_01::Executor::status` of `TaskExecutor`. -/
def TaskExecutor.status : Code (Except SpawnError Unit) := do
  if ← Runtime.isCurrent then return .ok () else return .error .shutdown

/-- `executor_01::TypedExecutor::spawn` of `TaskExecutor`. -/
def TaskExecutor.typedSpawn (future : Fut) : Code (Except SpawnError Unit) :=
  TaskExecutor.spawnLocal (.boxed future)

end CurrentThread

/-- `DefaultExecutor::spawn` of tokio 0.1, which its `tokio::spawn` calls; an
executor that is not this library's keeps the future to itself. -/
def DefaultExecutor.spawn (future : Fut) : Code (Except SpawnError Unit) := do
  match ← Code.defaultExecutor .done with
  | none => return .error .shutdown
  | some (.compat s) => CompatSpawner.spawn s future
  | some (.foreign _) => return .ok ()

end TokioCompat.Spawn
