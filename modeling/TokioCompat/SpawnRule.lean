import TokioCompat.Spawn

/-!
# One rule for all entry points

A counted entry point reserves once and then hands the future, wrapped in that
reservation, to a queue; an uncounted one only hands it over; the remaining
outcomes change nothing. Each entry point is assigned one such rule, and
every way its program can run is a way the rule allows.
-/

namespace TokioCompat.Spawn

open Context

/-- An operation with an effect outside the calling thread. -/
inductive Op where
  | reserve (t : Track)
  | handOff (q : Queue) (f : Fut)
  deriving DecidableEq, Repr

/-- A program run on a thread with slots `s` performs these operations and
returns this value; `none` when it panics. -/
inductive Performs {α : Type} (s : Slots) : Code α → List Op → Option α → Prop where
  | done (a : α) : Performs s (.done a) [] (some a)
  | reserve {i k n ops o} (h : Performs s (k ⟨i, n⟩) ops o) :
    Performs s (.reserve i k) (.reserve ⟨i, n⟩ :: ops) o
  | handOff {q q' f k ops o} (hq : Target.queue s q = some q') (h : Performs s (k ()) ops o) :
    Performs s (.handOff q f k) (.handOff q' f :: ops) o
  | panic {q f k} (hq : Target.queue s q = none) : Performs s (.handOff q f k) [] none
  | currentIdle {k ops o} (h : Performs s (k s.currentIdle) ops o) :
    Performs s (.currentIdle k) ops o
  | defaultExecutor {k ops o} (h : Performs s (k s.executor) ops o) :
    Performs s (.defaultExecutor k) ops o

section Performs

variable {α : Type} {s : Slots} {ops : List Op} {o : Option α}

@[simp] theorem performs_done {a : α} : Performs s (.done a) ops o ↔ ops = [] ∧ o = some a :=
  ⟨fun | .done _ => ⟨rfl, rfl⟩, fun ⟨h, h'⟩ => by subst h h'; exact .done a⟩

@[simp] theorem performs_reserve {i : ℕ} {k : Track → Code α} :
    Performs s (.reserve i k) ops o ↔
      ∃ n ops', ops = .reserve ⟨i, n⟩ :: ops' ∧ Performs s (k ⟨i, n⟩) ops' o :=
  ⟨fun | .reserve h => ⟨_, _, rfl, h⟩, fun ⟨_, _, h, h'⟩ => by subst h; exact .reserve h'⟩

@[simp] theorem performs_handOff {q : Target} {f : Fut} {k : Unit → Code α} :
    Performs s (.handOff q f k) ops o ↔
      (∃ q' ops', q.queue s = some q' ∧ ops = .handOff q' f :: ops' ∧ Performs s (k ()) ops' o) ∨
        (q.queue s = none ∧ ops = [] ∧ o = none) := by
  constructor
  · intro h
    cases h with
    | handOff hq h => exact Or.inl ⟨_, _, hq, rfl, h⟩
    | panic hq => exact Or.inr ⟨hq, rfl, rfl⟩
  · rintro (⟨q', ops', hq, rfl, h⟩ | ⟨hq, rfl, rfl⟩)
    · exact .handOff hq h
    · exact .panic hq

@[simp] theorem performs_currentIdle {k : Option ℕ → Code α} :
    Performs s (.currentIdle k) ops o ↔ Performs s (k s.currentIdle) ops o :=
  ⟨fun | .currentIdle h => h, .currentIdle⟩

@[simp] theorem performs_defaultExecutor {k : Option Executor01 → Code α} :
    Performs s (.defaultExecutor k) ops o ↔ Performs s (k s.executor) ops o :=
  ⟨fun | .defaultExecutor h => h, .defaultExecutor⟩

end Performs

/-- What a call of an entry point returns. -/
inductive Reply where
  /-- Nothing, the receiver, or `Ok`. -/
  | ok
  | handle (h : JoinHandle)
  | refused (e : SpawnError)
  /-- The error of `execute`, with the caller's future. -/
  | returned (e : ExecuteError)
  deriving DecidableEq, Repr

/-- `Result<(), SpawnError>` as a reply. -/
def Reply.ofSpawn : Except SpawnError Unit → Reply
  | .ok () => .ok
  | .error e => .refused e

/-- `Result<(), ExecuteError<T>>` as a reply. -/
def Reply.ofExecute : Except ExecuteError Unit → Reply
  | .ok () => .ok
  | .error e => .returned e

/-- The entry points. -/
inductive Point where
  | compatSpawn | compatSpawnTyped
  | poolSpawn | poolSpawnStd | poolSpawnHandle | poolSpawnHandleStd
  | executorSpawn | executorSpawnStd | executorSpawnHandle | executorSpawnHandleStd
  | executorExecute | executorTrait | executorTyped
  | handleSpawn | handleSpawnStd | handleSpawnHandle | handleSpawnHandleStd
  | currentSpawn | currentSpawnStd
  | localSpawn | localSpawnStd | localSpawnHandle | localSpawnHandleStd
  | localExecute | localTrait | localTyped
  | defaultExecutor
  deriving DecidableEq, Repr

/-- Call the entry point, through its receiver on `rt` where it has one, with
the future `u` of the program. -/
def Point.code (rt : Runtime) (u : ℕ) : Point → Code Reply
  | .compatSpawn => Reply.ofSpawn <$> CompatSpawner.spawn rt.spawner (.boxed (.futures01 u))
  | .compatSpawnTyped => Reply.ofSpawn <$> CompatSpawner.spawnTyped rt.spawner (.futures01 u)
  | .poolSpawn => (fun _ => .ok) <$> ThreadPool.Runtime.spawn rt (.futures01 u)
  | .poolSpawnStd => (fun _ => .ok) <$> ThreadPool.Runtime.spawnStd rt (.std u)
  | .poolSpawnHandle => .handle <$> ThreadPool.Runtime.spawnHandle rt (.futures01 u)
  | .poolSpawnHandleStd => .handle <$> ThreadPool.Runtime.spawnHandleStd rt (.std u)
  | .executorSpawn => (fun _ => .ok) <$> (ThreadPool.Runtime.executor rt).spawn (.futures01 u)
  | .executorSpawnStd => (fun _ => .ok) <$> (ThreadPool.Runtime.executor rt).spawnStd (.std u)
  | .executorSpawnHandle => .handle <$> (ThreadPool.Runtime.executor rt).spawnHandle (.futures01 u)
  | .executorSpawnHandleStd => .handle <$> (ThreadPool.Runtime.executor rt).spawnHandleStd (.std u)
  | .executorExecute => Reply.ofExecute <$> (ThreadPool.Runtime.executor rt).execute (.futures01 u)
  | .executorTrait =>
    Reply.ofSpawn <$> (ThreadPool.Runtime.executor rt).executorSpawn (.boxed (.futures01 u))
  | .executorTyped => Reply.ofSpawn <$> (ThreadPool.Runtime.executor rt).typedSpawn (.futures01 u)
  | .handleSpawn => Reply.ofSpawn <$> (CurrentThread.Runtime.handle rt).spawn (.futures01 u)
  | .handleSpawnStd => Reply.ofSpawn <$> (CurrentThread.Runtime.handle rt).spawnStd (.std u)
  | .handleSpawnHandle => .handle <$> (CurrentThread.Runtime.handle rt).spawnHandle (.futures01 u)
  | .handleSpawnHandleStd => .handle <$> (CurrentThread.Runtime.handle rt).spawnHandleStd (.std u)
  | .currentSpawn => (fun _ => .ok) <$> CurrentThread.Runtime.spawn rt (.futures01 u)
  | .currentSpawnStd => (fun _ => .ok) <$> CurrentThread.Runtime.spawnStd rt (.std u)
  | .localSpawn => Reply.ofSpawn <$> CurrentThread.TaskExecutor.spawnLocal (.futures01 u)
  | .localSpawnStd => Reply.ofSpawn <$> CurrentThread.TaskExecutor.spawnLocalStd (.std u)
  | .localSpawnHandle => .handle <$> CurrentThread.TaskExecutor.spawnHandle (.futures01 u)
  | .localSpawnHandleStd => .handle <$> CurrentThread.TaskExecutor.spawnHandleStd (.std u)
  | .localExecute => Reply.ofExecute <$> CurrentThread.TaskExecutor.execute (.futures01 u)
  | .localTrait =>
    Reply.ofSpawn <$> CurrentThread.TaskExecutor.executorSpawn (.boxed (.futures01 u))
  | .localTyped => Reply.ofSpawn <$> CurrentThread.TaskExecutor.typedSpawn (.futures01 u)
  | .defaultExecutor => Reply.ofSpawn <$> DefaultExecutor.spawn (.boxed (.futures01 u))

/-- What a call of an entry point may do. -/
inductive Rule where
  /-- Reserve on this tracker, then hand the future to this queue. -/
  | counted (idle : ℕ) (q : Queue)
  /-- Hand the future to this queue. -/
  | uncounted (q : Queue)
  /-- Return this error. -/
  | refused (r : Reply)
  /-- Panic, after a reservation on this tracker if any. -/
  | panics (idle : Option ℕ)
  /-- Give the future to an executor of another library. -/
  | elsewhere
  deriving DecidableEq, Repr

/-- The operations and the reply a rule allows for the future `u`. -/
def Rule.Allows (u : ℕ) (ops : List Op) (o : Option Reply) : Rule → Prop
  | .counted i q => ∃ n f, ops = [.reserve ⟨i, n⟩, .handOff q f] ∧ f.user = u ∧
      f.tracks = [⟨i, n⟩] ∧ o = some .ok
  | .uncounted q => ∃ f h, ops = [.handOff q f] ∧ f.user = u ∧ f.tracks = [] ∧ o = some (.handle h)
  | .refused r => ops = [] ∧ o = some r
  | .panics none => ops = [] ∧ o = none
  | .panics (some i) => ∃ n, ops = [.reserve ⟨i, n⟩] ∧ o = none
  | .elsewhere => ops = [] ∧ o = some .ok

/-- The entry points of `current_thread::TaskExecutor` that count their task. -/
def Point.isLocal : Point → Bool
  | .localSpawn | .localSpawnStd | .localExecute | .localTrait | .localTyped => true
  | _ => false

/-- The error of these entry points outside every current-thread runtime. -/
def Point.shutdown (u : ℕ) : Point → Reply
  | .localExecute => .returned ⟨.shutdown, .futures01 u⟩
  | _ => .refused .shutdown

/-- A counted task for the current `LocalSet` and `CURRENT_IDLE` of a thread. -/
def Slots.localRule (s : Slots) (error : Reply) : Rule :=
  match s.currentIdle, s.localSet with
  | none, _ => .refused error
  | some i, some l => .counted i (.localSet l)
  | some i, none => .panics (some i)

/-- The rule of each entry point on a thread with slots `s`. -/
def Point.rule (rt : Runtime) (u : ℕ) (s : Slots) : Point → Rule
  | .compatSpawn | .compatSpawnTyped | .poolSpawn | .poolSpawnStd | .executorSpawn
  | .executorSpawnStd | .executorExecute | .executorTrait | .executorTyped | .handleSpawn
  | .handleSpawnStd => .counted rt.idle (.scheduler rt.inner)
  | .currentSpawn | .currentSpawnStd => .counted rt.idle (.localSet rt.localSet)
  | .poolSpawnHandle | .poolSpawnHandleStd | .executorSpawnHandle | .executorSpawnHandleStd
  | .handleSpawnHandle | .handleSpawnHandleStd => .uncounted (.scheduler rt.inner)
  | .localSpawnHandle | .localSpawnHandleStd =>
    match s.localSet with
    | some l => .uncounted (.localSet l)
    | none => .panics none
  | .localSpawn | .localSpawnStd | .localTrait | .localTyped =>
    Slots.localRule s (.refused .shutdown)
  | .localExecute => Slots.localRule s (.returned ⟨.shutdown, .futures01 u⟩)
  | .defaultExecutor =>
    match s.executor with
    | none => .refused (.refused .shutdown)
    | some (.compat sp) => .counted sp.idle (.scheduler sp.inner)
    | some (.foreign _) => .elsewhere

section Shapes

variable {s : Slots} {ops : List Op} {o : Option Reply} {u : ℕ}

/-- The shape of a counted entry point. -/
theorem counted_allows {i : ℕ} {q : Target} {q' : Queue} {f : Track → Fut} (hq : q.queue s = some q')
    (hf : ∀ t, (f t).user = u ∧ (f t).tracks = [t])
    (h : Performs s (.reserve i fun t => .handOff q (f t) fun _ => .done .ok) ops o) :
    (Rule.counted i q').Allows u ops o := by
  simp only [performs_reserve, performs_handOff, performs_done, hq] at h
  obtain ⟨n, _, rfl, ⟨_, _, h, rfl, rfl, rfl⟩ | ⟨h, _⟩⟩ := h
  · cases h
    exact ⟨n, f ⟨i, n⟩, rfl, (hf _).1, (hf _).2, rfl⟩
  · cases h

/-- The shape of an uncounted entry point. -/
theorem uncounted_allows {q : Target} {q' : Queue} {f : Fut} {j : JoinHandle}
    (hq : q.queue s = some q') (hf : f.user = u ∧ f.tracks = [])
    (h : Performs s (.handOff q f fun _ => .done (.handle j)) ops o) :
    (Rule.uncounted q').Allows u ops o := by
  simp only [performs_handOff, performs_done, hq] at h
  obtain ⟨_, _, h, rfl, rfl, rfl⟩ | ⟨h, _⟩ := h
  · cases h
    exact ⟨f, j, rfl, hf.1, hf.2, rfl⟩
  · cases h

/-- An uncounted task for the current `LocalSet`. -/
theorem current_allows {f : Fut} {j : JoinHandle} (hf : f.user = u ∧ f.tracks = [])
    (h : Performs s (.handOff .currentLocal f fun _ => .done (.handle j)) ops o) :
    (match s.localSet with
      | some l => Rule.uncounted (.localSet l)
      | none => .panics none).Allows u ops o := by
  cases hl : s.localSet with
  | some l => exact uncounted_allows (by rw [Target.queue, hl]; rfl) hf h
  | none =>
    simp only [performs_handOff, Target.queue, hl, Option.map_none] at h
    obtain ⟨_, _, h, _⟩ | ⟨_, rfl, rfl⟩ := h
    · cases h
    · exact ⟨rfl, rfl⟩

/-- The shape of a counted entry point of `current_thread::TaskExecutor`. -/
theorem local_code {p : Point} (hp : p.isLocal = true) (rt : Runtime) (u : ℕ) :
    ∃ (c : Option ℕ → Code Reply) (f : Track → Fut), p.code rt u = .currentIdle c ∧
      c none = .done (p.shutdown u) ∧
      (∀ i, c (some i) =
        .reserve i fun t => .handOff .currentLocal (f t) fun _ => .done .ok) ∧
      ∀ t, (f t).user = u ∧ (f t).tracks = [t] := by
  cases p with
  | localSpawn | localSpawnStd | localExecute | localTrait | localTyped =>
    exact ⟨_, _, rfl, rfl, fun _ => rfl, fun _ => ⟨rfl, rfl⟩⟩
  | _ => cases hp

theorem local_allows {rt : Runtime} {p : Point} (hp : p.isLocal = true)
    (h : Performs s (p.code rt u) ops o) : (Slots.localRule s (p.shutdown u)).Allows u ops o := by
  obtain ⟨c, f, he, hn, hc, hf⟩ := local_code hp rt u
  rw [he, performs_currentIdle] at h
  unfold Slots.localRule
  cases hi : s.currentIdle with
  | none =>
    rw [hi, hn, performs_done] at h
    exact h
  | some i =>
    rw [hi, hc] at h
    cases hl : s.localSet with
    | some l => exact counted_allows (by rw [Target.queue, hl]; rfl) hf h
    | none =>
      simp only [performs_reserve, performs_handOff, Target.queue, hl, Option.map_none] at h
      obtain ⟨n, _, rfl, ⟨_, _, h, _⟩ | ⟨_, rfl, rfl⟩⟩ := h
      · cases h
      · exact ⟨n, rfl, rfl⟩

/-- `tokio::spawn` of tokio 0.1. -/
theorem default_allows {rt : Runtime}
    (h : Performs s (Point.code rt u .defaultExecutor) ops o) :
    (Point.rule rt u s .defaultExecutor).Allows u ops o := by
  change Performs s (.defaultExecutor _) ops o at h
  rw [performs_defaultExecutor] at h
  unfold Point.rule
  cases he : s.executor with
  | none =>
    rw [he] at h
    exact performs_done.mp h
  | some x =>
    rw [he] at h
    cases x with
    | compat sp => exact counted_allows rfl (fun _ => ⟨rfl, rfl⟩) h
    | foreign k => exact performs_done.mp h

end Shapes

/-- Every run of every entry point is one its rule allows. -/
theorem performs_rule {rt : Runtime} {u : ℕ} {s : Slots} {p : Point} {ops : List Op}
    {o : Option Reply} (h : Performs s (p.code rt u) ops o) : (p.rule rt u s).Allows u ops o := by
  cases p with
  | compatSpawn | compatSpawnTyped | poolSpawn | poolSpawnStd | executorSpawn | executorSpawnStd
  | executorExecute | executorTrait | executorTyped | handleSpawn | handleSpawnStd | currentSpawn
  | currentSpawnStd => exact counted_allows rfl (fun _ => ⟨rfl, rfl⟩) h
  | poolSpawnHandle | poolSpawnHandleStd | executorSpawnHandle | executorSpawnHandleStd
  | handleSpawnHandle | handleSpawnHandleStd => exact uncounted_allows rfl ⟨rfl, rfl⟩ h
  | localSpawnHandle | localSpawnHandleStd => exact current_allows ⟨rfl, rfl⟩ h
  | localSpawn | localSpawnStd | localTrait | localTyped | localExecute =>
    exact local_allows rfl h
  | defaultExecutor => exact default_allows h

end TokioCompat.Spawn
