import TokioCompat.Context
import TokioCompat.Ownership
import Mathlib.Data.Finset.Insert

/-!
# Building, starting threads and releasing a runtime

Both builders follow one protocol: a shared slot is created locked, the
`on_thread_start` hook captures it, tokio builds its runtime and may start
threads at once, and only then is the slot filled and unlocked. Every strong
reference is explicit state, so what each drop releases can be read off. The
builders differ in how the hook captures the slot and who keeps it.
-/

namespace TokioCompat.Startup

open Context Ownership Scope Transition

/-- Where a strong reference is stored. -/
inductive Place where
  /-- The tokio `Builder`, which keeps the last `on_thread_start` hook. -/
  | builder
  /-- `compat_sender`: the local of `build`, then the field of a thread-pool `Runtime`. -/
  | compatSender (k : ℕ)
  /-- The tokio 0.2 `Runtime` inside the compatibility runtime. -/
  | runtime (k : ℕ)
  /-- The local `spawner` of `shutdown_on_idle`. -/
  | spawner (k : ℕ)
  /-- A handle, executor or running call of the program. -/
  | user (n : ℕ)
  /-- The handle every thread of a tokio runtime owns. -/
  | pool (j : ℕ)
  /-- The upgraded `compat_sender2` in the hook on thread `j`. -/
  | upgraded (j : ℕ)
  /-- `COMPAT_GUARDS` of thread `j`, from the clone in the hook on. -/
  | guards (j : ℕ)
  /-- The hook made by the `k`-th build. -/
  | closure (k : ℕ)
  /-- The `Arc<RwLock<Option<CompatSpawner>>>` made by the `k`-th build. -/
  | sender (k : ℕ)
  /-- The shared state behind the tokio 0.2 `Handle` of the `k`-th build. -/
  | handle (k : ℕ)
  deriving DecidableEq, Repr

/-- Places of the program, as opposed to reference-counted objects. -/
def Place.root : Place → Bool
  | .closure _ | .sender _ | .handle _ => false
  | _ => true

/-- The place is the handle of a thread. -/
def Place.isPool : Place → Bool
  | .pool _ => true
  | _ => false

/-- What a drop of a runtime releases, one value at a time. -/
inductive Drop where
  | spawner
  | runtime
  | compatBg
  | compatSender
  deriving DecidableEq, Repr

/-- Ways a runtime ends. -/
inductive Ending where
  /-- The `Runtime` is dropped. -/
  | plain
  | shutdownNow
  | shutdownOnIdle
  /-- `shutdown_on_idle` panics before its spawner is installed. -/
  | shutdownPanics
  deriving DecidableEq, Repr

/-- How far a build has come, and what became of its runtime. -/
inductive Stage where
  | absent
  /-- The slot is write-locked and the hook installed. -/
  | locked
  /-- The tokio runtime exists. -/
  | tokio
  /-- The slot is filled and still locked. -/
  | written
  /-- The lock is dropped. -/
  | unlocked
  /-- `build` has returned the runtime. -/
  | live
  /-- These drops are still to come. -/
  | ending (ds : List Drop)
  | gone
  /-- tokio's `build` returned an error. -/
  | failed
  deriving DecidableEq, Repr

/-- The write lock on the slot is held. -/
def Stage.writeLocked : Stage → Bool
  | .locked | .tokio | .written => true
  | _ => false

/-- The tokio runtime exists, so it may have and start threads. -/
def Stage.hasTokio : Stage → Bool
  | .tokio | .written | .unlocked | .live => true
  | .ending ds => ds.contains .runtime
  | _ => false

/-- One build and its runtime. -/
structure Build where
  stage : Stage
  /-- The hook tokio's `build` shared with the runtime. -/
  hook : ℕ
  /-- Content of the slot. -/
  slot : Option CompatSpawner

/-- Where a thread of a tokio runtime stands. -/
inductive Pc where
  | absent
  /-- Running, before the hook. -/
  | started
  /-- The hook holds the slot. -/
  | upgraded
  /-- The hook cloned the spawner out of the slot. -/
  | reading (sp : CompatSpawner)
  /-- Between `on_thread_start` and `on_thread_stop`. -/
  | running
  /-- After `on_thread_stop`. -/
  | stopping
  | exited
  | panicked (p : Panic)
  deriving DecidableEq, Repr

/-- The thread exists. -/
def Pc.attached : Pc → Bool
  | .started | .upgraded | .reading _ | .running | .stopping => true
  | .absent | .exited | .panicked _ => false

/-- A worker or blocking thread. -/
structure Worker where
  /-- The tokio runtime it belongs to. -/
  rt : ℕ
  pc : Pc
  slots : Slots
  /-- The spawner in `COMPAT_GUARDS`. -/
  guards : Option CompatSpawner

/-- The context of a new thread. -/
def Slots.fresh : Slots := ⟨none, none, none, none, false, false, none⟩

/-- What distinguishes the two builders. -/
structure Flavor where
  /-- The hook captures a strong reference to the slot, not a weak one. -/
  strong : Bool
  /-- The runtime keeps the slot in a field. -/
  keeps : Bool
  /-- The panic of a hook that finds the slot empty. -/
  unset : String

/-- `threadpool::Builder`. -/
def Flavor.threadPool : Flavor :=
  ⟨false, true, "compat executor needs to be set before the pool is run!"⟩

/-- `current_thread::Builder`. -/
def Flavor.currentThread : Flavor :=
  ⟨true, false, "compat executor needs to be set before runtime is run!"⟩

/-- The panic of a hook whose weak reference is dead. -/
def upgradeFailed : Panic := .assertion "Runtime dropped but thread started; this is a bug!"

/-- The assertion in `set_guards`. -/
def setTwice : Panic := .assertion "default tokio 0.1 runtime set twice; this is a bug"

/-- The drops of each ending, in order: fields in declaration order, locals of
`shutdown_on_idle` latest first and its parameter last. -/
def Flavor.drops (f : Flavor) : Ending → Option (List Drop)
  | .plain => some (if f.keeps then [.runtime, .compatBg, .compatSender] else [.runtime, .compatBg])
  | .shutdownNow => if f.keeps then some [.runtime, .compatBg, .compatSender] else none
  | .shutdownOnIdle =>
    if f.keeps then some [.spawner, .runtime, .compatBg, .compatSender] else none
  | .shutdownPanics =>
    if f.keeps then some [.runtime, .compatBg, .spawner, .compatSender] else none

/-- One `set_default` of `set_guards`. -/
def setDefault (rt : Context.Runtime) (g : Guard) (s : Slots) : Except Panic Slots :=
  match g.acquire rt s with
  | (none, t) => .ok t
  | (some p, _) => .error p

/-- `compat::set_guards`. -/
def setGuards (sp : CompatSpawner) (compat : ℕ) (guards : Option CompatSpawner) (s : Slots) :
    Except Panic Slots := do
  let rt : Context.Runtime := ⟨sp.inner, sp.inner, sp.idle, compat⟩
  let s ← setDefault rt .executor s
  let s ← setDefault rt .timer s
  let s ← setDefault rt .reactor s
  if guards.isSome then throw setTwice
  return s

/-- `compat::unset_guards`. -/
def unsetGuards (guards : Option CompatSpawner) (s : Slots) : Slots :=
  if guards.isSome then Guard.release (Guard.release (Guard.release s .executor) .timer) .reactor
  else s

/-- One `Builder` with every build made from it. -/
structure State where
  /-- The `Builder` has not been dropped. -/
  builder : Bool
  /-- `after_start` of the tokio `Builder`. -/
  afterStart : Option ℕ
  /-- Builds begun so far. -/
  builds : ℕ
  /-- The build in progress; `build` borrows the `Builder` mutably. -/
  building : Option ℕ
  build : ℕ → Build
  worker : ℕ → Worker
  /-- Every strong reference: its place and its target. -/
  refs : Finset (Place × Place)

/-- `Builder::new`. -/
def new : State where
  builder := true
  afterStart := none
  builds := 0
  building := none
  build _ := ⟨.absent, 0, none⟩
  worker _ := ⟨0, .absent, Slots.fresh, none⟩
  refs := ∅

/-- One step of the builder, of a thread, of the program or of a drop. -/
inductive Label where
  /-- `build` up to the call of tokio's `build`. -/
  | beginBuild
  /-- tokio's `build` creates the runtime. -/
  | tokioBuild
  /-- tokio's `build` fails. -/
  | tokioFail
  /-- The slot is filled. -/
  | writeSlot
  /-- `drop(lock)`. -/
  | unlock
  /-- `build` returns. -/
  | finish
  /-- The tokio runtime `k` starts thread `j`. -/
  | spawnThread (k j : ℕ)
  /-- The hook gets hold of the slot. -/
  | upgrade (j : ℕ)
  /-- The hook reads the slot under the read lock. -/
  | read (j : ℕ)
  /-- `set_guards`, and the hook returns. -/
  | setGuards (j : ℕ)
  /-- `on_thread_stop`. -/
  | threadStop (j : ℕ)
  | threadExit (j : ℕ)
  /-- The program obtains another clone of handle `k`. -/
  | clone (n k : ℕ)
  | release (n k : ℕ)
  | endRuntime (k : ℕ) (e : Ending)
  /-- The next drop of an ending runtime. -/
  | dropNext (k : ℕ)
  | dropBuilder
  deriving DecidableEq, Repr

/-- Change the build `k`. -/
def State.setStage (s : State) (k : ℕ) (stage : Stage) : State :=
  { s with build := Function.update s.build k { s.build k with stage := stage } }

/-- Change the thread `j`. -/
def State.setWorker (s : State) (j : ℕ) (t : Worker) : State :=
  { s with worker := Function.update s.worker j t }

/-- Add a strong reference. -/
def State.add (s : State) (p o : Place) : State := { s with refs := insert (p, o) s.refs }

/-- Drop a strong reference. -/
def State.drop (s : State) (p o : Place) : State :=
  { s with refs := Ownership.drop Place.root s.refs (p, o) }

@[simp] theorem add_build (s : State) (p o : Place) : (s.add p o).build = s.build := rfl
@[simp] theorem drop_build (s : State) (p o : Place) : (s.drop p o).build = s.build := rfl

/-- Replace the hook the `Builder` keeps. -/
def State.dropHook (s : State) : State :=
  match s.afterStart with
  | some c => { s.drop .builder (.closure c) with afterStart := none }
  | none => s

/-- A panic of the hook ends the thread and drops everything it holds. -/
def State.panicWorker (s : State) (j : ℕ) (p : Panic) : State :=
  let t := s.worker j
  let s := s.drop (.upgraded j) (.sender (s.build t.rt).hook)
  let s := match t.pc with
    | .reading sp => s.drop (.guards j) (.handle sp.inner)
    | _ => s
  (s.drop (.pool j) (.handle t.rt)).setWorker j { t with pc := .panicked p }

/-- Release one value of the ending runtime `k`. -/
def State.release (s : State) (k : ℕ) : Drop → State
  | .spawner => s.drop (.spawner k) (.handle k)
  | .runtime => s.drop (.runtime k) (.handle k)
  | .compatBg => s
  | .compatSender => s.drop (.compatSender k) (.sender k)

/-- No thread of the tokio runtime `k` is left. -/
def State.ThreadsGone (s : State) (k : ℕ) : Prop :=
  ∀ r ∈ s.refs, r.2 = .handle k → r.1.isPool = false

instance (s : State) (k : ℕ) : Decidable (s.ThreadsGone k) :=
  inferInstanceAs (Decidable (∀ r ∈ s.refs, r.2 = .handle k → r.1.isPool = false))

/-- The program gets a new clone `n` of a handle from a place that holds one. -/
def State.CanClone (s : State) (n k : ℕ) : Prop :=
  (∀ r ∈ s.refs, r.1 ≠ .user n) ∧ ∃ r ∈ s.refs, r.2 = .handle k ∧ r.1.root = true

instance (s : State) (n k : ℕ) : Decidable (s.CanClone n k) :=
  inferInstanceAs (Decidable (_ ∧ ∃ r ∈ s.refs, r.2 = .handle k ∧ r.1.root = true))

/-- Steps of `Builder::build`. -/
def State.buildStep (f : Flavor) (s : State) (k : ℕ) : Label → Option State
  | .tokioBuild =>
    match (s.build k).stage, s.afterStart with
    | .locked, some c =>
      some { (s.add (.runtime k) (.handle k)).add (.handle k) (.closure c) with
        build := Function.update s.build k { s.build k with stage := .tokio, hook := c } }
    | _, _ => none
  | .tokioFail =>
    if (s.build k).stage = .locked then
      some { (s.drop (.compatSender k) (.sender k)).setStage k .failed with building := none }
    else none
  | .writeSlot =>
    if (s.build k).stage = .tokio then
      some { s.add (.sender k) (.handle k) with
        build := Function.update s.build k
          { s.build k with stage := .written, slot := some ⟨k, k⟩ } }
    else none
  | .unlock => if (s.build k).stage = .written then some (s.setStage k .unlocked) else none
  | .finish =>
    if (s.build k).stage = .unlocked then
      let s := if f.keeps then s else s.drop (.compatSender k) (.sender k)
      some { s.setStage k .live with building := none }
    else none
  | _ => none

/-- Steps of the thread `j`, now `t`. -/
def State.workerStep (f : Flavor) (s : State) (j : ℕ) (t : Worker) : Label → Option State
  | .upgrade _ =>
    let c := (s.build t.rt).hook
    if t.pc = .started then
      if f.strong then some (s.setWorker j { t with pc := .upgraded })
      else if Alive s.refs (.sender c) then
        some ((s.add (.upgraded j) (.sender c)).setWorker j { t with pc := .upgraded })
      else some (s.panicWorker j upgradeFailed)
    else none
  | .read _ =>
    let c := (s.build t.rt).hook
    -- `read()` waits for the lock
    if t.pc = .upgraded ∧ (s.build c).stage.writeLocked = false then
      match (s.build c).slot with
      | some sp =>
        some ((s.add (.guards j) (.handle sp.inner)).setWorker j { t with pc := .reading sp })
      | none => some (s.panicWorker j (.assertion f.unset))
    else none
  | .setGuards _ =>
    let c := (s.build t.rt).hook
    match t.pc with
    | .reading sp =>
      match Startup.setGuards sp c t.guards t.slots with
      | .ok slots =>
        let s := if f.strong then s else s.drop (.upgraded j) (.sender c)
        some (s.setWorker j { t with pc := .running, slots := slots, guards := some sp })
      | .error p => some (s.panicWorker j p)
    | _ => none
  | .threadStop _ =>
    if t.pc = .running then
      let s := match t.guards with
        | some sp => s.drop (.guards j) (.handle sp.inner)
        | none => s
      let slots := unsetGuards t.guards t.slots
      some (s.setWorker j { t with pc := .stopping, slots := slots, guards := none })
    else none
  | .threadExit _ =>
    if t.pc = .stopping then
      some ((s.drop (.pool j) (.handle t.rt)).setWorker j { t with pc := .exited })
    else none
  | _ => none

/-- The effect of a step, or `none` while it is not enabled. The drop of a
tokio runtime completes only when all of its threads are gone. -/
def State.step (f : Flavor) (s : State) : Label → Option State
  | .beginBuild =>
    if s.builder = true ∧ s.building = none then
      let k := s.builds
      let s := (s.dropHook.add (.compatSender k) (.sender k)).add .builder (.closure k)
      let s := if f.strong then s.add (.closure k) (.sender k) else s
      some { s.setStage k .locked with afterStart := some k, builds := k + 1, building := some k }
    else none
  | .spawnThread k j =>
    if (s.worker j).pc = .absent ∧ (s.build k).stage.hasTokio = true then
      some ((s.add (.pool j) (.handle k)).setWorker j ⟨k, .started, Slots.fresh, none⟩)
    else none
  | .clone n k => if s.CanClone n k then some (s.add (.user n) (.handle k)) else none
  | .release n k =>
    if (.user n, .handle k) ∈ s.refs then some (s.drop (.user n) (.handle k)) else none
  | .endRuntime k e =>
    if (s.build k).stage = .live then
      (f.drops e).map fun ds =>
        let s := if .spawner ∈ ds then s.add (.spawner k) (.handle k) else s
        s.setStage k (.ending ds)
    else none
  | .dropNext k =>
    match (s.build k).stage with
    | .ending (d :: ds) =>
      if d = .runtime → s.ThreadsGone k then
        some ((s.release k d).setStage k (if ds = [] then .gone else .ending ds))
      else none
    | _ => none
  | .dropBuilder =>
    if s.builder = true ∧ s.building = none then some { s.dropHook with builder := false }
    else none
  | .upgrade j => s.workerStep f j (s.worker j) (.upgrade j)
  | .read j => s.workerStep f j (s.worker j) (.read j)
  | .setGuards j => s.workerStep f j (s.worker j) (.setGuards j)
  | .threadStop j => s.workerStep f j (s.worker j) (.threadStop j)
  | .threadExit j => s.workerStep f j (s.worker j) (.threadExit j)
  | e => s.building.bind fun k => s.buildStep f k e

/-- Everything that can happen, one constructor for each way to take a step. -/
inductive State.Steps (f : Flavor) (s : State) : Label → State → Prop where
  | beginBuild (hb : s.builder = true) (hn : s.building = none) :
    Steps f s .beginBuild
      (let u := (s.dropHook.add (.compatSender s.builds) (.sender s.builds)).add .builder
        (.closure s.builds)
      let u := if f.strong then u.add (.closure s.builds) (.sender s.builds) else u
      { u.setStage s.builds .locked with
        afterStart := some s.builds, builds := s.builds + 1, building := some s.builds })
  | tokioBuild {k c} (hk : s.building = some k) (hs : (s.build k).stage = .locked)
    (hc : s.afterStart = some c) :
    Steps f s .tokioBuild
      { (s.add (.runtime k) (.handle k)).add (.handle k) (.closure c) with
        build := Function.update s.build k { s.build k with stage := .tokio, hook := c } }
  | tokioFail {k} (hk : s.building = some k) (hs : (s.build k).stage = .locked) :
    Steps f s .tokioFail
      { (s.drop (.compatSender k) (.sender k)).setStage k .failed with building := none }
  | writeSlot {k} (hk : s.building = some k) (hs : (s.build k).stage = .tokio) :
    Steps f s .writeSlot
      { s.add (.sender k) (.handle k) with
        build := Function.update s.build k
          { s.build k with stage := .written, slot := some ⟨k, k⟩ } }
  | unlock {k} (hk : s.building = some k) (hs : (s.build k).stage = .written) :
    Steps f s .unlock (s.setStage k .unlocked)
  | finish {k} (hk : s.building = some k) (hs : (s.build k).stage = .unlocked) :
    Steps f s .finish
      (let u := if f.keeps then s else s.drop (.compatSender k) (.sender k)
      { u.setStage k .live with building := none })
  | spawnThread {k j} (hj : (s.worker j).pc = .absent) (hs : (s.build k).stage.hasTokio = true) :
    Steps f s (.spawnThread k j)
      ((s.add (.pool j) (.handle k)).setWorker j ⟨k, .started, Slots.fresh, none⟩)
  | upgradeStrong {j} (hf : f.strong = true) (hj : (s.worker j).pc = .started) :
    Steps f s (.upgrade j) (s.setWorker j { s.worker j with pc := .upgraded })
  | upgrade {j} (hf : f.strong = false) (hj : (s.worker j).pc = .started)
    (ha : Alive s.refs (.sender (s.build (s.worker j).rt).hook)) :
    Steps f s (.upgrade j)
      ((s.add (.upgraded j) (.sender (s.build (s.worker j).rt).hook)).setWorker j
        { s.worker j with pc := .upgraded })
  | upgradeFailed {j} (hf : f.strong = false) (hj : (s.worker j).pc = .started)
    (ha : ¬Alive s.refs (.sender (s.build (s.worker j).rt).hook)) :
    Steps f s (.upgrade j) (s.panicWorker j upgradeFailed)
  | read {j sp} (hj : (s.worker j).pc = .upgraded)
    (hl : (s.build (s.build (s.worker j).rt).hook).stage.writeLocked = false)
    (hs : (s.build (s.build (s.worker j).rt).hook).slot = some sp) :
    Steps f s (.read j)
      ((s.add (.guards j) (.handle sp.inner)).setWorker j { s.worker j with pc := .reading sp })
  | readUnset {j} (hj : (s.worker j).pc = .upgraded)
    (hl : (s.build (s.build (s.worker j).rt).hook).stage.writeLocked = false)
    (hs : (s.build (s.build (s.worker j).rt).hook).slot = none) :
    Steps f s (.read j) (s.panicWorker j (.assertion f.unset))
  | setGuards {j sp slots} (hj : (s.worker j).pc = .reading sp)
    (hg : Startup.setGuards sp (s.build (s.worker j).rt).hook (s.worker j).guards
      (s.worker j).slots = .ok slots) :
    Steps f s (.setGuards j)
      (let u := if f.strong then s
        else s.drop (.upgraded j) (.sender (s.build (s.worker j).rt).hook)
      u.setWorker j { s.worker j with pc := .running, slots := slots, guards := some sp })
  | setGuardsPanic {j sp p} (hj : (s.worker j).pc = .reading sp)
    (hg : Startup.setGuards sp (s.build (s.worker j).rt).hook (s.worker j).guards
      (s.worker j).slots = .error p) :
    Steps f s (.setGuards j) (s.panicWorker j p)
  | threadStop {j} (hj : (s.worker j).pc = .running) :
    Steps f s (.threadStop j)
      (let u := match (s.worker j).guards with
        | some sp => s.drop (.guards j) (.handle sp.inner)
        | none => s
      let slots := unsetGuards (s.worker j).guards (s.worker j).slots
      u.setWorker j { s.worker j with pc := .stopping, slots := slots, guards := none })
  | threadExit {j} (hj : (s.worker j).pc = .stopping) :
    Steps f s (.threadExit j)
      ((s.drop (.pool j) (.handle (s.worker j).rt)).setWorker j
        { s.worker j with pc := .exited })
  | clone {n k} (hc : s.CanClone n k) : Steps f s (.clone n k) (s.add (.user n) (.handle k))
  | release {n k} (hr : (.user n, .handle k) ∈ s.refs) :
    Steps f s (.release n k) (s.drop (.user n) (.handle k))
  | endRuntime {k e ds} (hs : (s.build k).stage = .live) (he : f.drops e = some ds) :
    Steps f s (.endRuntime k e)
      (let u := if .spawner ∈ ds then s.add (.spawner k) (.handle k) else s
      u.setStage k (.ending ds))
  | dropNext {k d ds} (hs : (s.build k).stage = .ending (d :: ds))
    (ht : d = .runtime → s.ThreadsGone k) :
    Steps f s (.dropNext k)
      ((s.release k d).setStage k (if ds = [] then .gone else .ending ds))
  | dropBuilder (hb : s.builder = true) (hn : s.building = none) :
    Steps f s .dropBuilder { s.dropHook with builder := false }

/-- The executable step takes only these steps. -/
theorem step_cases {f : Flavor} {s t : State} {e : Label} (h : s.step f e = some t) :
    s.Steps f e t := by
  cases e with
  | beginBuild =>
    obtain ⟨⟨hb, hn⟩, ⟨⟩⟩ := Option.ite_none_right_eq_some.mp h
    exact .beginBuild hb hn
  | tokioBuild =>
    obtain ⟨k, hk, h⟩ := Option.bind_eq_some_iff.mp h
    change (match (s.build k).stage, s.afterStart with | .locked, some c => _ | _, _ => _) = _ at h
    split at h
    next c hs hc =>
      cases h
      exact .tokioBuild hk hs hc
    · cases h
  | tokioFail =>
    obtain ⟨k, hk, h⟩ := Option.bind_eq_some_iff.mp h
    obtain ⟨hs, ⟨⟩⟩ := Option.ite_none_right_eq_some.mp h
    exact .tokioFail hk hs
  | writeSlot =>
    obtain ⟨k, hk, h⟩ := Option.bind_eq_some_iff.mp h
    obtain ⟨hs, ⟨⟩⟩ := Option.ite_none_right_eq_some.mp h
    exact .writeSlot hk hs
  | unlock =>
    obtain ⟨k, hk, h⟩ := Option.bind_eq_some_iff.mp h
    obtain ⟨hs, ⟨⟩⟩ := Option.ite_none_right_eq_some.mp h
    exact .unlock hk hs
  | finish =>
    obtain ⟨k, hk, h⟩ := Option.bind_eq_some_iff.mp h
    obtain ⟨hs, ⟨⟩⟩ := Option.ite_none_right_eq_some.mp h
    exact .finish hk hs
  | spawnThread k j =>
    obtain ⟨⟨hj, hs⟩, ⟨⟩⟩ := Option.ite_none_right_eq_some.mp h
    exact .spawnThread hj hs
  | upgrade j =>
    obtain ⟨hj, h⟩ := Option.ite_none_right_eq_some.mp h
    by_cases hf : f.strong = true
    · rw [if_pos hf] at h
      cases h
      exact .upgradeStrong hf hj
    · rw [if_neg hf] at h
      rw [Bool.not_eq_true] at hf
      split at h
      next ha =>
        cases h
        exact .upgrade hf hj ha
      next ha =>
        cases h
        exact .upgradeFailed hf hj ha
  | read j =>
    obtain ⟨⟨hj, hl⟩, h⟩ := Option.ite_none_right_eq_some.mp h
    split at h
    next sp hs =>
      cases h
      exact .read hj hl hs
    next hs =>
      cases h
      exact .readUnset hj hl hs
  | setGuards j =>
    simp only [State.step, State.workerStep] at h
    split at h
    next sp hj =>
      split at h
      next slots hg =>
        cases h
        exact .setGuards hj hg
      next p hg =>
        cases h
        exact .setGuardsPanic hj hg
    · cases h
  | threadStop j =>
    obtain ⟨hj, ⟨⟩⟩ := Option.ite_none_right_eq_some.mp h
    exact .threadStop hj
  | threadExit j =>
    obtain ⟨hj, ⟨⟩⟩ := Option.ite_none_right_eq_some.mp h
    exact .threadExit hj
  | clone n k =>
    obtain ⟨hc, ⟨⟩⟩ := Option.ite_none_right_eq_some.mp h
    exact .clone hc
  | release n k =>
    obtain ⟨hr, ⟨⟩⟩ := Option.ite_none_right_eq_some.mp h
    exact .release hr
  | endRuntime k e =>
    obtain ⟨hs, h⟩ := Option.ite_none_right_eq_some.mp h
    obtain ⟨ds, he, rfl⟩ := Option.map_eq_some_iff.mp h
    exact .endRuntime hs he
  | dropNext k =>
    simp only [State.step] at h
    split at h
    next d ds hs =>
      obtain ⟨ht, ⟨⟩⟩ := Option.ite_none_right_eq_some.mp h
      exact .dropNext hs ht
    · cases h
  | dropBuilder =>
    obtain ⟨⟨hb, hn⟩, ⟨⟩⟩ := Option.ite_none_right_eq_some.mp h
    exact .dropBuilder hb hn

end TokioCompat.Startup
