import TokioCompat.IdleHistory

/-!
# The functions that wait for idleness

Each of them is a short sequence of actions of one thread on its runtime:
spawn a root future, block on one, wait for idleness. All other threads of
the process interleave with every atomic step of it. Whatever happened on the
runtime before, none of these functions finishes waiting while a task that is
reachable from its root tasks through counted spawns is unresolved.
-/

namespace TokioCompat.Idle

open Channel Transition

variable {w : ℕ}

/-- What the calling thread does with the tracker, one action at a time. -/
inductive Action where
  /-- `spawn_std`: reserve and hand the tracked future to the executor. -/
  | spawn
  /-- `block_on_std`: reserve and drive the tracked future until `with` returns. -/
  | blockOn
  /-- `idle_rx.idle()` driven to its end. -/
  | idle
  deriving DecidableEq, Repr

/-- The functions that return only when the runtime is idle. -/
inductive WaitFn where
  /-- `current_thread::Runtime::run` -/
  | runtimeRun
  /-- `current_thread::block_on_all_std`, also `block_on_all` -/
  | blockOnAllStd
  /-- `current_thread::run` -/
  | run
  /-- `current_thread::run_std` -/
  | runStd
  /-- `Runtime::shutdown_on_idle` of the thread pool -/
  | shutdownOnIdle
  /-- `run_std` of the thread pool, also `run` -/
  | threadpoolRunStd
  deriving DecidableEq, Repr

/-- The actions of each function on the runtime it creates or is given. -/
def WaitFn.actions : WaitFn → List Action
  | .runtimeRun => [.idle]
  | .blockOnAllStd => [.blockOn, .idle]
  | .run => [.spawn, .idle]
  | .runStd => [.blockOn, .idle]
  | .shutdownOnIdle => [.idle]
  | .threadpoolRunStd => [.spawn, .idle]

/-- Position of the calling thread inside its current action. -/
inductive Pc where
  /-- Before the first step of the next action. -/
  | ready
  /-- `spawn_std` reserved track `i`; the hand-off comes next. -/
  | spawning (i : ℕ)
  /-- `block_on_std` reserved track `i`; driving it comes next. -/
  | starting (i : ℕ)
  /-- Inside `block_on` until `with` of track `i` returns. -/
  | blocked (i : ℕ)
  /-- Inside `idle`. -/
  | waiting
  deriving DecidableEq, Repr

/-- The calling thread together with the tracker of its runtime. -/
structure Caller (w : ℕ) where
  /-- Shared state of the tracker. -/
  idle : State w
  pc : Pc
  /-- The actions after the current one. -/
  todo : List Action
  /-- Tracks of the futures this thread itself spawned or blocked on. -/
  roots : List ℕ

/-- The tracker step the calling thread takes next, if it is at one. -/
def Caller.label (c : Caller w) : Option Label :=
  match c.pc, c.todo with
  | .ready, .spawn :: _ | .ready, .blockOn :: _ => some (.reserve none)
  | .ready, .idle :: _ => some .callIdle
  | .ready, [] => none
  | .spawning i, _ | .starting i, _ => some (.move i .handOff)
  | .blocked _, _ => none
  | .waiting, _ => some (if c.idle.waiter = .receiving then .recv else .load)

/-- The calling thread after its step led to the tracker state `s`. -/
def Caller.after (c : Caller w) (s : State w) : Caller w :=
  let n := c.idle.tracks.length
  match c.pc, c.todo with
  | .ready, .spawn :: rest => ⟨s, .spawning n, rest, c.roots ++ [n]⟩
  | .ready, .blockOn :: rest => ⟨s, .starting n, rest, c.roots ++ [n]⟩
  | .ready, .idle :: rest => ⟨s, .waiting, rest, c.roots⟩
  | .ready, [] => ⟨s, .ready, [], c.roots⟩
  | .spawning _, todo => ⟨s, .ready, todo, c.roots⟩
  | .starting i, todo => ⟨s, .blocked i, todo, c.roots⟩
  | .blocked i, todo => ⟨s, .blocked i, todo, c.roots⟩
  | .waiting, todo => ⟨s, if s.waiter = .outside then .ready else .waiting, todo, c.roots⟩

/-- Labels only the holder of the runtime may use. -/
def Label.foreign : Label → Bool
  | .callIdle | .load | .recv | .cancel | .dropOwn | .dropRx => false
  | _ => true

/-- A step of the calling thread or of any other one. -/
inductive CallerLabel where
  | caller
  | other (e : Label)
  deriving DecidableEq, Repr

/-- `block_on` returns once `with` has; a lost future would unwind instead. -/
def Caller.step (c : Caller w) : CallerLabel → Option (Caller w)
  | .other e =>
    if e.foreign = true then (c.idle.step e).map fun s => { c with idle := s } else none
  | .caller =>
    match c.label with
    | some e => (c.idle.step e).map c.after
    | none =>
      match c.pc with
      | .blocked i =>
        if c.idle.phaseIs i (· == .finished) = true then some { c with pc := .ready } else none
      | _ => none

/-- The calling thread before its first action, on a runtime in any state. -/
def Caller.start (s : State w) (actions : List Action) : Caller w := ⟨s, .ready, actions, []⟩

/-- The tracker labels of one step of the composed system. -/
def Caller.emit (c : Caller w) : CallerLabel → List Label
  | .other e => [e]
  | .caller => c.label.toList

@[simp] theorem after_idle (c : Caller w) (s : State w) : (c.after s).idle = s := by
  unfold Caller.after
  split <;> rfl

/-- Each step of the composed system is at most one step of the tracker. -/
theorem caller_step_idle {c d : Caller w} {l : CallerLabel} (h : c.step l = some d) :
    run State.step c.idle (c.emit l) = some d.idle := by
  cases l with
  | other e =>
    simp only [Caller.step] at h
    split at h
    · obtain ⟨s, hs, rfl⟩ := Option.map_eq_some_iff.mp h
      rw [Caller.emit, run_single]
      exact hs
    · cases h
  | caller =>
    simp only [Caller.step] at h
    cases hl : c.label with
    | some e =>
      rw [hl] at h
      obtain ⟨s, hs, rfl⟩ := Option.map_eq_some_iff.mp h
      rw [Caller.emit, hl, Option.toList_some, run_single]
      rw [after_idle]
      exact hs
    | none =>
      rw [hl] at h
      dsimp only at h
      split at h
      · split at h
        · cases h
          rw [Caller.emit, hl]
          rfl
        · cases h
      · cases h

/-- The composed system simulates the tracker step by step. -/
def callerSimulation : Simulation (Caller.step (w := w)) (State.step (w := w)) where
  good _ := True
  abs := Caller.idle
  emit := Caller.emit
  step_good _ _ _ _ _ := trivial
  step_abs _ _ _ _ h := caller_step_idle h

/-- The table of reservations only grows. -/
theorem step_length_le {s t : State w} {e : Label} (h : s.step e = some t) :
    s.tracks.length ≤ t.tracks.length := by
  rcases step_tracks h with ⟨parent, _, _, ht⟩ | ⟨i, c, p, _, _, ht⟩ | ⟨_, _, ht⟩ <;>
    simp [ht]

/-- A step of another thread leaves the program alone. -/
theorem caller_step_other {c d : Caller w} {e : Label} (h : c.step (.other e) = some d) :
    ∃ s, c.idle.step e = some s ∧ d = { c with idle := s } := by
  simp only [Caller.step] at h
  split at h
  · obtain ⟨s, hs, rfl⟩ := Option.map_eq_some_iff.mp h
    exact ⟨s, hs, rfl⟩
  · cases h

/-- Every step of the calling thread: it starts a tracked future, starts to
wait, moves on inside an action, or ends the wait on a zero load. -/
theorem caller_step_cases {c d : Caller w} (h : c.step .caller = some d) :
    (∃ a, c.pc = .ready ∧ a ≠ .idle ∧ c.todo = a :: d.todo ∧
        d.roots = c.roots ++ [c.idle.tracks.length] ∧
        d.idle.tracks.length = c.idle.tracks.length + 1) ∨
      (c.pc = .ready ∧ c.todo = .idle :: d.todo ∧ d.pc = .waiting ∧ d.roots = c.roots ∧
        c.idle.tracks.length ≤ d.idle.tracks.length) ∨
      (c.pc ≠ .ready ∧ (c.pc = .waiting → d.pc = .waiting) ∧ d.todo = c.todo ∧
        d.roots = c.roots ∧ c.idle.tracks.length ≤ d.idle.tracks.length) ∨
      (c.pc = .waiting ∧ d.pc = .ready ∧ c.idle.spawned = 0 ∧ d.todo = c.todo ∧
        d.roots = c.roots ∧ c.idle.tracks.length ≤ d.idle.tracks.length) := by
  obtain ⟨idle, pc, todo, roots⟩ := c
  simp only [Caller.step] at h
  cases pc with
  | ready =>
    cases todo with
    | nil => simp [Caller.label] at h
    | cons a rest =>
      cases a with
      | spawn | blockOn =>
        obtain ⟨s, hs, rfl⟩ := Option.map_eq_some_iff.mp h
        obtain ⟨_, _, rfl⟩ := step_reserve.mp hs
        exact Or.inl ⟨_, rfl, by decide, rfl, rfl, List.length_append⟩
      | idle =>
        obtain ⟨s, hs, rfl⟩ := Option.map_eq_some_iff.mp h
        exact Or.inr (Or.inl ⟨rfl, rfl, rfl, rfl, step_length_le hs⟩)
  | spawning i | starting i =>
    obtain ⟨s, hs, rfl⟩ := Option.map_eq_some_iff.mp h
    exact Or.inr (Or.inr (Or.inl ⟨nofun, nofun, rfl, rfl, step_length_le hs⟩))
  | blocked i =>
    simp only [Caller.label] at h
    split at h
    · cases h
      exact Or.inr (Or.inr (Or.inl ⟨nofun, nofun, rfl, rfl, le_rfl⟩))
    · cases h
  | waiting =>
    obtain ⟨s, hs, rfl⟩ := Option.map_eq_some_iff.mp h
    refine Or.inr (Or.inr ?_)
    by_cases ho : s.waiter = .outside
    · right
      have hr : idle.waiter ≠ .receiving := by
        intro hr
        rw [if_pos hr] at hs
        obtain ⟨_, ⟨_, _, rfl⟩ | ⟨_, _, rfl⟩⟩ := step_recv.mp hs <;> cases ho
      rw [if_neg hr] at hs
      obtain ⟨_, rfl⟩ := step_load.mp hs
      refine ⟨rfl, if_pos ho, ?_, rfl, rfl, le_rfl⟩
      by_contra hz
      dsimp only at ho hz
      rw [if_pos hz] at ho
      cases ho
    · left
      exact ⟨nofun, fun _ => if_neg ho, rfl, rfl, step_length_le hs⟩

/-- A zero load on the way: the prefix of the tracker run up to it, and the
bounds that put the given tracks before it. -/
def Caller.ZeroLoad (c0 : Caller w) (cs : List CallerLabel) (roots : List ℕ) : Prop :=
  ∃ xs ys u, callerSimulation.emits c0 cs = xs ++ ys ∧ Visits Caller.step c0 cs u ∧
    run State.step c0.idle xs = some u.idle ∧ u.idle.spawned = 0 ∧
    c0.idle.tracks.length ≤ u.idle.tracks.length ∧ ∀ r ∈ roots, r < u.idle.tracks.length

/-- What holds of a program whose last action is the wait: its tracks are in
the table, and it ends only with a zero load behind it. -/
structure Caller.Inv (c0 : Caller w) (cs : List CallerLabel) (c : Caller w) : Prop where
  grows : c0.idle.tracks.length ≤ c.idle.tracks.length
  roots_lt : ∀ r ∈ c.roots, r < c.idle.tracks.length
  ends : c.todo.getLast? = some .idle ∨
    (c.todo = [] ∧ (c.pc = .waiting ∨ (c.pc = .ready ∧ c0.ZeroLoad cs c.roots)))

theorem getLast_tail {a : Action} {rest : List Action} (h : (a :: rest).getLast? = some .idle)
    (ha : a ≠ .idle) : rest.getLast? = some .idle := by
  cases rest with
  | nil => exact absurd (Option.some.inj h) ha
  | cons b rest => rwa [List.getLast?_cons_cons] at h

theorem zeroLoad_concat {c0 c d : Caller w} {cs : List CallerLabel} {l : CallerLabel}
    {roots : List ℕ} (h : run Caller.step c0 cs = some c) (hl : c.step l = some d)
    (hz : c0.ZeroLoad cs roots) : c0.ZeroLoad (cs ++ [l]) roots := by
  obtain ⟨xs, ys, u, he, hv, hr, hs, hlen, hroots⟩ := hz
  refine ⟨xs, ys ++ callerSimulation.emit c l, u, ?_, visits_append hv _, hr, hs, hlen, hroots⟩
  rw [callerSimulation.emits_concat h hl, he, List.append_assoc]

/-- One step of the composed system keeps the invariant of the program. -/
theorem caller_step_inv {c0 c d : Caller w} {cs : List CallerLabel} {l : CallerLabel}
    (h : run Caller.step c0 cs = some c) (hi : Caller.Inv c0 cs c) (hl : c.step l = some d) :
    Caller.Inv c0 (cs ++ [l]) d := by
  have hgrow := hi.grows
  cases l with
  | other e =>
    obtain ⟨s, hs, rfl⟩ := caller_step_other hl
    have hlen := step_length_le hs
    refine ⟨hgrow.trans hlen, fun r hr => (hi.roots_lt r hr).trans_le hlen, ?_⟩
    rcases hi.ends with he | ⟨ht, hp | ⟨hp, hz⟩⟩
    · exact Or.inl he
    · exact Or.inr ⟨ht, Or.inl hp⟩
    · exact Or.inr ⟨ht, Or.inr ⟨hp, zeroLoad_concat h hl hz⟩⟩
  | caller =>
    rcases caller_step_cases hl with ⟨a, hp, ha, ht, hr, hlen⟩ | ⟨hp, ht, hd, hr, hlen⟩ |
      ⟨hp, hw, ht, hr, hlen⟩ | ⟨hp, hd, hz, ht, hr, hlen⟩
    · -- a tracked future starts: its index is the old length of the table
      refine ⟨by omega, ?_, ?_⟩
      · intro r hmem
        rw [hr, List.mem_append, List.mem_singleton] at hmem
        rcases hmem with hmem | rfl
        · have := hi.roots_lt r hmem
          omega
        · omega
      · rcases hi.ends with he | ⟨he, _⟩
        · rw [ht] at he
          exact Or.inl (getLast_tail he ha)
        · rw [ht] at he
          cases he
    · -- the wait starts; whatever follows it in the program still ends with a wait
      refine ⟨hgrow.trans hlen, fun r hm => (hi.roots_lt r (hr ▸ hm)).trans_le hlen, ?_⟩
      rcases hi.ends with he | ⟨he, _⟩
      · rw [ht] at he
        cases htd : d.todo with
        | nil => exact Or.inr ⟨rfl, Or.inl hd⟩
        | cons b rest => rw [htd, List.getLast?_cons_cons] at he; exact Or.inl he
      · rw [ht] at he
        cases he
    · refine ⟨hgrow.trans hlen, fun r hm => (hi.roots_lt r (hr ▸ hm)).trans_le hlen, ?_⟩
      rw [ht]
      rcases hi.ends with he | ⟨he, hpc | ⟨hpc, _⟩⟩
      · exact Or.inl he
      · exact Or.inr ⟨he, Or.inl (hw hpc)⟩
      · exact absurd hpc hp
    · -- the zero load that ends the wait
      refine ⟨hgrow.trans hlen, fun r hm => (hi.roots_lt r (hr ▸ hm)).trans_le hlen, ?_⟩
      rw [ht, hr]
      rcases hi.ends with he | ⟨he, _⟩
      · exact Or.inl he
      · refine Or.inr ⟨he, Or.inr ⟨hd, callerSimulation.emits c0 cs, _, c,
          callerSimulation.emits_concat h hl, visits_append (visits_last h) _, ?_, hz, hgrow,
          hi.roots_lt⟩⟩
        exact callerSimulation.run_abs trivial h

/-- The invariant holds along every run of a program that ends with the wait. -/
theorem caller_run_inv {s : State w} {actions : List Action}
    (ha : actions.getLast? = some .idle) {cs : List CallerLabel} {c : Caller w}
    (h : run Caller.step (.start s actions) cs = some c) :
    Caller.Inv (.start s actions) cs c :=
  run_history (P := fun cs c => Caller.Inv (.start s actions) cs c)
    ⟨le_rfl, fun _ hr => (List.not_mem_nil hr).elim, Or.inl ha⟩
    (fun _ _ _ _ hr hi hl => caller_step_inv hr hi hl) h

/-- Each of the functions ends with the wait. -/
theorem actions_getLast (f : WaitFn) : f.actions.getLast? = some .idle := by cases f <;> rfl

/-- Fewer reservations are outstanding than the counter has values. -/
def State.Fits (s : State w) : Prop := s.phases Phase.outstanding < 2 ^ w

instance (s : State w) : Decidable s.Fits :=
  inferInstanceAs (Decidable (s.phases Phase.outstanding < 2 ^ w))

/-- A decrement belongs to an outstanding reservation, so it never sees zero. -/
theorem fetchSub_spawned_ne {es : List Label} {s t : State w} {i : ℕ}
    (h : run State.step (new w) es = some s) (hw : s.Fits)
    (hs : s.step (.fetchSub i) = some t) : s.spawned ≠ 0 := by
  obtain ⟨c, hc, hp, _⟩ := step_fetchSub.mp hs
  have hpos : 0 < s.phases Phase.outstanding :=
    phases_pos (i := i) (by rw [phaseIs_of_tracks hc, hp]; rfl)
  rw [ne_eq, spawned_zero_iff (run_inv h) hw]
  omega

/-- The load that lets `idle` return finds every earlier reservation resolved
and decremented, and no decrement sees zero; hence none of the waiting
functions finishes, from any earlier history of its runtime, before every task
reachable through counted spawns from its roots and from the tasks it found on
the runtime has resolved. -/
theorem idle_never_early (w : ℕ) :
    (∀ (es : List Label) (s : State w), run State.step (new w) es = some s → s.Fits →
      (∀ t, s.step .load = some t → t.waiter = .outside →
        ∀ i < s.tracks.length, .move i .resolve ∈ es ∧ .fetchSub i ∈ es) ∧
      ∀ i t, s.step (.fetchSub i) = some t → s.spawned ≠ 0) ∧
    ∀ (f : WaitFn) (es : List Label) (s : State w) (cs : List CallerLabel) (c : Caller w),
      run State.step (new w) es = some s →
      run Caller.step (.start s f.actions) cs = some c →
      (∀ u, Visits Caller.step (.start s f.actions) cs u → u.idle.Fits) →
      c.pc = .ready → c.todo = [] →
      ∀ i j, i < s.tracks.length ∨ i ∈ c.roots → c.idle.Descends i j →
        .move j .resolve ∈ es ++ callerSimulation.emits (.start s f.actions) cs ∧
          .fetchSub j ∈ es ++ callerSimulation.emits (.start s f.actions) cs := by
  refine ⟨fun es s h hw => ⟨?_, fun i t hs => fetchSub_spawned_ne h hw hs⟩, ?_⟩
  · intro t ht ho i hi
    obtain ⟨_, rfl⟩ := step_load.mp ht
    have hz : s.spawned = 0 := by
      by_contra hz
      dsimp only at ho
      rw [if_pos hz] at ho
      cases ho
    exact (zero_load_certifies h hw hz (show run State.step s [] = some s from rfl) hi .refl).2
  · intro f es s cs c h hc hfit hp ht i j hij hd
    obtain ⟨xs, ys, u, he, hv, hr, hz, hlen, hroots⟩ : Caller.ZeroLoad (.start s f.actions) cs
        c.roots := by
      rcases (caller_run_inv (actions_getLast f) hc).ends with hl | ⟨_, hpc | ⟨_, hz⟩⟩
      · rw [ht] at hl
        cases hl
      · rw [hp] at hpc
        cases hpc
      · exact hz
    have hu : run State.step (new w) (es ++ xs) = some u.idle := by
      rw [run_append, h]
      exact hr
    have hy : run State.step u.idle ys = some c.idle := by
      have hall := callerSimulation.run_abs trivial hc
      rw [he, run_append] at hall
      change (run State.step s xs).bind _ = _ at hall
      rwa [show run State.step s xs = some u.idle from hr] at hall
    have hi : i < u.idle.tracks.length := hij.elim (fun hs => hs.trans_le hlen) (hroots i)
    obtain ⟨_, h1, h2⟩ := zero_load_certifies hu (hfit u hv) hz hy hi hd
    rw [he, ← List.append_assoc]
    exact ⟨List.mem_append_left _ h1, List.mem_append_left _ h2⟩

/-- On 64 bits: `current_thread::run` of one future that resolves. The only
reservation is its root, and the run up to the zero load resolves it. -/
theorem idle_never_early_run :
    ∃ (cs : List CallerLabel) (c : Caller 64),
      run Caller.step (.start (new 64) WaitFn.run.actions) cs = some c ∧ c.roots = [0] ∧
        .move 0 .resolve ∈ [] ++ callerSimulation.emits (.start (new 64) WaitFn.run.actions) cs := by
  refine ⟨[.caller, .caller, .other (.move 0 .poll), .other (.move 0 .resolve),
    .other (.fetchSub 0), .caller, .other (.send 0), .caller], _, rfl, rfl, ?_⟩
  refine ((idle_never_early 64).2 .run [] (new 64) _ _ rfl rfl ?_ rfl rfl 0 0 (Or.inr (by decide))
    .refl).1
  intro u hu
  exact of_decide_eq_true (always_visits (p := fun u => decide u.idle.Fits) (by decide) hu)

end TokioCompat.Idle
