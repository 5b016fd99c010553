import TokioCompat.World

/-!
# Reservations that are never given back

`Track` has no destructor: the count falls only in `Track::with`, after the
future has resolved. A tracked future that panics or is dropped, and a call
that panics between its reservation and its hand-off, leave the count raised
for good. These are the only ways in which the count can differ from the
number of live tracked tasks.
-/

namespace TokioCompat.World

open Context Spawn Transition

variable {w : ℕ}

/-- The next set-up line of the call panics. -/
def fails (c : Call) (s : Slots) : Bool := c.todo.head?.any fun g => (g.acquire c.rt s).1.isSome

/-- The step drops a `Track` that has not been decremented: set-up panics after
its reservation, a tracked future panics or is dropped, or `spawn_local` panics
on the future it was to queue. -/
def State.leaks (s : State w) : Label → Bool
  | .setup t _ => (s.threads[t]?).any fun x => x.top.any fun c =>
    c.track.isSome && fails c x.ctx.slots
  | .unwind t => (s.threads[t]?).any fun x => (s.polling x).any fun p => (track p.2.fut).isSome
  | .dropTask k => (s.tasks[k]?).any fun y => (track y.fut).isSome
  | .exec t => (s.threads[t]?).any fun x => x.call.any fun c =>
    match c.code with
    | .handOff q f _ => (track f).isSome && (q.queue x.ctx.slots).isNone
    | _ => false
  | _ => false

/-- The count of every runtime is the number of its live tracked tasks, and where
there is none `Rx::idle` returns at its first load. -/
def State.Exact (s : State w) : Prop :=
  ∀ r, (s.idle r).spawned.toNat = (s.idle r).phases Idle.Phase.live ∧
    ((s.idle r).phases Idle.Phase.live = 0 → (s.idle r).own = true →
      (s.idle r).waiter = .outside →
      ∃ i, run Idle.State.step (s.idle r) [.callIdle, .load] = some i ∧ i.waiter = .outside)

/-- With a count of zero, `Rx::idle` returns at its first load. -/
theorem idle_returns {s : Idle.State w} (h : s.spawned = 0) (ho : s.own = true)
    (hw : s.waiter = .outside) :
    ∃ i, run Idle.State.step s [.callIdle, .load] = some i ∧ i.waiter = .outside := by
  have h1 : s.step .callIdle = some { s with waiter := .checking } :=
    Idle.step_callIdle.mpr ⟨ho, hw, rfl⟩
  have h2 : Idle.State.step { s with waiter := .checking } .load =
      some { s with waiter := .outside } :=
    Idle.step_load.mpr ⟨rfl, by simp [h]⟩
  exact ⟨_, run_cons.mpr ⟨_, h1, run_cons.mpr ⟨_, h2, rfl⟩⟩, rfl⟩

/-- A set-up line that panics drops the reservation made before it. -/
theorem setupEffect_of_fails {c : Call} {s : Slots} {parent : Option ℕ} {n : ℕ}
    (ht : c.track = some n) (hf : fails c s = true) :
    setupEffect c s parent = some (.lose n .abandoned) := by
  obtain ⟨g, hg, hp⟩ := (Option.any_eq_true _ _).mp hf
  obtain ⟨p, hp⟩ := Option.isSome_iff_exists.mp hp
  obtain ⟨gs, hn⟩ := List.head?_eq_some_iff.mp hg
  simp [setupEffect, hn, hp, ht]

/-- A leaking step loses a reservation. -/
theorem effect_of_leaks {s : State w} {e : Label} (h : s.leaks e = true) :
    ∃ r i l, s.effect e = some (r, .lose i l) := by
  cases e with
  | setup t u =>
    obtain ⟨x, hx, h⟩ := (Option.any_eq_true _ _).mp h
    obtain ⟨c, hc, h⟩ := (Option.any_eq_true _ _).mp h
    obtain ⟨ht, hf⟩ := Bool.and_eq_true_iff.mp h
    obtain ⟨n, ht⟩ := Option.isSome_iff_exists.mp ht
    refine ⟨c.rt.idle, n, .abandoned, ?_⟩
    simp [State.effect, hx, hc, setupEffect_of_fails ht hf]
  | unwind t =>
    obtain ⟨x, hx, h⟩ := (Option.any_eq_true _ _).mp h
    obtain ⟨⟨k, y⟩, hp, h⟩ := (Option.any_eq_true _ _).mp h
    obtain ⟨n, hn⟩ := Option.isSome_iff_exists.mp h
    exact ⟨n.idle, n.index, .panicked, by simp [State.effect, onTrack, hx, hp, hn]⟩
  | dropTask k =>
    obtain ⟨y, hy, h⟩ := (Option.any_eq_true _ _).mp h
    obtain ⟨n, hn⟩ := Option.isSome_iff_exists.mp h
    exact ⟨n.idle, n.index, .dropped, by simp [State.effect, onTrack, hy, hn]⟩
  | exec t =>
    obtain ⟨x, hx, h⟩ := (Option.any_eq_true _ _).mp h
    obtain ⟨c, hc, h⟩ := (Option.any_eq_true _ _).mp h
    split at h
    next q f k hk =>
      obtain ⟨hn, hq⟩ := Bool.and_eq_true_iff.mp h
      obtain ⟨n, hn⟩ := Option.isSome_iff_exists.mp hn
      refine ⟨n.idle, n.index, .abandoned, ?_⟩
      simp [State.effect, hx, hc, hk, hn, Option.isNone_iff_eq_none.mp hq]
    next => cases h
  | _ => cases h

/-- The leaking steps are those that lose a reservation. -/
theorem leaks_iff {s t : State w} {e : Label} (h : s.step e = some t) :
    s.leaks e = true ↔ ∃ r i l, s.effect e = some (r, .lose i l) := by
  refine ⟨effect_of_leaks, fun ⟨r, i, l, he⟩ => ?_⟩
  generalize hl : Idle.Label.lose i l = lab at he
  cases effect_cases he with
  | env =>
    subst hl
    obtain ⟨u, hu, _⟩ := step_cases h
    cases (next_env hu).1
  | setup hx hc hs =>
    subst hl
    obtain ⟨g, gs, hn, ⟨p, n, hp, ht, _⟩ | ⟨_, ⟨_, ⟨⟩⟩ | ⟨_, ⟨_, _, ⟨⟩⟩ | ⟨⟨⟩⟩⟩⟩⟩ := setupEffect_cases hs
    simp [State.leaks, hx, hc, fails, hn, hp, ht]
  | @polled e _ _ _ _ _ _ ho hx hp hn =>
    cases e <;> cases ho <;> cases hl
    simp [State.leaks, hx, hp, hn]
  | dropTask hy hn => simp [State.leaks, hy, hn]
  | abandon hx hc hk hn hq => simp [State.leaks, hx, hc, hk, hn, hq]
  | _ => cases hl

/-- A leaking step leaves some count above the number of live tasks. -/
theorem step_leaks {s t : State w} {e : Label} (h : s.step e = some t) (hl : s.leaks e = true) :
    ∃ r, (t.idle r).spawned = (s.idle r).spawned ∧
      (t.idle r).phases Idle.Phase.live + 1 = (s.idle r).phases Idle.Phase.live := by
  obtain ⟨r, i, l, he⟩ := (leaks_iff h).mp hl
  have ho := step_operations h r
  simp only [State.operations, he, if_true, run_single] at ho
  exact ⟨r, Idle.step_lose_live ho⟩

/-- Every other step keeps the number of lost reservations. -/
theorem step_not_leaks {s t : State w} {e : Label} (h : s.step e = some t)
    (hl : s.leaks e = false) (r : ℕ) :
    (t.idle r).phases (· == .lost) = (s.idle r).phases (· == .lost) := by
  have hn : ∀ k l i j, s.effect e = some (k, l) → l ≠ .lose i j := by
    rintro k l i j he rfl
    rw [(leaks_iff h).mpr ⟨k, i, j, he⟩] at hl
    cases hl
  obtain ⟨u, hu, ⟨_, rfl⟩ | ⟨k, l, i, he, hi, rfl⟩⟩ := step_cases h
  · rw [next_idle hu]
  · by_cases hr : r = k
    · subst hr
      rw [setIdle_self]
      exact Idle.step_lost_eq hi fun j p => hn r l j p he
    · rw [setIdle_of_ne u i hr, next_idle hu]

/-- A run without leaks loses nothing. -/
theorem run_lost {es : List Label} {s : State w} (h : run State.step (start w) es = some s)
    (hl : ∀ v e, Takes State.step (start w) es v e → v.leaks e = false) (r : ℕ) :
    (s.idle r).phases (· == .lost) = 0 := by
  revert hl
  refine run_history (P := fun es s => (∀ v e, Takes State.step (start w) es v e →
    v.leaks e = false) → (s.idle r).phases (· == .lost) = 0) (fun _ => rfl) ?_ h
  intro es t e u ht ih hu hl
  rw [step_not_leaks hu (hl t e (takes_last e ht)) r]
  exact ih fun v f hv => hl v f (takes_append hv [e])

/-- A state reached without leaks is exact. -/
theorem exact_of_run {es : List Label} {s : State w} (h : run State.step (start w) es = some s)
    (hl : ∀ v e, Takes State.step (start w) es v e → v.leaks e = false) : s.Exact := by
  intro r
  have hi := idle_inv h r
  have hz := run_lost h hl r
  have ho := Idle.outstanding_lt hi (by rw [hz]; exact Nat.two_pow_pos _)
  have hs : (s.idle r).spawned.toNat = (s.idle r).phases Idle.Phase.live := by
    rw [Idle.spawned_toNat hi ho, Idle.outstanding_eq, hz, Nat.add_zero]
  refine ⟨hs, fun h0 hown hw => idle_returns ?_ hown hw⟩
  rw [h0] at hs
  exact BitVec.eq_of_toNat_eq hs

/-- In every run of the process, the count of every runtime is at all times the
number of its live tracked tasks exactly if the run takes no leaking step. -/
theorem count_exact_iff {es : List Label} {s : State w}
    (h : run State.step (start w) es = some s) :
    (∀ v, Visits State.step (start w) es v → v.Exact) ↔
      ∀ v e, Takes State.step (start w) es v e → v.leaks e = false := by
  constructor
  · rintro hv v e ⟨xs, ys, rfl, hx⟩
    by_contra hl
    rw [run_append, hx, Option.bind_some] at h
    obtain ⟨t, ht, _⟩ := run_cons.mp h
    obtain ⟨r, hs, hlive⟩ := step_leaks ht (by simpa using hl)
    have h1 := (hv v ⟨xs, e :: ys, rfl, hx⟩ r).1
    have h2 := (hv t ⟨xs ++ [e], ys, by simp, run_concat.mpr ⟨v, hx, ht⟩⟩ r).1
    rw [hs] at h2
    omega
  · rintro hl v ⟨xs, ys, rfl, hx⟩
    exact exact_of_run hx fun u e hu => hl u e (takes_append hu ys)

/-- A task spawned on a thread pool runs to its end on a worker. -/
theorem count_exact_run :
    ∃ u, run State.step (start 64) [.build .threadPool, .thread (.worker 0),
        .thread (.program none none none false false), .spawn 1 .poolSpawn 0 0, .exec 1, .exec 1,
        .exec 1, .poll 0 0, .ready 0, .fetchSub 0, .send 0, .finishPoll 0] = some u ∧
      ((∀ v, Visits State.step (start 64) [.build .threadPool, .thread (.worker 0),
          .thread (.program none none none false false), .spawn 1 .poolSpawn 0 0, .exec 1, .exec 1,
          .exec 1, .poll 0 0, .ready 0, .fetchSub 0, .send 0, .finishPoll 0] v → v.Exact) ↔
        ∀ v e, Takes State.step (start 64) [.build .threadPool, .thread (.worker 0),
          .thread (.program none none none false false), .spawn 1 .poolSpawn 0 0, .exec 1, .exec 1,
          .exec 1, .poll 0 0, .ready 0, .fetchSub 0, .send 0, .finishPoll 0] v e →
          v.leaks e = false) :=
  ⟨_, rfl, @count_exact_iff 64 [.build .threadPool, .thread (.worker 0),
    .thread (.program none none none false false), .spawn 1 .poolSpawn 0 0, .exec 1, .exec 1,
    .exec 1, .poll 0 0, .ready 0, .fetchSub 0, .send 0, .finishPoll 0] _ rfl⟩

/-- A thread-pool `block_on` on a thread that has a tokio 0.1 timer: the set-up
panics at its third line, after the reservation. -/
theorem count_not_exact :
    ∃ u, run State.step (start 64) [.build .threadPool,
        .thread (.program none (some 0) none false false), .call 0 .poolBlockOn 0, .setup 0 0,
        .setup 0 0, .setup 0 0] = some u ∧
      (u.idle 0).spawned = 1 ∧ (u.idle 0).phases Idle.Phase.live = 0 ∧ ¬ u.Exact :=
  ⟨_, rfl, rfl, rfl, fun h => Nat.one_ne_zero (h 0).1⟩

/-! ### How far the count is off -/

/-- The step leaks a reservation of runtime `r`. -/
def State.leaksOn (r : ℕ) (s : State w) (e : Label) : Bool :=
  s.leaks e && (s.effect e).any fun o => o.1 == r

/-- A step loses one reservation of `r` if it leaks on `r`, and none otherwise. -/
theorem step_leaked {s t : State w} {e : Label} (h : s.step e = some t) (r : ℕ) :
    (t.idle r).phases (· == .lost) = (s.idle r).phases (· == .lost) + (s.leaksOn r e).toNat := by
  by_cases hl : s.leaks e = true
  · obtain ⟨k, i, l, he⟩ := (leaks_iff h).mp hl
    have ho := step_operations h r
    simp only [State.operations, he] at ho
    by_cases hk : k = r
    · subst hk
      have hon : s.leaksOn k e = true := by simp [State.leaksOn, hl, he]
      rw [if_pos rfl, run_single] at ho
      rw [hon, Idle.step_lose_lost ho, Bool.toNat_true]
    · have hoff : s.leaksOn r e = false := by simp [State.leaksOn, he, hk]
      rw [if_neg hk] at ho
      rw [hoff, ← Option.some.inj ho, Bool.toNat_false, Nat.add_zero]
  · have hoff : s.leaksOn r e = false := by simp [State.leaksOn, hl]
    rw [hoff, step_not_leaks h (by simpa using hl), Bool.toNat_false, Nat.add_zero]

/-- The leaks of a run are the reservations that are lost in the end. -/
theorem run_leaked {es : List Label} {s : State w} (h : run State.step (start w) es = some s)
    (r : ℕ) :
    (s.idle r).phases (· == .lost) = count State.step (State.leaksOn r) (start w) es := by
  refine run_history (P := fun es s => (s.idle r).phases (· == .lost) =
    count State.step (State.leaksOn r) (start w) es) rfl ?_ h
  intro es s e t hs ih ht
  rw [step_leaked ht r, ih, count_concat _ hs ht]

/-- In every run of the process with fewer leaks on a runtime than half the
machine words, its count is the number of its live tracked tasks and of the leaks
so far: each leak raises it by one for good, and nothing else does. -/
theorem count_live_leaked {es : List Label} {s : State w} {r : ℕ}
    (h : run State.step (start w) es = some s)
    (hl : count State.step (State.leaksOn r) (start w) es < 2 ^ (w - 1)) :
    (s.idle r).spawned.toNat = (s.idle r).phases Idle.Phase.live +
      count State.step (State.leaksOn r) (start w) es := by
  have hi := idle_inv h r
  have hlost := run_leaked h r
  rw [← hlost] at hl ⊢
  rw [Idle.spawned_toNat hi (Idle.outstanding_lt hi hl), Idle.outstanding_eq]

/-- Two tasks of a thread pool, of which the executor drops one. -/
theorem count_live_leaked_run :
    ∃ s, run State.step (start 64) [.build .threadPool,
        .thread (.program none none none false false), .spawn 0 .poolSpawn 0 0, .exec 0, .exec 0,
        .exec 0, .spawn 0 .poolSpawn 0 1, .exec 0, .exec 0, .exec 0, .dropTask 0] = some s ∧
      (s.idle 0).spawned.toNat = (s.idle 0).phases Idle.Phase.live +
        count State.step (State.leaksOn 0) (start 64) [.build .threadPool,
          .thread (.program none none none false false), .spawn 0 .poolSpawn 0 0, .exec 0, .exec 0,
          .exec 0, .spawn 0 .poolSpawn 0 1, .exec 0, .exec 0, .exec 0, .dropTask 0] :=
  ⟨_, rfl, @count_live_leaked 64 [.build .threadPool,
    .thread (.program none none none false false), .spawn 0 .poolSpawn 0 0, .exec 0, .exec 0,
    .exec 0, .spawn 0 .poolSpawn 0 1, .exec 0, .exec 0, .exec 0, .dropTask 0] _ 0 rfl (by decide)⟩

end TokioCompat.World
