import TokioCompat.WorldThread

/-!
# `current_thread::TaskExecutor` and the two notions of a current runtime

The counted entry points of the executor reserve on `CURRENT_IDLE`, which is
set for the whole of `enter`, `block_on` and `run`, and then hand the task to
the `LocalSet` being polled, if there is one. Where the two notions agree,
each call counts and queues one task or does nothing; where only the first is
set, the call panics with its reservation made and nothing queued.
-/

namespace TokioCompat.World

open Context Spawn Transition

variable {w : ℕ}

/-- `CURRENT_IDLE` is empty, or the thread is polling a `LocalSet`. -/
def Agree (s : Slots) : Prop := s.currentIdle = none ∨ s.localSet.isSome = true

/-- A finished call counted one task and queued it on the `LocalSet` of the
current runtime, or it did nothing and returned its error; `is_current` and
`status` say which. -/
def Record.Atomic (d : Record) : Prop :=
  (Performs d.slots CurrentThread.Runtime.isCurrent [] (some true) ∧
      Performs d.slots CurrentThread.TaskExecutor.status [] (some (.ok ())) ∧ d.reply = some .ok ∧
      ∃ r n f, d.slots.currentIdle = some r ∧
        d.ops = [.reserve ⟨r, n⟩, .handOff (.localSet r) f] ∧ f.user = d.user ∧
        f.tracks = [⟨r, n⟩]) ∨
    (Performs d.slots CurrentThread.Runtime.isCurrent [] (some false) ∧
      Performs d.slots CurrentThread.TaskExecutor.status [] (some (.error .shutdown)) ∧
      d.reply = some (d.point.shutdown d.user) ∧ d.ops = [])

/-- From `u` to `v` one task was counted and queued for the current runtime, or
nothing was, according to the reply. -/
def Changes (u v : State w) (d : Record) : Prop :=
  (d.reply = some .ok ∧ ∃ r f, d.slots.currentIdle = some r ∧
      (v.idle r).spawned = (u.idle r).spawned + 1 ∧ (∀ k, k ≠ r → v.idle k = u.idle k) ∧
      v.tasks = u.tasks ++ [⟨.localSet r, f, .waiting⟩] ∧ f.user = d.user) ∨
    (d.reply = some (d.point.shutdown d.user) ∧ d.slots.currentIdle = none ∧ v.idle = u.idle ∧
      v.tasks = u.tasks)

theorem performs_isCurrent {s : Slots} {ops : List Op} {o : Option Bool} :
    Performs s CurrentThread.Runtime.isCurrent ops o ↔ ops = [] ∧ o = some s.currentIdle.isSome := by
  change Performs s (.currentIdle fun i => .done i.isSome) ops o ↔ _
  rw [performs_currentIdle, performs_done]

theorem performs_status {s : Slots} {ops : List Op} {o : Option (Except SpawnError Unit)} :
    Performs s CurrentThread.TaskExecutor.status ops o ↔
      ops = [] ∧ o = some (if s.currentIdle.isSome then .ok () else .error .shutdown) := by
  change Performs s (.currentIdle fun i => if i.isSome then .done (.ok ()) else
    .done (.error .shutdown)) ops o ↔ _
  rw [performs_currentIdle]
  split <;> exact performs_done

/-- Whatever ran in between, a finished call was atomic exactly if the two
notions of a current runtime agreed on its thread. -/
theorem record_atomic_iff {d : Record} (h : RecordInv d) (hp : d.point.isLocal = true) :
    d.Atomic ↔ Agree d.slots := by
  have ha := local_allows hp h.performs
  unfold Record.Atomic Agree
  rw [performs_isCurrent, performs_isCurrent, performs_status, performs_status]
  unfold Slots.localRule at ha
  cases hi : d.slots.currentIdle with
  | none =>
    rw [hi] at ha
    exact iff_of_true (Or.inr ⟨⟨rfl, rfl⟩, ⟨rfl, rfl⟩, ha.2, ha.1⟩) (Or.inl rfl)
  | some i =>
    rw [hi] at ha
    cases hl : d.slots.localSet with
    | some l =>
      rw [hl] at ha
      obtain ⟨n, f, ho, hu, ht, hr⟩ := ha
      -- the `LocalSet` being polled is that of `CURRENT_IDLE`
      obtain rfl : i = l := Option.some.inj (hi.symm.trans (h.localSet l hl))
      exact iff_of_true (Or.inl ⟨⟨rfl, rfl⟩, ⟨rfl, rfl⟩, hr, i, n, f, rfl, ho, hu, ht⟩)
        (Or.inr rfl)
    | none =>
      rw [hl] at ha
      obtain ⟨n, _, hr⟩ := ha
      rw [hr]
      simp

/-! ### A call that nothing interrupts -/

/-- The state during a call on thread `t`, which was `a` before the call. -/
structure During (u s : State w) (t : ℕ) (a : Actor) (c : SpawnCall) : Prop where
  thread : s.threads[t]? = some { a with call := some c }
  finished : s.finished = u.finished

theorem setThread_get {s : State w} {t : ℕ} {x : Actor} (hx : s.threads[t]? = some x) (y : Actor) :
    (s.setThread t y).threads[t]? = some y :=
  List.getElem?_set_self (List.getElem?_eq_some_iff.mp hx).1

/-- The parent of a new reservation is being polled. -/
theorem parent_polling (s : State w) (x : Actor) (r : ℕ) :
    (s.idle r).ParentPolling (s.parent x r) := by
  intro p hp
  obtain ⟨f, _, hf⟩ := List.exists_of_findSome?_eq_some hp
  cases f with
  | poll k l caught =>
    obtain ⟨y, _, hf⟩ := Option.bind_eq_some_iff.mp hf
    obtain ⟨n, _, hf⟩ := Option.bind_eq_some_iff.mp hf
    obtain ⟨⟨rfl, hn⟩, ⟨⟩⟩ := Option.ite_none_right_eq_some.mp hf
    exact hn
  | call | catching => cases hf

section During

variable {u s : State w} {t : ℕ} {a : Actor} {c : SpawnCall} (h : During u s t a c)
include h

/-- An operation of the call that is none on an idle tracker. -/
theorem exec_plain (he : s.effect (.exec t) = none) :
    s.step (.exec t) = some (s.exec t { a with call := some c } c) := by
  simp only [State.step, State.next, h.thread, he, Option.bind_eq_bind, Option.bind_some,
    Option.pure_def]

/-- An operation of the call on an idle tracker. -/
theorem exec_effect {r : ℕ} {l : Idle.Label} {i : Idle.State w}
    (he : s.effect (.exec t) = some (r, l)) (hi : (s.idle r).step l = some i) :
    s.step (.exec t) = some ((s.exec t { a with call := some c } c).setIdle r i) := by
  simp only [State.step, State.next, h.thread, he, hi, Option.bind_eq_bind, Option.bind_some,
    Option.pure_def]

theorem during_currentIdle {k : Option ℕ → Code Reply} (hk : c.code = .currentIdle k) :
    ∃ v, s.step (.exec t) = some v ∧
      During u v t a { c with code := k a.ctx.slots.currentIdle, ops := c.ops ++ [] } ∧
      v.idle = s.idle ∧ v.tasks = s.tasks := by
  have he : s.effect (.exec t) = none := by simp [State.effect, h.thread, hk]
  refine ⟨_, exec_plain h he, ?_⟩
  unfold State.exec
  rw [hk]
  exact ⟨⟨setThread_get h.thread _, h.finished⟩, rfl, rfl⟩

theorem during_reserve {i : ℕ} {k : Track → Code Reply} (hk : c.code = .reserve i k)
    (hc : (s.idle i).CanClone) :
    ∃ v parent, s.step (.exec t) = some v ∧
      During u v t a { c with code := k ⟨i, (s.idle i).tracks.length⟩
                              ops := c.ops ++ [.reserve ⟨i, (s.idle i).tracks.length⟩] } ∧
      v.idle i = (s.idle i).reserve parent ∧ (∀ j, j ≠ i → v.idle j = s.idle j) ∧
      v.tasks = s.tasks := by
  let parent := s.parent { a with call := some c } i
  have he : s.effect (.exec t) = some (i, .reserve parent) := by
    simp [State.effect, h.thread, hk, parent]
  have hi : (s.idle i).step (.reserve parent) = some ((s.idle i).reserve parent) :=
    Idle.step_reserve.mpr ⟨hc, parent_polling s _ i, rfl⟩
  refine ⟨_, parent, exec_effect h he hi, ?_⟩
  unfold State.exec
  rw [hk]
  exact ⟨⟨setThread_get h.thread _, h.finished⟩, setIdle_self .., fun j hj => setIdle_of_ne _ _ hj,
    rfl⟩

theorem during_handOff {q : Target} {q' : Queue} {f : Fut} {k : Unit → Code Reply} {n : Track}
    {p : Idle.Cell} (hk : c.code = .handOff q f k) (hq : q.queue a.ctx.slots = some q')
    (hf : track f = some n) (hp : (s.idle n.idle).tracks[n.index]? = some p)
    (hr : p.phase = .reserved) :
    ∃ v, s.step (.exec t) = some v ∧
      During u v t a { c with code := k (), ops := c.ops ++ [.handOff q' f] } ∧
      v.idle n.idle = (s.idle n.idle).setPhase n.index p .handed ∧
      (∀ j, j ≠ n.idle → v.idle j = s.idle j) ∧ v.tasks = s.tasks ++ [⟨q', f, .waiting⟩] := by
  have he : s.effect (.exec t) = some (n.idle, .move n.index .handOff) := by
    simp [State.effect, h.thread, hk, hf, hq]
  have hi : (s.idle n.idle).step (.move n.index .handOff) =
      some ((s.idle n.idle).setPhase n.index p .handed) :=
    Idle.step_move.mpr ⟨p, hp, .handed, by rw [hr]; rfl, rfl⟩
  refine ⟨_, exec_effect h he hi, ?_⟩
  unfold State.exec
  simp only [hk, hq]
  exact ⟨⟨setThread_get h.thread _, h.finished⟩, setIdle_self .., fun j hj => setIdle_of_ne _ _ hj,
    rfl⟩

theorem during_panic {q : Target} {f : Fut} {k : Unit → Code Reply} {n : Track}
    {p : Idle.Cell} (hk : c.code = .handOff q f k) (hq : q.queue a.ctx.slots = none)
    (hf : track f = some n) (hp : (s.idle n.idle).tracks[n.index]? = some p)
    (hr : p.phase = .reserved) :
    ∃ v, s.step (.exec t) = some v ∧ v.finished = u.finished ++
        [⟨c.point, c.rt, c.user, a.ctx.slots, c.ops, none⟩] := by
  have he : s.effect (.exec t) = some (n.idle, .lose n.index .abandoned) := by
    simp [State.effect, h.thread, hk, hf, hq]
  have hi : (s.idle n.idle).step (.lose n.index .abandoned) =
      some ((s.idle n.idle).setPhase n.index p .lost).dropIdle :=
    Idle.step_lose.mpr ⟨p, hp, hr, rfl⟩
  refine ⟨_, exec_effect h he hi, ?_⟩
  unfold State.exec
  simp only [hk, hq]
  rw [← h.finished]
  rfl

theorem during_done {r : Reply} (hk : c.code = .done r) :
    ∃ v, s.step (.exec t) = some v ∧ v.finished = u.finished ++
        [⟨c.point, c.rt, c.user, a.ctx.slots, c.ops, some r⟩] ∧ v.idle = s.idle ∧
      v.tasks = s.tasks := by
  have he : s.effect (.exec t) = none := by simp [State.effect, h.thread, hk]
  refine ⟨_, exec_plain h he, ?_⟩
  unfold State.exec
  rw [hk, ← h.finished]
  exact ⟨rfl, rfl, rfl⟩

end During

/-- A call of an entry point begins. -/
theorem during_spawn {u : State w} {t : ℕ} {a : Actor} {p : Point} {r x : ℕ}
    (ha : u.threads[t]? = some a) (hf : u.free a = true) (hp : receives u.kinds[r]? p = true) :
    ∃ v, u.step (.spawn t p r x) = some v ∧
      During u v t a ⟨p, r, x, p.code (ofId r) x, []⟩ ∧ v.idle = u.idle ∧ v.tasks = u.tasks := by
  have hn : u.step (.spawn t p r x) =
      some (u.setThread t { a with call := some ⟨p, r, x, p.code (ofId r) x, []⟩ }) := by
    simp [State.step, State.next, State.effect, ha, hf, hp]
  exact ⟨_, hn, ⟨setThread_get ha _, rfl⟩, rfl, rfl⟩

/-- A call that nothing interrupts goes on by one operation. -/
theorem call_goes_on {u s v : State w} {t r x k : ℕ} {p : Point}
    (h : run State.step u (.spawn t p r x :: List.replicate k (.exec t)) = some s)
    (hv : s.step (.exec t) = some v) :
    run State.step u (.spawn t p r x :: List.replicate (k + 1) (.exec t)) = some v := by
  rw [List.replicate_succ', ← List.cons_append]
  exact run_concat.mpr ⟨s, h, hv⟩

/-- The thread's `CURRENT_IDLE` was set by a call on it. -/
theorem framed_idle {base s : Slots} {fs : List Frame} (hb : base.currentIdle = none)
    (h : Framed base fs s) {i : ℕ} (hs : s.currentIdle = some i) :
    ∃ c, .call c ∈ fs ∧ c.rt.idle = i := by
  induction fs generalizing s with
  | nil =>
    rw [show s = base from h, hb] at hs
    cases hs
  | cons f fs ih =>
    have below : (∃ c, Frame.call c ∈ fs ∧ c.rt.idle = i) → ∃ c, .call c ∈ f :: fs ∧ c.rt.idle = i :=
      fun ⟨c, hc, he⟩ => ⟨c, List.mem_cons_of_mem f hc, he⟩
    cases f with
    | call c =>
      obtain ⟨hf, hh⟩ := h
      by_cases hm : .currentIdle ∈ c.held
      · refine ⟨c, List.mem_cons_self, ?_⟩
        rw [held_idle hh hm] at hs
        exact Option.some.inj hs
      · rw [held_idle_same hh hm] at hs
        exact below (ih hf hs)
    | catching => exact below (ih h hs)
    | poll k l caught => exact below (ih (s := { s with localSet := l }) h hs)

/-- The tracker of `CURRENT_IDLE` can be reserved on, short of the overflow at
which `Arc::clone` aborts the process. -/
theorem current_canClone {s : State w} (hi : Inv s) {x : Actor} (hx : x ∈ s.threads) {i : ℕ}
    (hs : x.ctx.slots.currentIdle = some i) (ha : (s.idle i).arcs ≤ Idle.isizeMax w) :
    (s.idle i).CanClone := by
  obtain ⟨c, hc, rfl⟩ := framed_idle (role_idle x.role) (hi.actors x hx).ctx.framed hs
  exact ⟨Or.inl (hi.borrowed x hx c hc), ha⟩

section Local

variable {u : State w} {t : ℕ} {a : Actor} {p : Point} {r x : ℕ} (ha : u.threads[t]? = some a)
  (hf : u.free a = true) (hp : p.isLocal = true)
include ha hf hp

/-- The call has read `CURRENT_IDLE`. -/
theorem local_reads {c : Option ℕ → Code Reply} (hcode : p.code (ofId r) x = .currentIdle c) :
    ∃ s, run State.step u (.spawn t p r x :: List.replicate 1 (.exec t)) = some s ∧
      During u s t a ⟨p, r, x, c a.ctx.slots.currentIdle, []⟩ ∧ s.idle = u.idle ∧
      s.tasks = u.tasks := by
  have hrec : receives u.kinds[r]? p = true := by
    cases p <;> first | rfl | cases hp
  obtain ⟨s1, h1, d1, i1, t1⟩ := during_spawn ha hf hrec
  obtain ⟨s2, h2, d2, i2, t2⟩ := during_currentIdle d1 hcode
  have h0 : run State.step u (.spawn t p r x :: List.replicate 0 (.exec t)) = some s1 :=
    run_cons.mpr ⟨s1, h1, rfl⟩
  exact ⟨s2, call_goes_on h0 h2, d2, i2.trans i1, t2.trans t1⟩

/-- Outside every current-thread runtime the call returns its error. -/
theorem local_refuses (hs : a.ctx.slots.currentIdle = none) :
    ∃ v, run State.step u (.spawn t p r x :: List.replicate 2 (.exec t)) = some v ∧
      v.finished = u.finished ++ [⟨p, r, x, a.ctx.slots, [], some (p.shutdown x)⟩] ∧
      v.idle = u.idle ∧ v.tasks = u.tasks := by
  obtain ⟨c, f, hcode, hnone, _, _⟩ := local_code hp (ofId r) x
  obtain ⟨s, h1, d, i1, t1⟩ := local_reads ha hf hp hcode
  rw [hs] at d
  obtain ⟨v, h2, hv, i2, t2⟩ := during_done d hnone
  exact ⟨v, call_goes_on h1 h2, hv, i2.trans i1, t2.trans t1⟩

/-- Inside a current-thread runtime the call reserves on its tracker. -/
theorem local_reserves {i : ℕ} (hs : a.ctx.slots.currentIdle = some i) (hc : (u.idle i).CanClone) :
    ∃ (s : State w) (f : Fut) (n : ℕ) (parent : Option ℕ),
      run State.step u (.spawn t p r x :: List.replicate 2 (.exec t)) = some s ∧
      During u s t a ⟨p, r, x, .handOff .currentLocal f fun _ => .done .ok, [.reserve ⟨i, n⟩]⟩ ∧
      f.user = x ∧ track f = some ⟨i, n⟩ ∧ s.idle i = (u.idle i).reserve parent ∧
      (s.idle i).tracks[n]? = some ⟨parent, .reserved⟩ ∧ (∀ j, j ≠ i → s.idle j = u.idle j) ∧
      s.tasks = u.tasks := by
  obtain ⟨c, f, hcode, _, hsome, hfut⟩ := local_code hp (ofId r) x
  obtain ⟨s1, h1, d1, i1, t1⟩ := local_reads ha hf hp hcode
  rw [hs] at d1
  obtain ⟨s2, parent, h2, d2, i2, j2, t2⟩ := during_reserve d1 (hsome i) (i1 ▸ hc)
  refine ⟨s2, f ⟨i, (s1.idle i).tracks.length⟩, _, parent, call_goes_on h1 h2, d2, (hfut _).1, ?_,
    ?_, ?_, ?_, t2.trans t1⟩
  · rw [track, (hfut _).2]
    rfl
  · rw [i2, i1]
  · rw [i2]
    exact List.getElem?_concat_length
  · exact fun j hj => (j2 j hj).trans (congrFun i1 j)

/-- While the `LocalSet` of that runtime is being polled, the call counts and
queues one task. -/
theorem local_counts {i : ℕ} (hs : a.ctx.slots.currentIdle = some i) (hc : (u.idle i).CanClone)
    (hl : a.ctx.slots.localSet = some i) :
    ∃ v n f, run State.step u (.spawn t p r x :: List.replicate 4 (.exec t)) = some v ∧
      v.finished = u.finished ++ [⟨p, r, x, a.ctx.slots,
        [.reserve ⟨i, n⟩, .handOff (.localSet i) f], some .ok⟩] ∧
      (v.idle i).spawned = (u.idle i).spawned + 1 ∧ (∀ j, j ≠ i → v.idle j = u.idle j) ∧
      v.tasks = u.tasks ++ [⟨.localSet i, f, .waiting⟩] ∧ f.user = x := by
  obtain ⟨s1, f, n, parent, h1, d1, hu, hn, i1, hcell, j1, t1⟩ := local_reserves ha hf hp hs hc
  have hq : Target.queue a.ctx.slots .currentLocal = some (.localSet i) := by
    rw [Target.queue, hl]
    rfl
  obtain ⟨s2, h2, d2, i2, j2, t2⟩ := during_handOff d1 rfl hq hn hcell rfl
  obtain ⟨v, h3, hv, i3, t3⟩ := during_done d2 rfl
  refine ⟨v, n, f, call_goes_on (call_goes_on h1 h2) h3, hv, ?_, ?_, ?_, hu⟩
  · rw [i3, i2, Idle.State.setPhase, i1]
    rfl
  · exact fun j hj => by rw [i3, j2 j hj, j1 j hj]
  · rw [t3, t2, t1]

/-- Elsewhere inside the runtime the call panics with its reservation made. -/
theorem local_panics {i : ℕ} (hs : a.ctx.slots.currentIdle = some i) (hc : (u.idle i).CanClone)
    (hl : a.ctx.slots.localSet = none) :
    ∃ v n, run State.step u (.spawn t p r x :: List.replicate 3 (.exec t)) = some v ∧
      v.finished = u.finished ++ [⟨p, r, x, a.ctx.slots, [.reserve ⟨i, n⟩], none⟩] := by
  obtain ⟨s1, f, n, parent, h1, d1, _, hn, _, hcell, _, _⟩ := local_reserves ha hf hp hs hc
  have hq : Target.queue a.ctx.slots .currentLocal = none := by
    rw [Target.queue, hl]
    rfl
  obtain ⟨v, h2, hv⟩ := during_panic d1 rfl hq hn hcell rfl
  exact ⟨v, n, call_goes_on h1 h2, hv⟩

/-- A call that nothing interrupts always ends; it was atomic exactly if the two
notions of a current runtime agree on its thread. -/
theorem run_local (hi : Inv u)
    (hc : ∀ i, a.ctx.slots.currentIdle = some i → (u.idle i).arcs ≤ Idle.isizeMax w) :
    ∃ k v d, run State.step u (.spawn t p r x :: List.replicate k (.exec t)) = some v ∧
      v.finished = u.finished ++ [d] ∧ d.point = p ∧ d.user = x ∧ d.slots = a.ctx.slots ∧
      (Changes u v d ↔ Agree a.ctx.slots) := by
  have hx := List.mem_of_getElem? ha
  cases hs : a.ctx.slots.currentIdle with
  | none =>
    obtain ⟨v, hr, hv, hidle, htasks⟩ := local_refuses (r := r) (x := x) ha hf hp hs
    exact ⟨2, v, _, hr, hv, rfl, rfl, rfl,
      iff_of_true (Or.inr ⟨rfl, hs, hidle, htasks⟩) (Or.inl hs)⟩
  | some i =>
    have hcan := current_canClone hi hx hs (hc i hs)
    cases hl : a.ctx.slots.localSet with
    | some l =>
      obtain rfl : i = l := Option.some.inj
        (hs.symm.trans (actor_localSet (hi.actors a hx) hl))
      obtain ⟨v, n, f, hr, hv, hi', hj, ht, hu⟩ := local_counts (r := r) (x := x) ha hf hp hs hcan hl
      exact ⟨4, v, _, hr, hv, rfl, rfl, rfl,
        iff_of_true (Or.inl ⟨rfl, i, f, hs, hi', hj, ht, hu⟩) (Or.inr (by rw [hl]; rfl))⟩
    | none =>
      obtain ⟨v, n, hr, hv⟩ := local_panics (r := r) (x := x) ha hf hp hs hcan hl
      refine ⟨3, v, _, hr, hv, rfl, rfl, rfl, ?_⟩
      simp [Changes, Agree, hs, hl]

end Local

end TokioCompat.World
