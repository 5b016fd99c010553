import TokioCompat.Roots

/-!
# Library code never gets stuck

In every reachable state each thread is in code of the program, has ended with
a panic, or can go on by itself: the next operation of an entry point, line of
a set-up, frame of a panic or step of `Track::with` is always possible. Only a
wait on an empty channel sleeps, and then a reservation is lost or somebody who
holds one can go on.
-/

namespace TokioCompat.World

open Context Spawn Transition

variable {w : ℕ}

/-- The steps of library code on thread `t`. -/
def Label.library (t : ℕ) : Label → Prop
  | .exec i | .setup i _ | .unwind i | .ret i | .load i | .recv i | .poll i _ | .fetchSub i
  | .send i | .finishPoll i => i = t
  | _ => False

/-- The tracker that the next operation of a thread reserves on. -/
def Actor.reserves (x : Actor) : Option ℕ :=
  match x.call with
  | some c =>
    match c.code with
    | .reserve i _ => some i
    | _ => none
  | none => x.top.bind fun c => if c.todo.head? = some .reserve then some c.rt.idle else none

/-- Why a thread may have no step of library code to take. -/
inductive Halts (s : State w) (x : Actor) : Prop
  /-- Code of the program runs and does as it likes. -/
  | free (hf : s.free x = true)
  /-- A panic has ended the thread. -/
  | dead (hn : x.call = none) (hf : x.ctx.frames = []) (hu : x.ctx.unwinding ≠ none)
  /-- `Rx::idle` is suspended in `recv`. -/
  | asleep {c} (hc : x.top = some c) (hw : waits c = true)
    (hr : (s.idle c.rt.idle).waiter = .receiving) (hq : (s.idle c.rt.idle).chan.queue = [])
    (hs : (s.idle c.rt.idle).chan.senders ≠ 0)
  /-- The `Arc` of the tracker cannot be cloned once more, or its handle is gone. -/
  | full {i} (hi : x.reserves = some i) (hc : ¬(s.idle i).CanClone)
  /-- Another call is in `Rx::idle` of the runtime, which both would borrow mutably. -/
  | occupied {c} (hc : x.top = some c)
    (he : setupEffect c x.ctx.slots (s.parent x c.rt.idle) = some .callIdle)
    (hw : (s.idle c.rt.idle).waiter ≠ .outside)

/-- The thread can take a step of library code. -/
def State.GoesOn (s : State w) (t : ℕ) : Prop := ∃ e v, Label.library t e ∧ s.step e = some v

section Enabled

variable {s : State w} {e : Label} {t : ℕ} {x : Actor}

/-- A step is possible where its operation on the idle tracker is. -/
theorem step_some {u : State w} (hu : s.next e = some u)
    (he : ∀ r l, s.effect e = some (r, l) → ∃ i, (s.idle r).step l = some i) :
    ∃ v, s.step e = some v := by
  unfold State.step
  rw [hu]
  cases heff : s.effect e with
  | none => exact ⟨u, by simp⟩
  | some o =>
    obtain ⟨r, l⟩ := o
    obtain ⟨i, hi⟩ := he r l heff
    exact ⟨u.setIdle r i, by simp [hi]⟩

/-- A step of the context of a thread. -/
theorem act_some {a : Act} {c : Thread} (hx : s.threads[t]? = some x) (hn : x.call = none)
    (ha : s.action x e = some a) (hc : x.ctx.step a = some c) : ∃ u, s.act t e = some u := by
  simp [State.act, hx, hn, ha, hc]

theorem phase_cell {n : Track} {p : Idle.Phase} (h : s.phase n = some p) :
    ∃ c, (s.idle n.idle).tracks[n.index]? = some c ∧ c.phase = p := Option.map_eq_some_iff.mp h

theorem move_some {n : Track} {p q : Idle.Phase} {m : Idle.Move} (h : s.phase n = some p)
    (hm : m.next p = some q) : ∃ i, (s.idle n.idle).step (.move n.index m) = some i := by
  obtain ⟨c, hc, rfl⟩ := phase_cell h
  exact ⟨_, Idle.step_move.mpr ⟨c, hc, q, hm, rfl⟩⟩

theorem lose_some {n : Track} {l : Idle.Loss} (h : s.phase n = some l.phase) :
    ∃ i, (s.idle n.idle).step (.lose n.index l) = some i := by
  obtain ⟨c, hc, hp⟩ := phase_cell h
  exact ⟨_, Idle.step_lose.mpr ⟨c, hc, hp, rfl⟩⟩

/-! ### The steps of one thread -/

/-- An entry point performs its next operation. -/
theorem exec_goes {c : SpawnCall} (hh : Holding s) (hx : s.threads[t]? = some x)
    (hc : x.call = some c) (hfull : ∀ i, x.reserves = some i → (s.idle i).CanClone) :
    s.GoesOn t := by
  refine ⟨.exec t, (step_some (u := s.exec t x c) ?_ fun r l he => ?_).imp fun v hv => ⟨rfl, hv⟩⟩
  · simp [State.next, hx, hc]
  -- what it has in its hands is still to be handed over
  have held : ∀ {q f k n}, c.code = .handOff q f k → track f = some n →
      s.phase n = some .reserved := fun {q f k n} hk hn => by
    have hlin := hh.linear x (List.mem_of_getElem? hx) c hc
    rw [hk] at hlin
    refine hh.table.reserved (t := t) ?_
    rw [State.holder, hx, Option.bind_some, Actor.holds, hc]
    dsimp only
    rw [track, hlin.1] at hn
    rw [← hn]
    cases pending c.ops <;> rfl
  cases effect_cases he with
  | reserve hx' hc' hk =>
    obtain rfl := Option.some.inj (hx.symm.trans hx')
    refine ⟨_, Idle.step_reserve.mpr ⟨hfull _ ?_, parent_polling s x r, rfl⟩⟩
    rw [Actor.reserves, hc']
    dsimp only
    rw [hk]
  | handOff hx' hc' hk hn =>
    obtain rfl := Option.some.inj (hx.symm.trans hx')
    obtain rfl := Option.some.inj (hc.symm.trans hc')
    exact move_some (held hk hn) rfl
  | abandon hx' hc' hk hn =>
    obtain rfl := Option.some.inj (hx.symm.trans hx')
    obtain rfl := Option.some.inj (hc.symm.trans hc')
    exact lose_some (held hk hn)
  | polled hp => cases hp

/-- A panic leaves the innermost frame. -/
theorem unwind_goes (hP : Polling s) (hx : s.threads[t]? = some x) (hn : x.call = none)
    (hu : x.ctx.unwinding ≠ none) (hf : x.ctx.frames ≠ []) : s.GoesOn t := by
  obtain ⟨c, hc⟩ : ∃ c, x.ctx.step .unwind = some c := by
    obtain ⟨p, hp⟩ := Option.ne_none_iff_exists'.mp hu
    unfold Thread.step
    rw [hp]
    rcases hfr : x.ctx.frames with _ | ⟨_ | _ | _, fs⟩
    · exact absurd hfr hf
    · exact ⟨_, rfl⟩
    · exact ⟨_, rfl⟩
    · exact ⟨_, rfl⟩
  obtain ⟨u, hact⟩ : ∃ u, s.next (.unwind t) = some u := act_some hx hn rfl hc
  refine ⟨.unwind t, (step_some hact fun r l he => ?_).imp fun v hv => ⟨rfl, hv⟩⟩
  cases effect_cases he with
  | polled hop hx' hp htrack =>
    cases hop
    obtain rfl := Option.some.inj (hx.symm.trans hx')
    obtain ⟨l', b, fs, hfr⟩ := polling_frame hp
    refine lose_some ((hP.phase hx ?_ (polling_task hp) htrack).resolve_left fun hr => hu hr.2.1)
    rw [hfr]
    exact List.mem_cons_self

/-- A call whose set-up is not finished runs its next line. -/
theorem setup_goes {c : Call} {g : Guard} {gs : List Guard} (hi : Inv s) (hh : Holding s)
    (hx : s.threads[t]? = some x) (hn : x.call = none) (hc : x.top = some c)
    (ht : c.todo = g :: gs) (hfull : ∀ i, x.reserves = some i → (s.idle i).CanClone)
    (hocc : setupEffect c x.ctx.slots (s.parent x c.rt.idle) = some .callIdle →
      (s.idle c.rt.idle).waiter = .outside) : s.GoesOn t := by
  obtain ⟨hu, fs, hf⟩ := top_frames hc
  have hm := List.mem_of_getElem? hx
  -- the reservation of the call is in its hands
  have held : ∀ {n}, c.track = some n → s.phase ⟨c.rt.idle, n⟩ = some .reserved := fun {n} hk => by
    refine hh.table.reserved (t := t) ?_
    rw [State.holder, hx, Option.bind_some, Actor.holds, hn]
    dsimp only
    rw [hc, Option.bind_some, ht, if_neg (List.cons_ne_nil g gs), hk]
    rfl
  obtain ⟨y, hy⟩ : ∃ y, x.ctx.step (.setup (s.idle c.rt.idle).tracks.length) = some y := by
    unfold Thread.step
    rw [hu, hf]
    dsimp only
    unfold Call.setup
    rw [ht]
    dsimp only
    split <;> exact ⟨_, rfl⟩
  obtain ⟨u, hact⟩ : ∃ u, s.next (.setup t 0) = some u :=
    act_some hx hn (by simp [State.action, hc]) hy
  refine ⟨.setup t 0, (step_some hact fun r l he => ?_).imp fun v hv => ⟨rfl, hv⟩⟩
  cases effect_cases he with
  | polled hop => cases hop
  | setup hx' hc' hl =>
    obtain rfl := Option.some.inj (hx.symm.trans hx')
    obtain rfl := Option.some.inj (hc.symm.trans hc')
    obtain ⟨g', gs', ht', ⟨_, n, -, hk, rfl⟩ | ⟨-, ⟨rfl, rfl⟩ | ⟨hgs, ⟨n, hk, rfl⟩ | rfl⟩⟩⟩ :=
      setupEffect_cases hl
    · exact lose_some (l := .abandoned) (held hk)
    · refine ⟨_, Idle.step_reserve.mpr ⟨hfull _ ?_, parent_polling s x _, rfl⟩⟩
      rw [Actor.reserves, hn]
      dsimp only
      rw [hc, Option.bind_some, ht', List.head?_cons, if_pos rfl]
    · exact move_some (held hk) rfl
    · have hown : (s.idle c.rt.idle).own = true := hi.borrowed x hm c (by
        rw [hf]
        exact List.mem_cons_self)
      exact ⟨_, Idle.step_callIdle.mpr ⟨hown, hocc hl, rfl⟩⟩

/-- The innermost call returns where it may. -/
theorem ret_goes {c : Call} (hx : s.threads[t]? = some x) (hn : x.call = none)
    (hc : x.top = some c) (ht : c.todo = []) (hr : s.returns x = true) : s.GoesOn t := by
  obtain ⟨hu, fs, hf⟩ := top_frames hc
  obtain ⟨y, hy⟩ : ∃ y, x.ctx.step .ret = some y := by
    unfold Thread.step
    rw [hu, hf]
    dsimp only
    rw [if_pos ht]
    exact ⟨_, rfl⟩
  obtain ⟨u, hact⟩ : ∃ u, s.next (.ret t) = some u := act_some hx hn (if_pos hr) hy
  exact ⟨.ret t, (step_some hact fun r l he => by cases he).imp fun v hv => ⟨rfl, hv⟩⟩

/-- A `block_on` may poll its future. -/
theorem root_goes {c : Call} {fs : List Frame} {k n : ℕ} {y : Task} (hx : s.threads[t]? = some x)
    (hn : x.call = none) (hu : x.ctx.unwinding = none) (hf : x.ctx.frames = .call c :: fs)
    (ht : c.todo = []) (hapi : c.api = .poolBlockOn ∨ c.api = .currentBlockOn)
    (htrack : c.track = some n) (hy : s.tasks[k]? = some y) (hq : y.queue = .root t)
    (hn' : track y.fut = some ⟨c.rt.idle, n⟩) (hw : y.status = .waiting)
    (hp : s.phase ⟨c.rt.idle, n⟩ = some .handed) : s.GoesOn t := by
  obtain ⟨l, hm, hpoll⟩ : ∃ l, x.mode t y = some (l, false) ∧ x.ctx.polls l false = true := by
    refine ⟨if c.api = .currentBlockOn then some c.rt.localSet else none, ?_, ?_⟩
    · unfold Actor.mode
      rw [hq, hf]
      dsimp only
      rw [if_pos ⟨rfl, by rw [hn', htrack]; rfl⟩]
    · rw [Thread.polls, hu, hf]
      rcases hapi with hapi | hapi <;> simp [ht, hapi, Api.polls]
  have ha : s.action x (.poll t k) = some (.poll k l false) := by
    simp [State.action, hy, hm, hw]
  obtain ⟨u, hact⟩ : ∃ u, s.next (.poll t k) = some u := act_some hx hn ha (if_pos hpoll)
  refine ⟨.poll t k, (step_some hact fun r l he => ?_).imp fun v hv => ⟨rfl, hv⟩⟩
  cases effect_cases he with
  | poll hy' hm' =>
    obtain rfl := Option.some.inj (hy.symm.trans hy')
    obtain rfl := Option.some.inj (hn'.symm.trans hm')
    exact move_some hp rfl
  | polled hop => cases hop

/-- A `block_on` polls its future or returns its result. -/
theorem blockOn_goes {c : Call} (hi : TaskInv s) (ha : ActorInv x) (hst : Standing x)
    (hR : Rooted s.tasks t x.ctx) (hx : s.threads[t]? = some x) (hn : x.call = none)
    (hc : x.top = some c) (ht : c.todo = [])
    (hapi : c.api = .poolBlockOn ∨ c.api = .currentBlockOn) : s.GoesOn t := by
  obtain ⟨hu, fs, hf⟩ := top_frames hc
  obtain ⟨n, htrack⟩ : ∃ n, c.track = some n := by
    have hm : .call c ∈ x.ctx.frames := by
      rw [hf]
      exact List.mem_cons_self
    have hreserve : Guard.reserve ∈ c.api.setup := by
      rcases hapi with hapi | hapi <;> rw [hapi] <;> decide
    refine Option.isSome_iff_exists.mp ?_
    rw [hst.reserved c hm, List.contains_iff_mem]
    exact ordered_held (ha.ctx.ordered c hm) ht hreserve
  obtain ⟨k, y, hy, hq, hn', hab⟩ := hR [] c fs n hf ht htrack
  obtain ⟨p, hp, hfit⟩ := hi.fits k _ _ (owner_task hy hn')
  rw [hu] at hab
  rcases above_nil hab with ⟨hw, -⟩ | hw | ⟨-, hsome⟩
  · rw [hw] at hfit
    obtain rfl : p = .handed := by cases p <;> first | rfl | cases hfit
    exact root_goes hx hn hu hf ht hapi htrack hy hq hn' hw hp
  · rw [hw] at hfit
    obtain rfl : p = .finished := by cases p <;> first | rfl | cases hfit
    refine ret_goes hx hn hc ht ?_
    unfold State.returns
    rw [hf]
    rcases hapi with hapi | hapi <;> simp [hapi, htrack, hp]
  · cases hsome

/-- `Rx::idle` loads, receives or returns, unless it is suspended. -/
theorem wait_goes {c : Call} (hx : s.threads[t]? = some x) (hn : x.call = none)
    (hc : x.top = some c) (hw : waits c = true) : s.GoesOn t ∨ Halts s x := by
  obtain ⟨htodo, -⟩ := Bool.and_eq_true_iff.mp hw
  obtain ⟨-, fs, hf⟩ := top_frames hc
  cases hr : (s.idle c.rt.idle).waiter with
  | outside =>
    refine Or.inl (ret_goes hx hn hc (List.isEmpty_iff.mp htodo) ?_)
    rw [returns_wait hw hf, hr]
    rfl
  | checking =>
    exact Or.inl ⟨.load t, _, rfl,
      wait_step hx hc hw (Or.inl rfl) (Idle.step_load.mpr ⟨hr, rfl⟩)⟩
  | receiving =>
    by_cases hq : (s.idle c.rt.idle).chan.queue = [] ∧ (s.idle c.rt.idle).chan.senders ≠ 0
    · exact Or.inr (.asleep hc hw hr hq.1 hq.2)
    · obtain ⟨i, hi⟩ : ∃ i, (s.idle c.rt.idle).step .recv = some i := by
        cases hqueue : (s.idle c.rt.idle).chan.queue with
        | nil =>
          have hs : (s.idle c.rt.idle).chan.senders = 0 := by
            by_contra hs
            exact hq ⟨hqueue, hs⟩
          exact ⟨_, Idle.step_recv.mpr ⟨hr, Or.inr ⟨hqueue, hs, rfl⟩⟩⟩
        | cons a rest => exact ⟨_, Idle.step_recv.mpr ⟨hr, Or.inl ⟨rest, hqueue, rfl⟩⟩⟩
      exact Or.inl ⟨.recv t, _, rfl, wait_step hx hc hw (Or.inr rfl) hi⟩

/-- A poll runs code of the program, or `Track::with` goes on to its end. -/
theorem poll_goes {k : ℕ} {l : Option ℕ} {b : Bool} {fs : List Frame} (hi : TaskInv s)
    (hP : Polling s) (hx : s.threads[t]? = some x) (hn : x.call = none)
    (hu : x.ctx.unwinding = none) (hf : x.ctx.frames = .poll k l b :: fs) :
    s.GoesOn t ∨ Halts s x := by
  have hk : k ∈ polled x.ctx.frames := by
    rw [hf]
    exact List.mem_cons_self
  obtain ⟨y, hy, hrun⟩ := hP.running hx hk
  have hpoll : s.polling x = some (k, y) := by
    rw [State.polling, hf]
    dsimp only
    rw [hy, Option.map_some]
  have hcode : x.ctx.userCode = true := by
    rw [Thread.userCode, hu, hf]
    rfl
  cases htrack : track y.fut with
  | none =>
    refine Or.inr (.free ?_)
    rw [State.free, hn, hcode, hpoll, Option.bind_some, htrack]
    rfl
  | some n =>
    obtain ⟨p, hp, hfit⟩ := hi.fits k _ _ (owner_task hy htrack)
    rw [hrun] at hfit
    -- a step of `Track::with` on the reservation
    have track : ∀ {e op i}, e = .fetchSub t ∨ e = .send t → pollOp e = some (t, op) →
        (s.idle n.idle).step (op n.index) = some i → Label.library t e → s.GoesOn t :=
      fun {e op i} he hop hstep hlib => by
        have hnext : s.next e = some s := by
          rcases he with rfl | rfl <;> simp [State.next, hx, hpoll, hn, hu, htrack]
        refine ⟨e, (step_some hnext fun r l he' => ?_).imp fun v hv => ⟨hlib, hv⟩⟩
        rw [effect_polling hop hx hpoll, onTrack, htrack] at he'
        cases he'
        exact ⟨i, hstep⟩
    obtain ⟨c, hc, hcp⟩ := phase_cell hp
    cases p with
    | polling =>
      refine Or.inr (.free ?_)
      rw [State.free, hn, hcode, hpoll, Option.bind_some, htrack, Option.all_some, hp]
      rfl
    | resolved =>
      exact Or.inl (track (Or.inl rfl) rfl (Idle.step_fetchSub.mpr ⟨c, hc, hcp, rfl⟩) rfl)
    | notifying =>
      exact Or.inl (track (Or.inr rfl) rfl (Idle.step_send.mpr ⟨c, hc, hcp, rfl⟩) rfl)
    | finished =>
      obtain ⟨z, hz⟩ : ∃ z, x.ctx.step .ret = some z := by
        unfold Thread.step
        rw [hu, hf]
        exact ⟨_, rfl⟩
      have ha : s.action x (.finishPoll t) = some .ret := by
        simp [State.action, hpoll, htrack, hp]
      obtain ⟨u, hact⟩ : ∃ u, s.next (.finishPoll t) = some u := act_some hx hn ha hz
      exact Or.inl ⟨.finishPoll t,
        (step_some hact fun r l he => by cases he).imp fun v hv => ⟨rfl, hv⟩⟩
    | reserved | handed | lost => cases hfit

end Enabled

/-! ### Every thread of a process -/

/-- In every reachable state each thread can take a step of library code, or runs
code of the program, or was ended by a panic, or sleeps in `Rx::idle`, or is about
to make a reservation that the `Arc` of the tracker has no room for, or to enter a
wait while another one goes on. -/
theorem library_progress {es : List Label} {s : State w} {t : ℕ} {x : Actor}
    (h : run State.step (start w) es = some s) (hx : s.threads[t]? = some x) :
    s.GoesOn t ∨ Halts s x := by
  have hm := List.mem_of_getElem? hx
  have hi := run_inv h
  have hst := (run_stands h).threads x hm
  have hh := run_holding h
  have hP := run_polls h
  by_cases hfull : ∃ i, x.reserves = some i ∧ ¬(s.idle i).CanClone
  · obtain ⟨i, hres, hc⟩ := hfull
    exact Or.inr (.full hres hc)
  have room : ∀ i, x.reserves = some i → (s.idle i).CanClone := fun i hres => by
    by_contra hc
    exact hfull ⟨i, hres, hc⟩
  cases hn : x.call with
  | some c => exact Or.inl (exec_goes hh hx hn room)
  | none =>
    by_cases hu : x.ctx.unwinding = none
    · have free : x.ctx.userCode = true → s.polling x = none → Halts s x := fun hcode hp =>
        .free (by rw [State.free, hn, hcode, hp]; rfl)
      cases hf : x.ctx.frames with
      | nil =>
        exact Or.inr (free (by rw [Thread.userCode, hu, hf]; rfl) (by rw [State.polling, hf]))
      | cons f fs =>
        cases f with
        | catching =>
          exact Or.inr (free (by rw [Thread.userCode, hu, hf]; rfl) (by rw [State.polling, hf]))
        | poll k l b => exact poll_goes (run_taskInv h) hP hx hn hu hf
        | call c =>
          have hc : x.top = some c := by rw [Actor.top, hu, hf]
          cases ht : c.todo with
          | cons g gs =>
            by_cases hocc : setupEffect c x.ctx.slots (s.parent x c.rt.idle) = some .callIdle ∧
                (s.idle c.rt.idle).waiter ≠ .outside
            · exact Or.inr (.occupied hc hocc.1 hocc.2)
            · refine Or.inl (setup_goes hi hh hx hn hc ht room fun he => ?_)
              by_contra hw
              exact hocc ⟨he, hw⟩
          | nil =>
            cases ha : c.api with
            | poolEnter | currentEnter =>
              refine Or.inr (free ?_ (by rw [State.polling, hf]))
              rw [Thread.userCode, hu, hf]
              simp [ht, ha, Api.closure]
            | poolBlockOn =>
              exact Or.inl (blockOn_goes (run_taskInv h) (hi.actors x hm) hst
                (run_rooted h t x hx) hx hn hc ht (Or.inl ha))
            | currentBlockOn =>
              exact Or.inl (blockOn_goes (run_taskInv h) (hi.actors x hm) hst
                (run_rooted h t x hx) hx hn hc ht (Or.inr ha))
            | poolShutdownOnIdle | currentRun =>
              exact wait_goes hx hn hc (by simp [waits, ht, ha])
    · by_cases hf : x.ctx.frames = []
      · exact Or.inr (.dead hn hf hu)
      · exact Or.inl (unwind_goes hP hx hn hu hf)

/-! ### A wait that sleeps -/

/-- Thread `t` has a reservation of runtime `r` in its hands, or polls a future
that owns one. -/
def State.Engaged (s : State w) (t r : ℕ) : Prop :=
  (∃ n, s.holder t = some n ∧ n.idle = r) ∨
    ∃ x k y n, s.threads[t]? = some x ∧ k ∈ polled x.ctx.frames ∧ s.tasks[k]? = some y ∧
      track y.fut = some n ∧ n.idle = r

/-- A call that found the timer unset has no poll below it. -/
theorem timer_bare {kinds : List Kind} {ys : List Task} {x : Actor} {c : Call} {fs : List Frame}
    {l : Option ℕ} (ha : ActorInv x) (hs : x.ctx.Settled)
    (hh : Homed kinds ys x.role x.ctx.frames l) (hf : x.ctx.frames = .call c :: fs)
    (ht : .timer ∈ c.held) : polled fs = [] := by
  have hfr := ha.ctx.framed
  rw [hf] at hfr hh
  obtain ⟨hframed, hheld⟩ := hfr
  have hfree : c.before.timer = none := by
    simpa [Guard.occupied] using held_free hheld ht
  have hmem : ∀ d, d ∈ calls fs → .call d ∈ x.ctx.frames := fun d hd => by
    rw [hf]
    exact List.mem_cons_of_mem _ (mem_calls.mp hd)
  have hsettled : ∀ d ∈ calls fs, d.todo = [] := fun d hd => hs d (by rw [hf]; exact hd)
  rcases framed_calls (fun d hd => ha.ctx.ordered d (hmem d hd)) hsettled hframed with
    ⟨hnone, hslots⟩ | ⟨d, -, -, hslots⟩
  · rw [hslots] at hfree
    rw [List.eq_nil_iff_forall_not_mem]
    intro k hk
    obtain ⟨l', b, hpoll⟩ := mem_polled.mp hk
    obtain ⟨y, r, -, hrole, -⟩ := (homed_bare hh.2.2 hnone).2 k l' b hpoll
    rw [hrole] at hfree
    cases hfree
  · rw [hslots] at hfree
    have hset := (context_defaults d.api d.rt x.role.slots).2.1
    rw [show (d.api.context d.rt x.role.slots).timer = none from hfree] at hset
    cases hset

theorem callIdle_last {c : Call} {σ : Slots} {parent : Option ℕ}
    (h : setupEffect c σ parent = some .callIdle) : (∃ g, c.todo = [g]) ∧ body c = some .callIdle := by
  unfold setupEffect at h
  split at h
  · cases h
  next g gs hn =>
    split at h
    next p hp =>
      obtain ⟨n, -, he⟩ := Option.map_eq_some_iff.mp h
      cases he
    next hp =>
      split at h
      · cases h
      · obtain ⟨rfl, hb⟩ := Option.ite_none_right_eq_some.mp h
        exact ⟨⟨g, hn⟩, hb⟩

/-- No entry point is in progress during a set-up or a wait. -/
theorem quiet_call {x : Actor} {c : Call} (hst : Standing x) (hc : x.top = some c)
    (hw : c.todo ≠ [] ∨ waits c = true) : x.call = none := by
  by_contra hcall
  have hcode := hst.code hcall
  obtain ⟨hu, fs, hf⟩ := top_frames hc
  rcases hw with hw | hw
  · exact hw (userCode_top hcode c fs hf)
  · have huser := sheltered_user hcode hst.sheltered
    rw [hf] at huser
    cases huser.1 hw

/-- A thread that deals with a reservation neither sleeps nor has ended. -/
theorem engaged_progress {es : List Label} {s : State w} {t r : ℕ}
    (h : run State.step (start w) es = some s) (he : s.Engaged t r) :
    ∃ x, s.threads[t]? = some x ∧ (s.GoesOn t ∨ s.free x = true ∨
      ∃ i, x.reserves = some i ∧ ¬(s.idle i).CanClone) := by
  obtain ⟨x, hx, hx'⟩ : ∃ x, s.threads[t]? = some x ∧
      (x.holds ≠ none ∨ polled x.ctx.frames ≠ []) := by
    rcases he with ⟨n, hn, -⟩ | ⟨x, k, y, n, hx, hk, -⟩
    · obtain ⟨x, hx, hn⟩ := Option.bind_eq_some_iff.mp hn
      exact ⟨x, hx, Or.inl (by rw [hn]; exact Option.some_ne_none n)⟩
    · exact ⟨x, hx, Or.inr (List.ne_nil_of_mem hk)⟩
  refine ⟨x, hx, ?_⟩
  have hm := List.mem_of_getElem? hx
  have ha := (run_inv h).actors x hm
  have hst := (run_stands h).threads x hm
  have hh := (run_homes h).homed x hm
  -- the innermost call with the timer of its thread installed leaves it no poll
  have idle : ∀ {c}, x.call = none → x.top = some c → .timer ∈ c.held →
      (c.todo = [] ∨ c.track = none) → False := fun {c} hn hc ht hk => by
    obtain ⟨-, fs, hf⟩ := top_frames hc
    rcases hx' with hx' | hx'
    · refine hx' ?_
      unfold Actor.holds
      rw [hn]
      dsimp only
      rw [hc, Option.bind_some]
      rcases hk with hk | hk <;> simp [hk]
    · refine hx' ?_
      rw [hf]
      change polled fs = []
      exact timer_bare ha hst.settled hh hf ht
  have inside : ∀ {c}, x.top = some c → .call c ∈ x.ctx.frames := fun hc => by
    obtain ⟨-, fs, hf⟩ := top_frames hc
    rw [hf]
    exact List.mem_cons_self
  rcases library_progress h hx with hgo | hhalt
  · exact Or.inl hgo
  · cases hhalt with
    | free hf => exact Or.inr (Or.inl hf)
    | full hi hc => exact Or.inr (Or.inr ⟨_, hi, hc⟩)
    | dead hn hf hu =>
      rcases hx' with hx' | hx'
      · refine absurd (holds_none hn fun c hc => ?_) hx'
        exact absurd (top_frames hc).1 hu
      · rw [hf] at hx'
        exact absurd rfl hx'
    | @asleep c hc hw =>
      have htodo : c.todo = [] := List.isEmpty_iff.mp (Bool.and_eq_true_iff.mp hw).1
      have ht := ordered_held (ha.ctx.ordered c (inside hc)) htodo (setup_order c.api).2.1
      exact (idle (quiet_call hst hc (Or.inr hw)) hc ht (Or.inl htodo)).elim
    | @occupied c hc heff =>
      obtain ⟨⟨g, hn⟩, hb⟩ := callIdle_last heff
      have hord := ha.ctx.ordered c (inside hc)
      have ht : .timer ∈ c.held := by
        have hmem := (setup_order c.api).2.1
        have hlast : c.api.setup.getLast? ≠ some .timer := by cases c.api <;> decide
        rw [← (hord : c.held.reverse ++ c.todo = c.api.setup), hn] at hmem hlast
        rcases List.mem_append.mp hmem with hmem | hmem
        · exact List.mem_reverse.mp hmem
        · rw [← List.mem_singleton.mp hmem] at hlast
          exact absurd List.getLast?_concat hlast
      have hk : c.track = none := by
        cases hk : c.track with
        | none => rfl
        | some n =>
          rw [body_handOff hord (hst.reserved c (inside hc)) hk] at hb
          cases hb
      exact (idle (quiet_call hst hc (Or.inl (by rw [hn]; exact List.cons_ne_nil g []))) hc ht
        (Or.inr hk)).elim

/-- Where nothing was lost, a wait that sleeps has a reservation to wait for. -/
theorem unfinished {i : Idle.State w} {es : List Idle.Label}
    (h : run Idle.State.step (Idle.new w) es = some i) (hr : i.waiter = .receiving)
    (hq : i.chan.queue = []) (hl : i.lost = 0) :
    ∃ (n : ℕ) (c : Idle.Cell), i.tracks[n]? = some c ∧ c.phase.holding = true := by
  have some_of : ∀ q : Idle.Phase → Bool, 0 < i.phases q → (∀ p, q p = true → p.holding = true) →
      ∃ (n : ℕ) (c : Idle.Cell), i.tracks[n]? = some c ∧ c.phase.holding = true := fun q hpos hqp => by
    obtain ⟨c, hc, hcq⟩ := List.countP_pos_iff.mp hpos
    obtain ⟨n, hn⟩ := List.mem_iff_getElem?.mp hc
    exact ⟨n, c, hn, hqp _ hcq⟩
  rcases Idle.run_awake h (hl ▸ Nat.two_pow_pos _) hr with hs | hs | hs
  · refine some_of Idle.Phase.live ?_ fun p hp => by cases p <;> first | rfl | cases hp
    have hout := Idle.outstanding_eq i
    unfold Idle.State.lost at hl
    rw [hl, Nat.add_zero] at hout
    rw [← hout]
    refine Nat.pos_of_ne_zero fun hz => hs ?_
    rw [(Idle.run_inv h).spawned_eq, hz]
    rfl
  · exact absurd hq hs
  · exact some_of _ hs fun p hp => by rw [beq_iff_eq.mp hp]; rfl

/-- A task that has such a reservation waits or is being polled. -/
theorem fits_holding {a : Status} {p : Idle.Phase} (h : a.fits p = true)
    (hp : p.holding = true) : a = .waiting ∨ a = .running := by
  revert h hp
  cases a <;> cases p <;> decide

/-- In every run of the process, a wait for a runtime that sleeps has a cause: a
reservation of the runtime was lost, or a future counted on it waits in its queue,
or a thread has a reservation of it in its hands or is polling such a future, and
this thread runs code of the program or can go on by itself. -/
theorem sleep_has_cause {es : List Label} {s : State w} {r : ℕ}
    (h : run State.step (start w) es = some s) (hr : (s.idle r).waiter = .receiving)
    (hq : (s.idle r).chan.queue = []) :
    0 < (s.idle r).lost ∨ (∃ k i, owner s.tasks k = some (⟨r, i⟩, .waiting)) ∨
      ∃ t x, s.Engaged t r ∧ s.threads[t]? = some x ∧ (s.GoesOn t ∨ s.free x = true ∨
        ∃ i, x.reserves = some i ∧ ¬(s.idle i).CanClone) := by
  by_cases hl : 0 < (s.idle r).lost
  · exact Or.inl hl
  right
  obtain ⟨i, c, hc, hhold⟩ := unfinished (run_idle h r) hr hq (Nat.eq_zero_of_not_pos hl)
  have hp : s.phase ⟨r, i⟩ = some c.phase := by rw [State.phase, hc, Option.map_some]
  have engaged : ∀ t, s.Engaged t r → ∃ t x, s.Engaged t r ∧ s.threads[t]? = some x ∧
      (s.GoesOn t ∨ s.free x = true ∨ ∃ i, x.reserves = some i ∧ ¬(s.idle i).CanClone) :=
    fun t ht => by
      obtain ⟨x, hx, hgo⟩ := engaged_progress h ht
      exact ⟨t, x, ht, hx, hgo⟩
  rcases reservation_holder h hp with hlost | ⟨-, t, ht, -⟩ | ⟨-, k, ⟨a, hk, hfit⟩, -⟩
  · rw [hlost] at hhold
    cases hhold
  · exact Or.inr (engaged t (Or.inl ⟨_, ht, rfl⟩))
  · obtain ⟨y, hy, hn⟩ := Option.bind_eq_some_iff.mp hk
    obtain ⟨n, htrack, he⟩ := Option.map_eq_some_iff.mp hn
    obtain ⟨rfl, rfl⟩ := Prod.mk.inj he
    rcases fits_holding hfit hhold with hst | hst
    · exact Or.inl ⟨k, i, hst ▸ hk⟩
    · obtain ⟨t, x, hx, hpoll⟩ := (run_polls h).stacked hy hst
      exact Or.inr (engaged t (Or.inr ⟨x, k, y, _, hx, hpoll, hy, htrack, rfl⟩))

/-- The shutdown of the pool sleeps while its task runs. -/
theorem sleep_has_cause_run :
    ∃ s : State 64, run State.step (start 64) (oneTask ++ [.call 1 .poolShutdownOnIdle 0, .setup 1 0,
        .setup 1 0, .setup 1 0, .setup 1 0, .setup 1 0, .load 1, .poll 0 0]) = some s ∧
      (s.idle 0).waiter = .receiving ∧ (s.idle 0).chan.queue = [] ∧
      (0 < (s.idle 0).lost ∨ (∃ k i, owner s.tasks k = some (⟨0, i⟩, .waiting)) ∨
        ∃ t x, s.Engaged t 0 ∧ s.threads[t]? = some x ∧ (s.GoesOn t ∨ s.free x = true ∨
          ∃ i, x.reserves = some i ∧ ¬(s.idle i).CanClone)) :=
  ⟨_, rfl, rfl, rfl, @sleep_has_cause 64 (oneTask ++ [.call 1 .poolShutdownOnIdle 0, .setup 1 0,
    .setup 1 0, .setup 1 0, .setup 1 0, .setup 1 0, .load 1, .poll 0 0]) _ 0 rfl rfl rfl⟩

end TokioCompat.World
