import TokioCompat.ContextRestore
import TokioCompat.World

/-!
# What holds of every thread of the process

A default executor of this library and the idle tracker it reserves on belong
to one runtime, and a current `LocalSet` belongs to the runtime of
`CURRENT_IDLE`. Both are read off the nesting of the thread. An entry point
in progress has done a beginning of what its program does.
-/

namespace TokioCompat.World

open Context Spawn Scope Transition

variable {w : ℕ}

/-- The default executor hands tasks to the runtime it counts them on. -/
def SameRuntime (s : Slots) : Prop :=
  ∀ sp, s.executor = some (.compat sp) → sp.inner = sp.idle

/-- A set-up line of a runtime of the process installs such an executor. -/
theorem acquire_sameRuntime {r : ℕ} {g : Guard} {s t : Slots}
    (h : g.acquire (ofId r) s = (none, t)) (hs : SameRuntime s) : SameRuntime t := by
  obtain ⟨_, rfl⟩ := acquire_none.mp h
  cases g with
  | executor =>
    intro sp hsp
    cases hsp
    rfl
  | _ => exact hs

/-- Set-up lines leave the current `LocalSet` alone. -/
theorem held_localSet {rt : Runtime} {s t : Slots} {gs : List Guard}
    (h : (guards rt).Held s gs t) : t.localSet = s.localSet := by
  refine Guards.held_rel (R := fun a b : Slots => b.localSet = a.localSet) (fun _ => rfl)
    (fun h k => Eq.trans k h) (fun {g a b} ha => ?_) h
  obtain ⟨_, rfl⟩ := acquire_none.mp (ha : g.acquire rt a = (none, b))
  cases g <;> rfl

/-- The polls of the nesting made a `LocalSet` current only where it belongs to
the runtime of `CURRENT_IDLE`. -/
def Locals : List Frame → Slots → Prop
  | [], s => s.localSet = none
  | .call c :: fs, _ => Locals fs c.before
  | .catching :: fs, s => Locals fs s
  | .poll _ l _ :: fs, s => Locals fs { s with localSet := l } ∧
      (s.localSet = l ∨ ∃ r, s.localSet = some r ∧ s.currentIdle = some r)

theorem framed_executor {base s : Slots} {fs : List Frame} (hb : SameRuntime base)
    (hr : ∀ c, .call c ∈ fs → ∃ r, c.rt = ofId r) (h : Framed base fs s) : SameRuntime s := by
  induction fs generalizing s with
  | nil => rwa [show s = base from h]
  | cons f fs ih =>
    have hr' : ∀ c, .call c ∈ fs → ∃ r, c.rt = ofId r := fun c hc => hr c (List.mem_cons_of_mem f hc)
    cases f with
    | call c =>
      obtain ⟨r, hc⟩ := hr c List.mem_cons_self
      obtain ⟨hf, hh⟩ := h
      rw [hc] at hh
      exact Guards.held_rel (R := fun a b => SameRuntime a → SameRuntime b) (fun _ => id)
        (fun h k => k ∘ h) (fun ha => acquire_sameRuntime ha) hh (ih hr' hf)
    | catching => exact ih hr' h
    | poll k l caught => exact ih (s := { s with localSet := l }) hr' h

theorem framed_localSet {base s : Slots} {fs : List Frame} (h : Framed base fs s)
    (hl : Locals fs s) {l : ℕ} (hs : s.localSet = some l) : s.currentIdle = some l := by
  induction fs generalizing s with
  | nil =>
    rw [show s.localSet = none from hl] at hs
    cases hs
  | cons f fs ih =>
    cases f with
    | call c =>
      obtain ⟨hf, hh⟩ := h
      rw [held_localSet hh] at hs
      exact (held_extends hh).currentIdle l (ih hf hl hs)
    | catching => exact ih h hl hs
    | poll k l' caught =>
      obtain ⟨hl, he | ⟨r, he, hi⟩⟩ := hl
      · exact ih (s := { s with localSet := l' }) h hl (he ▸ hs)
      · rw [he] at hs
        rwa [← Option.some.inj hs]

/-- What holds of every thread. -/
structure ActorInv (x : Actor) : Prop where
  ctx : Context.Inv x.role.slots x.ctx
  runtimes : ∀ c, .call c ∈ x.ctx.frames → ∃ r, c.rt = ofId r
  locals : Locals x.ctx.frames x.ctx.slots
  /-- However an entry point in progress goes on, it is a run of its program. -/
  call : ∀ c, x.call = some c → ∀ ops o, Performs x.ctx.slots c.code ops o →
    Performs x.ctx.slots (c.point.code (ofId c.rt) c.user) (c.ops ++ ops) o

theorem role_idle (r : Role) : r.slots.currentIdle = none := by cases r <;> rfl

theorem role_sameRuntime (r : Role) : SameRuntime r.slots := by
  intro sp h
  cases r with
  | program executor =>
    cases executor <;> cases h
  | worker r | blocking r =>
    cases h
    rfl

theorem actor_new (r : Role) : ActorInv ⟨r, ⟨r.slots, [], none⟩, none⟩ :=
  ⟨⟨rfl, fun _ hc => absurd hc List.not_mem_nil, nofun⟩, fun _ hc => absurd hc List.not_mem_nil,
    by cases r <;> rfl, nofun⟩

section Actor

variable {x : Actor} (h : ActorInv x)
include h

theorem actor_executor : SameRuntime x.ctx.slots :=
  framed_executor (role_sameRuntime x.role) h.runtimes h.ctx.framed

theorem actor_localSet {l : ℕ} (hl : x.ctx.slots.localSet = some l) :
    x.ctx.slots.currentIdle = some l := framed_localSet h.ctx.framed h.locals hl

/-- A `LocalSet` that a poll makes current is that of the call on top, which has
its own idle tracker installed. -/
theorem actor_polls {l : ℕ} {caught : Bool} (hp : x.ctx.polls (some l) caught = true) :
    x.ctx.slots.currentIdle = some l := by
  obtain ⟨role, ⟨s, frames, unwinding⟩, call⟩ := x
  rw [Thread.polls, Bool.and_eq_true] at hp
  obtain ⟨_, hp⟩ := hp
  rcases frames with _ | ⟨c | _ | _, fs⟩
  · cases hp
  · obtain ⟨hn, hp⟩ := Bool.and_eq_true_iff.mp hp
    obtain ⟨r, hr⟩ := h.runtimes c List.mem_cons_self
    have hc : c.api.currentThread = true ∧ l = c.rt.localSet := by
      cases ha : c.api <;> simp_all [Api.polls, Api.currentThread]
    rw [hc.2, hr]
    have hi := idle_in_force h.ctx List.mem_cons_self (List.isEmpty_iff.mp hn) hc.1
    rwa [hr] at hi
  · cases hp
  · cases hp

omit h in
/-- The calls on a thread stay calls on runtimes of the process. -/
theorem step_runtimes {t u : Thread} {a : Act} (hr : ∀ c, .call c ∈ t.frames → ∃ r, c.rt = ofId r)
    (ha : ∀ api rt, a = .call api rt → ∃ r, rt = ofId r) (hu : t.step a = some u) :
    ∀ c, .call c ∈ u.frames → ∃ r, c.rt = ofId r := by
  have tail : ∀ {f : Frame} {fs : List Frame}, (∀ c : Call, .call c ∈ f :: fs → ∃ r, c.rt = ofId r) →
      ∀ c : Call, .call c ∈ fs → ∃ r, c.rt = ofId r := fun h c hc => h c (List.mem_cons_of_mem _ hc)
  cases Context.step_cases hu with
  | call _ =>
    intro c hc
    rcases List.mem_cons.mp hc with he | hc
    · cases he
      exact ha _ _ rfl
    · exact hr c hc
  | @setup _ _ c _ _ _ _ hn _ =>
    intro d hd
    rcases List.mem_cons.mp hd with he | hd
    · cases he
      exact hr c List.mem_cons_self
    · exact tail hr d hd
  | setupPanic | retCall | retCatching | retPoll | unwindCall | unwindCatching | unwindPoll =>
    exact tail hr
  | panic => exact hr
  | catchUnwind | poll => exact fun c hc => hr c ((List.mem_cons.mp hc).resolve_left nofun)

omit h in
/-- A step of a thread makes a `LocalSet` current only by a poll. -/
theorem step_locals {base : Slots} {t u : Thread} {a : Act} (hb : base.currentIdle = none)
    (hi : Context.Inv base t) (hl : Locals t.frames t.slots)
    (hp : ∀ l caught, t.polls (some l) caught = true → t.slots.currentIdle = some l)
    (hu : t.step a = some u) : Locals u.frames u.slots := by
  cases Context.step_cases hu with
  | call | setup | retCatching | panic | unwindCatching | catchUnwind => exact hl
  | setupPanic hn ha =>
    rw [(setupPanic_restores hb hi.ordered hi.framed hn ha).1]
    exact hl
  | retCall | unwindCall =>
    rw [leave_framed hi.framed]
    exact hl
  | retPoll | unwindPoll => exact hl.1
  | @poll _ k l caught hl' =>
    cases l with
    | none => exact ⟨hl, Or.inl rfl⟩
    | some l => exact ⟨hl, Or.inr ⟨l, rfl, hp l caught hl'⟩⟩

/-- A step of the context keeps the invariant of its thread. -/
theorem actor_act {a : Act} {c : Thread} (hn : x.call = none) (hc : x.ctx.step a = some c)
    (ha : ∀ api rt, a = .call api rt → ∃ r, rt = ofId r) : ActorInv { x with ctx := c } where
  ctx := Context.step_inv (role_idle x.role) h.ctx hc
  runtimes := step_runtimes h.runtimes ha hc
  locals := step_locals (role_idle x.role) h.ctx h.locals (fun _ _ => actor_polls h) hc
  call d hd := by
    rw [show x.call = some d from hd] at hn
    cases hn

/-- A panic of an entry point keeps the invariant of its thread. -/
theorem actor_panic {p : Panic} (hp : p ≠ enteredTwice) :
    ActorInv ⟨x.role, { x.ctx with unwinding := some p }, none⟩ :=
  ⟨⟨h.ctx.framed, h.ctx.ordered, fun he => hp (Option.some.inj he)⟩, h.runtimes, h.locals, nofun⟩

/-- The entry point in progress performs `new` and goes on as `k`. -/
theorem actor_go {c : SpawnCall} {k : Code Reply} {new : List Op} (hc : x.call = some c)
    (hk : ∀ ops o, Performs x.ctx.slots k ops o → Performs x.ctx.slots c.code (new ++ ops) o) :
    ActorInv { x with call := some { c with code := k, ops := c.ops ++ new } } := by
  refine ⟨h.ctx, h.runtimes, h.locals, fun d hd ops o ho => ?_⟩
  obtain rfl := Option.some.inj hd
  rw [List.append_assoc]
  exact h.call c hc _ o (hk ops o ho)

end Actor

/-- A finished call did what its program does on a thread with such slots. -/
structure RecordInv (d : Record) : Prop where
  performs : Performs d.slots (d.point.code (ofId d.rt) d.user) d.ops d.reply
  executor : SameRuntime d.slots
  localSet : ∀ l, d.slots.localSet = some l → d.slots.currentIdle = some l

theorem actor_record {x : Actor} {c : SpawnCall} (h : ActorInv x) (hc : x.call = some c)
    {o : Option Reply} (ho : Performs x.ctx.slots c.code [] o) :
    RecordInv ⟨c.point, c.rt, c.user, x.ctx.slots, c.ops, o⟩ :=
  ⟨by simpa using h.call c hc [] o ho, actor_executor h, fun _ => actor_localSet h⟩

/-- One operation of an entry point. -/
theorem exec_inv {s : State w} {t : ℕ} {x : Actor} {c : SpawnCall} (h : ActorInv x)
    (hc : x.call = some c) :
    ∃ y, (s.exec t x c).threads = s.threads.set t y ∧ ActorInv y ∧ y.ctx.frames = x.ctx.frames ∧
      ∀ d ∈ (s.exec t x c).finished, d ∈ s.finished ∨ RecordInv d := by
  unfold State.exec
  cases hk : c.code with
  | done a =>
    refine ⟨{ x with call := none }, rfl, ⟨h.ctx, h.runtimes, h.locals, nofun⟩, rfl, fun d hd => ?_⟩
    refine (List.mem_append.mp hd).imp_right fun hd => ?_
    rw [List.mem_singleton.mp hd]
    exact actor_record h hc (hk ▸ .done a)
  | reserve i k =>
    exact ⟨_, rfl, actor_go h hc fun _ _ ho => hk ▸ .reserve ho, rfl, fun _ => Or.inl⟩
  | handOff q f k =>
    dsimp only
    cases hq : q.queue x.ctx.slots with
    | some q' => exact ⟨_, rfl, actor_go h hc fun _ _ ho => hk ▸ .handOff hq ho, rfl, fun _ => Or.inl⟩
    | none =>
      refine ⟨_, rfl, actor_panic h nofun, rfl, fun d hd => ?_⟩
      refine (List.mem_append.mp hd).imp_right fun hd => ?_
      rw [List.mem_singleton.mp hd]
      exact actor_record h hc (hk ▸ .panic hq)
  | currentIdle k =>
    exact ⟨_, rfl, actor_go h hc fun _ _ ho => hk ▸ .currentIdle ho, rfl, fun _ => Or.inl⟩
  | defaultExecutor k =>
    exact ⟨_, rfl, actor_go h hc fun _ _ ho => hk ▸ .defaultExecutor ho, rfl, fun _ => Or.inl⟩

/-- What holds of the threads of the process. -/
structure Inv (s : State w) : Prop where
  actors : ∀ x ∈ s.threads, ActorInv x
  finished : ∀ d ∈ s.finished, RecordInv d
  /-- A runtime is not dropped during a call that borrows it. -/
  borrowed : ∀ x ∈ s.threads, ∀ c, .call c ∈ x.ctx.frames → (s.idle c.rt.idle).own = true

/-- A step within a poll is about the reservation of the polled task. -/
theorem pollOp_track {e : Label} {t : ℕ} {op : ℕ → Idle.Label} (h : pollOp e = some (t, op)) (n : ℕ) :
    (op n).track = some n := by
  cases e <;> cases h <;> rfl

/-- Only the owner of a runtime drops its `idle` field. -/
theorem effect_dropOwn {s : State w} {e : Label} {r : ℕ}
    (h : s.effect e = some (r, .dropOwn)) : e = .env r .dropOwn := by
  generalize hl : Idle.Label.dropOwn = l at h
  cases effect_cases h with
  | env => rfl
  | setup _ _ hs =>
    subst hl
    obtain ⟨_, _, _, ⟨_, _, _, _, ⟨⟩⟩ | ⟨_, ⟨_, ⟨⟩⟩ | ⟨_, ⟨_, _, ⟨⟩⟩ | ⟨⟨⟩⟩⟩⟩⟩ := setupEffect_cases hs
  | @polled _ _ _ _ _ n _ he =>
    have ht := pollOp_track he n.index
    rw [← hl] at ht
    cases ht
  | _ => cases hl

/-- A runtime that a call borrows is not dropped by a step. -/
theorem own_kept {s u : State w} {e : Label} {k r : ℕ} {l : Idle.Label} {i : Idle.State w}
    (hu : Next s e u) (he : s.effect e = some (k, l)) (hi : (s.idle k).step l = some i)
    (ho : (s.idle r).own = true) (hb : u.borrowed r = true) :
    ((u.setIdle k i).idle r).own = true := by
  by_cases hr : r = k
  · subst hr
    have hl : l ≠ .dropOwn := by
      rintro rfl
      obtain rfl := effect_dropOwn he
      obtain ⟨_, hf, rfl⟩ := next_env hu
      rw [hf rfl] at hb
      cases hb
    rw [setIdle_self, Idle.step_own hi hl]
    exact ho
  · rwa [setIdle_of_ne u i hr, next_idle hu]

/-- A call on a thread borrows its runtime. -/
theorem borrowed_of_call {s : State w} {x : Actor} {c : Call} (hx : x ∈ s.threads)
    (hc : .call c ∈ x.ctx.frames) : s.borrowed c.rt.idle = true :=
  List.any_eq_true.mpr ⟨x, hx, List.any_eq_true.mpr ⟨_, hc, beq_self_eq_true _⟩⟩

/-- The calls on a thread after a step of its context were there before, but for
one that the step begins. -/
theorem step_frames {t u : Thread} {a : Act} (h : t.step a = some u) {c : Call}
    (hc : .call c ∈ u.frames) :
    (∃ d, .call d ∈ t.frames ∧ d.rt = c.rt) ∨ a = .call c.api c.rt := by
  cases Context.step_cases h with
  | call _ =>
    rcases List.mem_cons.mp hc with he | hc
    · cases he
      exact Or.inr rfl
    · exact Or.inl ⟨c, hc, rfl⟩
  | @setup _ _ d _ _ _ _ hn _ =>
    rcases List.mem_cons.mp hc with he | hc
    · cases he
      exact Or.inl ⟨d, List.mem_cons_self, rfl⟩
    · exact Or.inl ⟨c, List.mem_cons_of_mem _ hc, rfl⟩
  | setupPanic | retCall | retCatching | retPoll | unwindCall | unwindCatching | unwindPoll =>
    exact Or.inl ⟨c, List.mem_cons_of_mem _ hc, rfl⟩
  | panic => exact Or.inl ⟨c, hc, rfl⟩
  | catchUnwind | poll => exact Or.inl ⟨c, (List.mem_cons.mp hc).resolve_left nofun, rfl⟩

/-- A call goes to a runtime of the process that has not been dropped. -/
theorem action_call {s : State w} {x : Actor} {e : Label} {api : Api} {rt : Runtime}
    (h : s.action x e = some (.call api rt)) : ∃ r, rt = ofId r ∧ (s.idle r).own = true := by
  cases e with
  | call t a r =>
    obtain ⟨⟨_, _, ho⟩, ⟨⟩⟩ := Option.ite_none_right_eq_some.mp h
    exact ⟨r, rfl, ho⟩
  | setup | pending | poll | finishPoll =>
    simp [State.action, Option.bind_eq_some_iff] at h
  | catchUnwind | panic | ret =>
    obtain ⟨_, ⟨⟩⟩ := Option.ite_none_right_eq_some.mp h
  | _ => cases h

/-- Whatever a step does to the threads, the invariant of each is kept. -/
theorem next_inv {s u : State w} {e : Label} (hi : Inv s) (h : Next s e u) : Inv u := by
  obtain ⟨ha, hf, hb⟩ := hi
  cases h with
  | build | env | wait | track | dropTask => exact ⟨ha, hf, hb⟩
  | @thread role _ =>
    refine ⟨fun x hx => ?_, hf, fun x hx c hc => ?_⟩
    · rcases List.mem_append.mp hx with hx | hx
      · exact ha x hx
      · rw [List.mem_singleton.mp hx]
        exact actor_new role
    · rcases List.mem_append.mp hx with hx | hx
      · exact hb x hx c hc
      · rw [List.mem_singleton.mp hx] at hc
        exact absurd hc List.not_mem_nil
  | @act t e x a c _ hx hn hact hc =>
    have hm := List.mem_of_getElem? hx
    refine ⟨fun y hy => ?_, hf, fun y hy d hd => ?_⟩
    · rcases List.mem_or_eq_of_mem_set hy with hy | rfl
      · exact ha y hy
      · refine actor_act (ha x hm) hn hc fun api rt he => ?_
        obtain ⟨r, hr, _⟩ := action_call (he ▸ hact)
        exact ⟨r, hr⟩
    · rcases List.mem_or_eq_of_mem_set hy with hy | rfl
      · exact hb y hy d hd
      · rcases step_frames hc hd with ⟨d', hd', he⟩ | he
        · rw [← he]
          exact hb x hm d' hd'
        · obtain ⟨r, hr, ho⟩ := action_call (he ▸ hact)
          rw [hr]
          exact ho
  | @spawn t p r u x hx hf' _ =>
    have hm := List.mem_of_getElem? hx
    refine ⟨fun y hy => ?_, hf, fun y hy d hd => ?_⟩
    · rcases List.mem_or_eq_of_mem_set hy with hy | rfl
      · exact ha y hy
      · have hi := ha x hm
        refine ⟨hi.ctx, hi.runtimes, hi.locals, fun c hc ops o ho => ?_⟩
        obtain rfl := Option.some.inj hc
        exact ho
    · rcases List.mem_or_eq_of_mem_set hy with hy | rfl
      · exact hb y hy d hd
      · exact hb x hm d hd
  | @exec t x c hx hc =>
    have hm := List.mem_of_getElem? hx
    obtain ⟨y, hy, hi, hfr, hd⟩ := exec_inv (t := t) (s := s) (ha x hm) hc
    refine ⟨fun z hz => ?_, fun d hd' => (hd d hd').elim (hf d) id, fun z hz d hd' => ?_⟩
    · rw [hy] at hz
      rcases List.mem_or_eq_of_mem_set hz with hz | rfl
      · exact ha z hz
      · exact hi
    · rw [next_idle (.exec hx hc)]
      rw [hy] at hz
      rcases List.mem_or_eq_of_mem_set hz with hz | rfl
      · exact hb z hz d hd'
      · exact hb x hm d (hfr ▸ hd')

/-- One step keeps the invariant. -/
theorem step_inv {s t : State w} {e : Label} (hi : Inv s) (h : s.step e = some t) : Inv t := by
  obtain ⟨u, hu, ⟨_, rfl⟩ | ⟨r, l, i, he, hl, rfl⟩⟩ := step_cases h
  · exact next_inv hi hu
  · obtain ⟨ha, hf, hb⟩ := next_inv hi hu
    refine ⟨ha, hf, fun x hx c hc => own_kept hu he hl ?_ (borrowed_of_call hx hc)⟩
    rw [← next_idle hu]
    exact hb x hx c hc

/-- The invariant holds of every reachable state. -/
theorem run_inv {s : State w} {es : List Label} (h : run State.step (start w) es = some s) :
    Inv s := by
  refine run_invariant (fun _ _ _ hi he => step_inv hi he) ?_ h
  exact ⟨fun x hx => absurd hx List.not_mem_nil, fun d hd => absurd hd List.not_mem_nil,
    fun x hx => absurd hx List.not_mem_nil⟩

end TokioCompat.World
