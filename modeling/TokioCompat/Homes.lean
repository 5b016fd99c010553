import TokioCompat.SpawnRefinement
import TokioCompat.WorldContext

/-!
# Every future is polled at home

A future belongs to the runtime it was handed to. Whichever thread polls it
finds the executor, the timer and the reactor of that runtime as its defaults,
and what it spawns without naming a runtime stays there. The invariant says of
every poll on a stack what drives it: a worker the scheduler of its own pool, a
call the queues of the runtime it went to.
-/

namespace TokioCompat.World

open Context Spawn Transition

variable {w : ℕ}

/-- The runtime a future belongs to: that of its queue, and for the future of a
`block_on` the one that counts it. -/
def Task.home (y : Task) : Option ℕ :=
  match y.queue with
  | .scheduler r | .localSet r => some r
  | .root _ => (track y.fut).map Track.idle

/-- The runtime is a current-thread runtime. -/
def isCurrentThread (kinds : List Kind) (r : ℕ) : Bool := kinds[r]? == some .currentThread

/-- The `LocalSet` a future is polled in: its own, or for the future of a
`block_on` that of the current-thread runtime. -/
def Task.localSet (kinds : List Kind) (y : Task) : Option ℕ :=
  match y.queue with
  | .scheduler _ => none
  | .localSet l => some l
  | .root _ => y.home.filter (isCurrentThread kinds)

/-- What polls the future on top of this stack, and the `LocalSet` it makes current. -/
inductive Drives (role : Role) (y : Task) : List Frame → Option ℕ → Prop where
  | worker {r : ℕ} (hr : role = .worker r) (hq : y.queue = .scheduler r) : Drives role y [] none
  | scheduler {c : Call} {fs : List Frame} (hq : y.queue = .scheduler c.rt.idle) :
    Drives role y (.call c :: fs) none
  | localSet {c : Call} {fs : List Frame} (ha : c.api.currentThread = true)
    (hq : y.queue = .localSet c.rt.idle) : Drives role y (.call c :: fs) (some c.rt.idle)
  | root {c : Call} {fs : List Frame} {t : ℕ} (hq : y.queue = .root t)
    (hy : y.home = some c.rt.idle) :
    Drives role y (.call c :: fs) (if c.api.currentThread then some c.rt.idle else none)

/-- Each call of the stack went to a runtime of its kind, each poll has what
drives it right below, and `l` is the current `LocalSet`. -/
def Homed (kinds : List Kind) (ys : List Task) (role : Role) : List Frame → Option ℕ → Prop
  | [], l => l = none
  | .call c :: fs, l => kinds[c.rt.idle]? = some (kindOf c.api) ∧ l = c.before.localSet ∧
      Homed kinds ys role fs l
  | .catching :: fs, l => Homed kinds ys role fs l
  | .poll k previous _ :: fs, l =>
      (∃ y m, ys[k]? = some y ∧ Drives role y fs m ∧ l = m.or previous) ∧
        Homed kinds ys role fs previous

/-! ### One thread -/

/-- The futures are where they were, whatever became of them. -/
def Kept (ys zs : List Task) : Prop :=
  ∀ (k : ℕ) (y : Task), ys[k]? = some y →
    ∃ z : Task, zs[k]? = some z ∧ z.queue = y.queue ∧ z.fut = y.fut

theorem home_congr {y z : Task} (hq : z.queue = y.queue) (hf : z.fut = y.fut) :
    z.home = y.home := by
  rw [Task.home, hq, hf]
  rfl

theorem drives_congr {role : Role} {y z : Task} {fs : List Frame} {m : Option ℕ}
    (h : Drives role y fs m) (hq : z.queue = y.queue) (hf : z.fut = y.fut) :
    Drives role z fs m := by
  cases h with
  | worker hr hy => exact .worker hr (hq.trans hy)
  | scheduler hy => exact .scheduler (hq.trans hy)
  | localSet ha hy => exact .localSet ha (hq.trans hy)
  | root hy hh => exact .root (hq.trans hy) ((home_congr hq hf).trans hh)

/-- What drives a stack still does when runtimes and futures are added. -/
theorem homed_mono {kinds kinds' : List Kind} {ys zs : List Task} {role : Role}
    (hk : ∀ (r : ℕ) (k : Kind), kinds[r]? = some k → kinds'[r]? = some k) (hy : Kept ys zs) {fs : List Frame}
    {l : Option ℕ} (h : Homed kinds ys role fs l) : Homed kinds' zs role fs l := by
  induction fs generalizing l with
  | nil => exact h
  | cons f fs ih =>
    cases f with
    | call c => exact ⟨hk _ _ h.1, h.2.1, ih h.2.2⟩
    | catching => exact ih (l := l) h
    | poll k previous caught =>
      obtain ⟨⟨y, m, hget, hd, hl⟩, hfs⟩ := h
      obtain ⟨z, hz, hq, hf⟩ := hy k y hget
      exact ⟨⟨z, m, hz, drives_congr hd hq hf, hl⟩, ih hfs⟩

/-- Each step of a thread keeps its stack that way, when it calls runtimes of
their kind and polls what it drives. -/
theorem step_homed {kinds : List Kind} {ys : List Task} {role : Role} {base : Slots}
    {t u : Thread} {a : Act} (hb : base.currentIdle = none) (hi : Context.Inv base t)
    (h : Homed kinds ys role t.frames t.slots.localSet)
    (hcall : ∀ api rt, a = .call api rt → kinds[rt.idle]? = some (kindOf api))
    (hpoll : ∀ k l b, a = .poll k l b → ∃ y, ys[k]? = some y ∧ Drives role y t.frames l)
    (hu : t.step a = some u) : Homed kinds ys role u.frames u.slots.localSet := by
  cases Context.step_cases hu with
  | call hc => exact ⟨hcall _ _ rfl, rfl, h⟩
  | @setup s v c g gs fs i hn ha =>
    have hl : v.localSet = s.localSet := by
      obtain ⟨-, rfl⟩ := acquire_none.mp ha
      cases g <;> rfl
    obtain ⟨hk, hbefore, hfs⟩ := h
    exact ⟨hk, hl.trans hbefore, hl ▸ hfs⟩
  | setupPanic hn ha =>
    have hleave := (setupPanic_restores hb hi.ordered hi.framed hn ha).1
    rw [hleave]
    exact h.2.1 ▸ h.2.2
  | retCall | unwindCall =>
    rw [leave_framed hi.framed]
    exact h.2.1 ▸ h.2.2
  | retCatching | unwindCatching | panic | catchUnwind => exact h
  | retPoll | unwindPoll => exact h.2
  | @poll _ k l caught hp =>
    obtain ⟨y, hy, hd⟩ := hpoll k l caught rfl
    refine ⟨⟨y, l, hy, hd, ?_⟩, h⟩
    cases l <;> rfl

/-! ### Every thread of the process -/

section Poll

variable {x : Actor} {y : Task} {c : Call} {fs : List Frame} {l : Option ℕ} {b : Bool}

/-- What a call that is being driven polls. -/
theorem polls_call (hf : x.ctx.frames = .call c :: fs) (hp : x.ctx.polls l b = true) :
    c.todo = [] ∧ c.api.polls c.rt l b = true := by
  rw [Thread.polls, hf] at hp
  obtain ⟨-, hp⟩ := Bool.and_eq_true_iff.mp hp
  obtain ⟨htodo, hpolls⟩ := Bool.and_eq_true_iff.mp hp
  exact ⟨List.isEmpty_iff.mp htodo, hpolls⟩

/-- The future that is polled without a task around it is that of a `block_on`,
which made a reservation for it. -/
theorem polls_root (ha : ActorInv x) (hr : x.ctx.Reserved) (hf : x.ctx.frames = .call c :: fs)
    (hp : x.ctx.polls l false = true) :
    (c.api = .poolBlockOn ∨ c.api = .currentBlockOn) ∧ c.track.isSome = true := by
  obtain ⟨htodo, hpolls⟩ := polls_call hf hp
  have hm : .call c ∈ x.ctx.frames := by
    rw [hf]
    exact List.mem_cons_self
  have hapi : c.api = .poolBlockOn ∨ c.api = .currentBlockOn := by
    cases hc : c.api <;> simp [Api.polls, hc] at hpolls ⊢
  have hreserve : Guard.reserve ∈ c.api.setup := by
    rcases hapi with hc | hc <;> rw [hc] <;> decide
  refine ⟨hapi, ?_⟩
  rw [hr c hm, List.contains_iff_mem]
  exact ordered_held (ha.ctx.ordered c hm) htodo hreserve

/-- A thread polls only what its stack drives. -/
theorem mode_drives {t : ℕ} (ha : ActorInv x) (hr : x.ctx.Reserved)
    (hm : x.mode t y = some (l, b)) (hp : x.ctx.polls l b = true) :
    Drives x.role y x.ctx.frames l := by
  unfold Actor.mode at hm
  split at hm
  next r hq hf =>
    obtain ⟨hrole, ⟨⟩⟩ := Option.ite_none_right_eq_some.mp hm
    rw [hf]
    exact .worker hrole hq
  next r c fs hq hf =>
    obtain ⟨hinner, ⟨⟩⟩ := Option.ite_none_right_eq_some.mp hm
    obtain ⟨k, hk⟩ := ha.runtimes c (by rw [hf]; exact List.mem_cons_self)
    rw [hf]
    refine .scheduler ?_
    rw [hq, ← hinner, hk]
    rfl
  next l' c fs hq hf =>
    cases hm
    obtain ⟨k, hk⟩ := ha.runtimes c (by rw [hf]; exact List.mem_cons_self)
    obtain ⟨-, hpolls⟩ := polls_call hf hp
    have hl : l' = c.rt.idle ∧ c.api.currentThread = true := by
      rw [hk] at hpolls ⊢
      cases hc : c.api <;> simp [Api.polls, Api.currentThread, ofId, hc] at hpolls ⊢ <;> exact hpolls
    rw [hf]
    obtain ⟨rfl, hcur⟩ := hl
    exact .localSet hcur hq
  next t' c fs hq hf =>
    obtain ⟨⟨-, htrack⟩, ⟨⟩⟩ := Option.ite_none_right_eq_some.mp hm
    obtain ⟨k, hk⟩ := ha.runtimes c (by rw [hf]; exact List.mem_cons_self)
    obtain ⟨hapi, hsome⟩ := polls_root ha hr hf hp
    have hhome : y.home = some c.rt.idle := by
      rw [Task.home, hq]
      obtain ⟨n, hn⟩ := Option.isSome_iff_exists.mp hsome
      dsimp only
      rw [htrack, hn]
      rfl
    have hl : (if c.api = .currentBlockOn then some c.rt.localSet else none) =
        if c.api.currentThread then some c.rt.idle else none := by
      rw [hk]
      rcases hapi with hc | hc <;> rw [hc] <;> rfl
    rw [hf, hl]
    exact .root hq hhome
  next => cases hm

end Poll

/-- A poll is one of a future that the stack drives. -/
theorem action_poll {s : State w} {x : Actor} {e : Label} {k : ℕ} {l : Option ℕ} {b : Bool}
    {c : Thread} (ha : ActorInv x) (hr : x.ctx.Reserved)
    (he : s.action x e = some (.poll k l b)) (hc : x.ctx.step (.poll k l b) = some c) :
    ∃ y, s.tasks[k]? = some y ∧ Drives x.role y x.ctx.frames l := by
  cases e with
  | poll t j =>
    obtain ⟨y, hy, h⟩ := Option.bind_eq_some_iff.mp he
    obtain ⟨⟨m, caught⟩, hm, h⟩ := Option.bind_eq_some_iff.mp h
    obtain ⟨-, ⟨⟩⟩ := Option.ite_none_right_eq_some.mp h
    obtain ⟨hp, -⟩ := Option.ite_none_right_eq_some.mp hc
    exact ⟨y, hy, mode_drives ha hr hm hp⟩
  | setup | pending | finishPoll =>
    simp [State.action, Option.bind_eq_some_iff] at he
  | call | catchUnwind | panic | ret =>
    obtain ⟨-, ⟨⟩⟩ := Option.ite_none_right_eq_some.mp he
  | _ => cases he

/-- A call goes to a runtime of its kind. -/
theorem action_kind {s : State w} {x : Actor} {e : Label} {api : Api} {rt : Runtime}
    (h : s.action x e = some (.call api rt)) : s.kinds[rt.idle]? = some (kindOf api) := by
  cases e with
  | call t a r =>
    obtain ⟨⟨-, hk, -⟩, ⟨⟩⟩ := Option.ite_none_right_eq_some.mp h
    exact hk
  | setup | pending | poll | finishPoll =>
    simp [State.action, Option.bind_eq_some_iff] at h
  | catchUnwind | panic | ret =>
    obtain ⟨-, ⟨⟩⟩ := Option.ite_none_right_eq_some.mp h
  | _ => cases h

theorem mark_kept (s : State w) (k : ℕ) (p : Status) : Kept s.tasks (s.mark k p) := by
  intro j y hy
  have hm : (s.mark k p)[j]? = some (if k = j then { y with status := p } else y) := by
    rw [State.mark, List.getElem?_modify, hy]
    split <;> rfl
  refine ⟨_, hm, ?_⟩
  split <;> exact ⟨rfl, rfl⟩

theorem append_kept (ys zs : List Task) : Kept ys (ys ++ zs) := fun k y hy =>
  ⟨y, by rw [List.getElem?_append_left (List.getElem?_eq_some_iff.mp hy).1, hy], rfl, rfl⟩

theorem kept_refl (ys : List Task) : Kept ys ys := fun _ y hy => ⟨y, hy, rfl, rfl⟩

/-- No step moves a future or makes it another. -/
theorem handles_kept {s : State w} {o : Option (ℕ × Idle.Label)} {ys : List Task}
    (h : Handles s o ys) : Kept s.tasks ys := by
  have remarked : ∀ k a, Kept s.tasks (s.remark k a) := fun k a => by
    cases a with
    | none => exact kept_refl s.tasks
    | some p => exact mark_kept s k p
  cases h with
  | same | other | abandon => exact kept_refl s.tasks
  | queue | handOff => exact append_kept s.tasks _
  | untracked | task => exact remarked _ _
  | finish => exact mark_kept s _ _

/-- An entry point leaves the stack and the slots of its thread as they are. -/
theorem exec_thread {s : State w} {t : ℕ} {x : Actor} {c : SpawnCall} :
    ∃ y, (s.exec t x c).threads = s.threads.set t y ∧ y.role = x.role ∧
      y.ctx.frames = x.ctx.frames ∧ y.ctx.slots = x.ctx.slots := by
  unfold State.exec
  cases hk : c.code with
  | handOff q f k =>
    dsimp only
    cases hq : q.queue x.ctx.slots <;> exact ⟨_, rfl, rfl, rfl, rfl⟩
  | _ => exact ⟨_, rfl, rfl, rfl, rfl⟩

/-- Where the threads after a step come from. -/
theorem next_actor {s u : State w} {e : Label} (h : Next s e u) {y : Actor}
    (hy : y ∈ u.threads) :
    (∃ role, Role.known s.kinds role = true ∧ y = ⟨role, ⟨role.slots, [], none⟩, none⟩) ∨
      ∃ x ∈ s.threads, y.role = x.role ∧
        ((y.ctx.frames = x.ctx.frames ∧ y.ctx.slots = x.ctx.slots) ∨
          ∃ a, s.action x e = some a ∧ x.ctx.step a = some y.ctx) := by
  cases h with
  | build | env | wait | track | dropTask => exact Or.inr ⟨y, hy, rfl, Or.inl ⟨rfl, rfl⟩⟩
  | @thread role hr =>
    rcases List.mem_append.mp hy with hy | hy
    · exact Or.inr ⟨y, hy, rfl, Or.inl ⟨rfl, rfl⟩⟩
    · exact Or.inl ⟨role, hr, List.mem_singleton.mp hy⟩
  | @act t e x a c he hx hn ha hc =>
    rcases List.mem_or_eq_of_mem_set hy with hy | rfl
    · exact Or.inr ⟨y, hy, rfl, Or.inl ⟨rfl, rfl⟩⟩
    · exact Or.inr ⟨x, List.mem_of_getElem? hx, rfl, Or.inr ⟨a, ha, hc⟩⟩
  | @spawn t p r v x hx hf hr =>
    rcases List.mem_or_eq_of_mem_set hy with hy | rfl
    · exact Or.inr ⟨y, hy, rfl, Or.inl ⟨rfl, rfl⟩⟩
    · exact Or.inr ⟨x, List.mem_of_getElem? hx, rfl, Or.inl ⟨rfl, rfl⟩⟩
  | @exec t x c hx hc =>
    obtain ⟨z, hz, hrole, hfr, hsl⟩ := exec_thread (s := s) (t := t) (x := x) (c := c)
    rw [hz] at hy
    rcases List.mem_or_eq_of_mem_set hy with hy | rfl
    · exact Or.inr ⟨y, hy, rfl, Or.inl ⟨rfl, rfl⟩⟩
    · exact Or.inr ⟨x, List.mem_of_getElem? hx, hrole, Or.inl ⟨hfr, hsl⟩⟩

/-- No step forgets a runtime. -/
theorem next_kinds {s u : State w} {e : Label} (h : Next s e u) {r : ℕ} {k : Kind}
    (hr : s.kinds[r]? = some k) : u.kinds[r]? = some k := by
  cases h with
  | build => exact List.getElem?_append_left (List.getElem?_eq_some_iff.mp hr).1 ▸ hr
  | @exec t x c =>
    have hk : (s.exec t x c).kinds = s.kinds := by
      unfold State.exec
      split
      case h_3 => split <;> rfl
      all_goals rfl
    rw [hk]
    exact hr
  | _ => exact hr

/-- The runtime of a thread exists, and its stack drives what it polls. -/
structure Homes (s : State w) : Prop where
  known : ∀ x ∈ s.threads, x.role.known s.kinds = true
  homed : ∀ x ∈ s.threads, Homed s.kinds s.tasks x.role x.ctx.frames x.ctx.slots.localSet

theorem known_mono {kinds kinds' : List Kind}
    (hk : ∀ (r : ℕ) (k : Kind), kinds[r]? = some k → kinds'[r]? = some k) {role : Role}
    (h : role.known kinds = true) : role.known kinds' = true := by
  cases role with
  | program => rfl
  | worker r =>
    have hr : kinds[r]? = some .threadPool := beq_iff_eq.mp h
    exact beq_iff_eq.mpr (hk r _ hr)
  | blocking r =>
    obtain ⟨k, hr⟩ := Option.isSome_iff_exists.mp (show (kinds[r]?).isSome = true from h)
    exact Option.isSome_iff_exists.mpr ⟨k, hk r k hr⟩

/-- Every step keeps the threads at home. -/
theorem next_homes {s u : State w} {e : Label} (hi : Inv s) (hs : Stands s) (h : Homes s)
    (hn : Next s e u) : Homes u := by
  have hk : ∀ (r : ℕ) (k : Kind), s.kinds[r]? = some k → u.kinds[r]? = some k := fun r k =>
    next_kinds hn
  have hkept := handles_kept (next_handles hn)
  constructor
  · intro y hy
    rcases next_actor hn hy with ⟨role, hr, rfl⟩ | ⟨x, hx, hrole, -⟩
    · exact known_mono hk hr
    · rw [hrole]
      exact known_mono hk (h.known x hx)
  · intro y hy
    rcases next_actor hn hy with ⟨role, hr, rfl⟩ | ⟨x, hx, hrole, ⟨hf, hsl⟩ | ⟨a, ha, hc⟩⟩
    · cases role <;> rfl
    · rw [hrole, hf, hsl]
      exact homed_mono hk hkept (h.homed x hx)
    · have hactor := hi.actors x hx
      rw [hrole]
      refine homed_mono hk hkept (step_homed (role_idle x.role) hactor.ctx (h.homed x hx) ?_ ?_ hc)
      · rintro api rt rfl
        exact action_kind ha
      · rintro k l b rfl
        exact action_poll hactor (hs.threads x hx).reserved ha hc

theorem run_homes {s : State w} {es : List Label} (h : run State.step (start w) es = some s) :
    Homes s := by
  refine run_history (P := fun _ s => Homes s)
    ⟨fun x hx => absurd hx List.not_mem_nil, fun x hx => absurd hx List.not_mem_nil⟩ ?_ h
  intro es s e t hs ih ht
  obtain ⟨u, hu, -, hth, hta, hki, -⟩ := step_parts ht
  obtain ⟨h1, h2⟩ := next_homes (run_inv hs) (run_stands hs) ih hu
  rw [← hth, ← hki] at h1
  rw [← hth, ← hki, ← hta] at h2
  exact ⟨h1, h2⟩

/-! ### The context a future runs in -/

section Stack

variable {kinds : List Kind} {ys : List Task} {role : Role} {fs : List Frame} {l : Option ℕ}

/-- Outside every call only a worker polls, and only the scheduler of its pool. -/
theorem homed_bare (h : Homed kinds ys role fs l) (hc : calls fs = []) :
    l = none ∧ ∀ k p b, .poll k p b ∈ fs →
      ∃ y r, ys[k]? = some y ∧ role = .worker r ∧ y.queue = .scheduler r := by
  induction fs generalizing l with
  | nil => exact ⟨h, fun _ _ _ hk => absurd hk List.not_mem_nil⟩
  | cons f fs ih =>
    cases f with
    | call c => cases hc
    | catching =>
      obtain ⟨hl, hpoll⟩ := ih (l := l) h hc
      exact ⟨hl, fun k p b hk => hpoll k p b ((List.mem_cons.mp hk).resolve_left nofun)⟩
    | poll j previous caught =>
      obtain ⟨⟨y, m, hy, hd, hl⟩, hfs⟩ := h
      obtain ⟨hprev, hpoll⟩ := ih hfs hc
      cases hd with
      | worker hr hq =>
        refine ⟨hl.trans hprev, fun k p b hk => ?_⟩
        rcases List.mem_cons.mp hk with he | hk
        · cases he
          exact ⟨y, _, hy, hr, hq⟩
        · exact hpoll k p b hk
      | scheduler | localSet | root => cases hc

/-- On a thread that is no worker's, the one call drives every poll. -/
theorem homed_call {c : Call} (h : Homed kinds ys role fs l) (hc : calls fs = [c])
    (hrole : ∀ r, role ≠ .worker r) :
    kinds[c.rt.idle]? = some (kindOf c.api) ∧ ∀ k p b, .poll k p b ∈ fs →
      ∃ y gs, ys[k]? = some y ∧ Drives role y (.call c :: gs) l := by
  have bare : ∀ {gs : List Frame} {m : Option ℕ} {k : ℕ} {p : Option ℕ} {b : Bool},
      Homed kinds ys role gs m → calls gs = [] → .poll k p b ∉ gs := fun hg hn hk => by
    obtain ⟨-, r, -, hr, -⟩ := (homed_bare hg hn).2 _ _ _ hk
    exact hrole r hr
  induction fs generalizing l with
  | nil => cases hc
  | cons f fs ih =>
    cases f with
    | call d =>
      obtain ⟨rfl, hn⟩ := List.cons.inj hc
      obtain ⟨hk, -, hfs⟩ := h
      refine ⟨hk, fun k p b hm => ?_⟩
      exact absurd ((List.mem_cons.mp hm).resolve_left nofun) (bare hfs hn)
    | catching =>
      obtain ⟨hk, hpoll⟩ := ih (l := l) h hc
      exact ⟨hk, fun k p b hm => hpoll k p b ((List.mem_cons.mp hm).resolve_left nofun)⟩
    | poll j previous caught =>
      obtain ⟨⟨y, m, hy, hd, hl⟩, hfs⟩ := h
      obtain ⟨hk, -⟩ := ih hfs hc
      refine ⟨hk, fun k p b hm => ?_⟩
      -- right below the poll stands the call, and below it nothing polls
      obtain ⟨d, gs, rfl⟩ : ∃ d gs, fs = .call d :: gs := by
        cases hd with
        | worker => cases hc
        | scheduler | localSet | root => exact ⟨_, _, rfl⟩
      obtain ⟨rfl, hn⟩ := List.cons.inj hc
      obtain ⟨-, -, hgs⟩ := hfs
      rcases List.mem_cons.mp hm with he | hm
      · cases he
        refine ⟨y, gs, hy, ?_⟩
        rw [hl, (homed_bare hgs hn).1, Option.or_none]
        exact hd
      · exact absurd ((List.mem_cons.mp hm).resolve_left nofun) (bare hgs hn)

/-- What a call drives belongs to its runtime and runs in its own `LocalSet`. -/
theorem drives_home {y : Task} {c : Call} (h : Drives role y (.call c :: fs) l)
    (hk : isCurrentThread kinds c.rt.idle = c.api.currentThread) :
    y.home = some c.rt.idle ∧ l = y.localSet kinds := by
  cases h with
  | scheduler hq =>
    rw [Task.localSet, Task.home, hq]
    exact ⟨rfl, rfl⟩
  | localSet ha hq =>
    rw [Task.localSet, Task.home, hq]
    exact ⟨rfl, rfl⟩
  | root hq hy =>
    refine ⟨hy, ?_⟩
    rw [Task.localSet, hq, hy, ← hk]
    cases hc : isCurrentThread kinds c.rt.idle <;> simp [Option.filter, hc]

end Stack

theorem isCurrentThread_kindOf {kinds : List Kind} {r : ℕ} {a : Api}
    (h : kinds[r]? = some (kindOf a)) : isCurrentThread kinds r = a.currentThread := by
  rw [isCurrentThread, h]
  cases a <;> rfl

/-! ### What a future spawns -/

/-- In the run along `es` the future `k`, while it is polled, hands over the future
`j` through an entry point that names no runtime. -/
def Begets (w : ℕ) (es : List Label) (k j : ℕ) : Prop :=
  ∃ (s v : State w) (t : ℕ) (x : Actor) (c : SpawnCall) (p : Option ℕ) (b : Bool),
    Takes State.step (start w) es s (.exec t) ∧ s.step (.exec t) = some v ∧
    s.threads[t]? = some x ∧ x.call = some c ∧ ambient c.point = true ∧
    .poll k p b ∈ x.ctx.frames ∧ j = s.tasks.length ∧ j < v.tasks.length

/-- The queue of a hand-off is that of the rule. -/
theorem allows_queue {rule : Rule} {u : ℕ} {ops : List Op} {o : Option Reply} {q : Queue} {f : Fut}
    (h : rule.Allows u ops o) (hq : .handOff q f ∈ ops) :
    (∃ i, rule = .counted i q) ∨ rule = .uncounted q := by
  cases rule with
  | counted i q' =>
    obtain ⟨n, f', rfl, -⟩ := h
    simp only [List.mem_cons, reduceCtorEq, Op.handOff.injEq, List.not_mem_nil, or_false,
      false_or] at hq
    exact Or.inl ⟨i, by rw [hq.1]⟩
  | uncounted q' =>
    obtain ⟨f', j, rfl, -⟩ := h
    simp only [List.mem_singleton, Op.handOff.injEq] at hq
    exact Or.inr (by rw [hq.1])
  | refused | elsewhere =>
    rw [h.1] at hq
    exact absurd hq List.not_mem_nil
  | panics i =>
    cases i with
    | none =>
      rw [h.1] at hq
      exact absurd hq List.not_mem_nil
    | some i =>
      obtain ⟨n, rfl, -⟩ := h
      cases List.mem_singleton.mp hq

/-- A `LocalSet` is that of the runtime of the same number. -/
theorem localSet_home {kinds : List Kind} {y : Task} {l : ℕ} (h : y.localSet kinds = some l) :
    y.home = some l := by
  unfold Task.localSet at h
  split at h
  next => cases h
  next r hq =>
    rw [Task.home, hq, ← h]
  next t hq =>
    obtain ⟨hy, -⟩ := Option.filter_eq_some_iff.mp h
    exact hy

/-- At home the rule of such an entry point names no other runtime. -/
theorem rule_home {sl : Slots} {rt : Runtime} {u r : ℕ} {q : Point} {target : Queue}
    (hq : ambient q = true) (he : sl.executor = some (.compat ⟨r, r⟩))
    (hl : ∀ l, sl.localSet = some l → l = r)
    (hr : (∃ i, q.rule rt u sl = .counted i target) ∨ q.rule rt u sl = .uncounted target) :
    runtimeOf target = some r := by
  have hlocal : ∀ e, ((∃ i, Slots.localRule sl e = .counted i target) ∨
      Slots.localRule sl e = .uncounted target) → runtimeOf target = some r := fun e h => by
    unfold Slots.localRule at h
    cases hs : sl.localSet with
    | none => cases hi : sl.currentIdle <;> simp [hi, hs] at h
    | some l =>
      obtain rfl := hl l hs
      cases hi : sl.currentIdle with
      | none => simp [hi, hs] at h
      | some i =>
        rw [hi, hs] at h
        rcases h with ⟨i', h⟩ | h
        · obtain ⟨-, rfl⟩ := Rule.counted.inj h
          rfl
        · cases h
  cases q with
  | defaultExecutor =>
    simp only [Point.rule, he] at hr
    rcases hr with ⟨i, h⟩ | h
    · obtain ⟨-, rfl⟩ := Rule.counted.inj h
      rfl
    · cases h
  | localSpawnHandle | localSpawnHandleStd =>
    unfold Point.rule at hr
    cases hs : sl.localSet with
    | none => simp [hs] at hr
    | some l =>
      obtain rfl := hl l hs
      rw [hs] at hr
      rcases hr with ⟨i, h⟩ | h
      · cases h
      · obtain rfl := Rule.uncounted.inj h
        rfl
  | localSpawn | localSpawnStd | localTrait | localTyped | localExecute => exact hlocal _ hr
  | _ => cases hq

/-- A step of an entry point that hands a future over. -/
theorem exec_handOff {s v : State w} {t : ℕ} {x : Actor} {c : SpawnCall}
    (hx : s.threads[t]? = some x) (hc : x.call = some c) (hv : s.step (.exec t) = some v)
    (hlen : s.tasks.length < v.tasks.length) :
    ∃ q q' f k, c.code = .handOff q f k ∧ q.queue x.ctx.slots = some q' ∧
      v.tasks = s.tasks ++ [⟨q', f, .waiting⟩] := by
  obtain ⟨u, hu, -, -, htasks, -⟩ := step_parts hv
  obtain rfl : u = s.exec t x c := by
    cases hu with
    | act he => cases he
    | wait he => rcases he with he | he <;> cases he
    | track he => rcases he with he | he | he <;> cases he
    | exec hx' hc' =>
      obtain rfl := Option.some.inj (hx.symm.trans hx')
      obtain rfl := Option.some.inj (hc.symm.trans hc')
      rfl
  rw [htasks] at hlen ⊢
  unfold State.exec at hlen ⊢
  cases hk : c.code with
  | handOff q f k =>
    rw [hk] at hlen
    dsimp only at hlen ⊢
    cases hq : q.queue x.ctx.slots with
    | none =>
      rw [hq] at hlen
      exact absurd hlen (Nat.lt_irrefl _)
    | some q' => exact ⟨q, q', f, k, rfl, hq, rfl⟩
  | _ =>
    rw [hk] at hlen
    exact absurd hlen (Nat.lt_irrefl _)

/-- Futures stay what and where they are. -/
theorem run_kept {a s : State w} {es : List Label} (h : run State.step a es = some s) :
    Kept a.tasks s.tasks := by
  refine run_invariant (P := fun u : State w => Kept a.tasks u.tasks) (fun u e v hu hv => ?_)
    (kept_refl a.tasks) h
  obtain ⟨m, hm, -, -, htasks, -⟩ := step_parts hv
  intro k y hy
  obtain ⟨z, hz, hq, hf⟩ := hu k y hy
  obtain ⟨z', hz', hq', hf'⟩ := handles_kept (next_handles hm) k z hz
  exact ⟨z', htasks ▸ hz', hq'.trans hq, hf'.trans hf⟩

/-- A task of a thread pool on a worker. -/
def pooled : List Label :=
  [.build .threadPool, .thread (.worker 0), .thread (.program none none none false false),
    .spawn 1 .poolSpawn 0 0, .exec 1, .exec 1, .exec 1, .poll 0 0]

/-- It calls `tokio::spawn` of tokio 0.1, up to the hand-off. -/
def spawning : List Label := [.spawn 0 .defaultExecutor 0 1, .exec 0, .exec 0]

end TokioCompat.World
