import TokioCompat.ContextBody
import TokioCompat.WorldThread

/-!
# Where user code stands in the process

Code of the program runs either directly on its thread or inside the body of
exactly one call, on a thread that has no runtime of its own. Its slots are a
function of that, and with them the runtime that `tokio::spawn` of tokio 0.1
and `current_thread::TaskExecutor` spawn on.
-/

namespace TokioCompat.World

open Context Spawn Transition

variable {w : ℕ}

/-- Where a piece of user code runs. -/
inductive Stand where
  /-- Outside every call. -/
  | own (role : Role)
  /-- Inside a call into runtime `r`, in a poll that made `l` the current `LocalSet`. -/
  | within (role : Role) (api : Api) (r : ℕ) (l : Option ℕ)
  deriving DecidableEq, Repr

/-- The thread it runs on. -/
def Stand.role : Stand → Role
  | .own role | .within role .. => role

/-- The slots it sees. -/
def Stand.slots : Stand → Slots
  | .own role => role.slots
  | .within role api r l => { api.context (ofId r) role.slots with localSet := l }

/-- The runtime whose context is in force: that of the call, or else that of the thread. -/
def Stand.home : Stand → Option ℕ
  | .own (.worker r) | .own (.blocking r) | .within _ _ r _ => some r
  | .own (.program ..) => none

/-- The current-thread runtime that `CURRENT_IDLE` names. -/
def Stand.current : Stand → Option ℕ
  | .own _ => none
  | .within _ api r _ => if api.currentThread then some r else none

/-- Only threads without a runtime of their own are inside a call, and only a
current-thread runtime polls its `LocalSet`. -/
def Stand.Valid : Stand → Prop
  | .own _ => True
  | .within role api r l => role.slots.timer = none ∧ ∀ k ∈ l, k = r ∧ api.currentThread = true

/-- A runtime of the process is the default executor at home. -/
theorem stand_executor (p : Stand) : p.slots.executor = match p.home with
    | some r => some (.compat ⟨r, r⟩)
    | none => p.role.slots.executor := by
  cases p with
  | own role => cases role <;> rfl
  | within role api r l => exact (context_defaults api (ofId r) role.slots).1

/-- At home timer and reactor are set as well. -/
theorem stand_drivers {p : Stand} {r : ℕ} (h : p.home = some r) :
    p.slots.timer.isSome = true ∧ p.slots.reactor.isSome = true := by
  cases p with
  | own role =>
    cases role with
    | program executor timer reactor e1 e2 => cases h
    | worker k | blocking k => exact ⟨rfl, rfl⟩
  | within role api k l =>
    obtain ⟨-, ht, hr⟩ := context_defaults api (ofId k) role.slots
    exact ⟨by rw [Stand.slots, ht]; rfl, by rw [Stand.slots, hr]; rfl⟩

/-- Outside a call `CURRENT_IDLE` is empty. -/
theorem stand_idle (p : Stand) : p.slots.currentIdle = p.current := by
  cases p with
  | own role => cases role <;> rfl
  | within role api r l =>
    have hr := role_idle role
    have hi := context_idle api (ofId r) role.slots
    rw [hr] at hi
    exact hi

/-- A wait for a runtime is reached by no panic: it is the innermost frame, or
right below a poll that catches. The argument says if a panic can come from above. -/
def Sheltered : Bool → List Frame → Prop
  | _, [] => True
  | b, .call c :: fs => (waits c = true → b = false) ∧ Sheltered true fs
  | _, .catching :: fs => Sheltered true fs
  | _, .poll _ _ caught :: fs => Sheltered (!caught) fs

theorem sheltered_false {b : Bool} {fs : List Frame} (h : Sheltered b fs) : Sheltered false fs := by
  rcases fs with _ | ⟨c | _ | _, fs⟩
  · trivial
  · exact ⟨fun _ => rfl, h.2⟩
  · exact h
  · exact h

/-- User code is not the body of a wait. -/
theorem sheltered_user {b : Bool} {t : Thread} (hu : t.userCode = true) (h : Sheltered b t.frames) :
    Sheltered true t.frames := by
  obtain ⟨s, fs, p⟩ := t
  rcases fs with _ | ⟨c | _ | _, fs⟩
  · trivial
  · refine ⟨fun hw => ?_, h.2⟩
    rw [Thread.userCode, Bool.and_eq_true, Bool.and_eq_true] at hu
    have hc : c.api.closure = true := hu.2.2
    obtain ⟨-, hw⟩ := Bool.and_eq_true_iff.mp hw
    cases ha : c.api with
    | poolEnter | currentEnter =>
      rw [ha] at hw
      cases hw
    | poolBlockOn | poolShutdownOnIdle | currentBlockOn | currentRun =>
      rw [ha] at hc
      cases hc
  · exact h
  · exact h

/-- A wait only polls tasks whose panics are caught. -/
theorem sheltered_polls {b : Bool} {t : Thread} {l : Option ℕ} {caught : Bool}
    (hp : t.polls l caught = true) (h : Sheltered b t.frames) : Sheltered (!caught) t.frames := by
  obtain ⟨s, fs, p⟩ := t
  rw [Thread.polls, Bool.and_eq_true] at hp
  rcases fs with _ | ⟨c | _ | _, fs⟩
  · trivial
  · refine ⟨fun hw => ?_, h.2⟩
    obtain ⟨-, hpoll⟩ := Bool.and_eq_true_iff.mp hp.2
    obtain ⟨-, hw⟩ := Bool.and_eq_true_iff.mp hw
    cases ha : c.api with
    | currentRun =>
      rw [ha] at hpoll
      rw [(Bool.and_eq_true_iff.mp hpoll).2]
      rfl
    | poolShutdownOnIdle =>
      rw [ha] at hpoll
      cases hpoll
    | poolEnter | poolBlockOn | currentEnter | currentBlockOn =>
      rw [ha] at hw
      cases hw
  · cases hp.2
  · cases hp.2

/-- Each step keeps panics away from waits. -/
theorem step_sheltered {t u : Thread} {a : Act} (h : Sheltered t.unwinding.isSome t.frames)
    (hs : t.step a = some u) : Sheltered u.unwinding.isSome u.frames := by
  cases Context.step_cases hs with
  | @call _ api rt hu =>
    refine ⟨fun hw => ?_, sheltered_user hu h⟩
    obtain ⟨hn, -⟩ := Bool.and_eq_true_iff.mp hw
    cases api <;> cases hn
  | setup hn ha => exact ⟨fun _ => rfl, h.2⟩
  | setupPanic hn ha => exact h.2
  | retCall hn => exact sheltered_false h.2
  | retCatching => exact sheltered_false h
  | retPoll => exact sheltered_false h
  | panic hu => exact sheltered_user (t := t) hu h
  | unwindCall => exact h.2
  | unwindCatching => exact sheltered_false h
  | @unwindPoll s k l caught fs p =>
    cases caught <;> exact h
  | catchUnwind hu => exact sheltered_user hu h
  | poll hp => exact sheltered_polls hp h

/-- What holds of every thread besides. -/
structure Standing (x : Actor) : Prop where
  settled : x.ctx.Settled
  reserved : x.ctx.Reserved
  sheltered : Sheltered x.ctx.unwinding.isSome x.ctx.frames
  /-- Entry points are called by user code. -/
  code : x.call ≠ none → x.ctx.userCode = true

/-- The place is on the thread `x`, with the call it names the only one there. -/
def Stand.On (x : Actor) : Stand → Prop
  | .own role => role = x.role ∧ calls x.ctx.frames = []
  | .within role api r _ => role = x.role ∧ ∃ c, calls x.ctx.frames = [c] ∧ c.api = api ∧ c.rt = ofId r

/-- A thread that runs user code stands somewhere. -/
theorem actor_stand {x : Actor} (h : ActorInv x) (hs : x.ctx.Settled)
    (hu : x.ctx.userCode = true) : ∃ p : Stand, p.Valid ∧ p.On x ∧ x.ctx.slots = p.slots := by
  rcases user_slots h.ctx hs hu with ⟨hc, hslots⟩ | ⟨c, hc, ht, hslots⟩
  · refine ⟨.own x.role, trivial, ⟨rfl, hc⟩, ?_⟩
    -- a current `LocalSet` would need `CURRENT_IDLE`
    have hl : x.ctx.slots.localSet = none := by
      cases hl : x.ctx.slots.localSet with
      | none => rfl
      | some l =>
        have hi := actor_localSet h hl
        rw [hslots] at hi
        change x.role.slots.currentIdle = some l at hi
        rw [role_idle] at hi
        cases hi
    rw [hslots, hl]
    change { x.role.slots with localSet := none } = x.role.slots
    cases x.role <;> rfl
  · have hm : .call c ∈ x.ctx.frames := mem_calls.mp (by rw [hc]; exact List.mem_singleton_self c)
    obtain ⟨r, hr⟩ := h.runtimes c hm
    refine ⟨.within x.role c.api r x.ctx.slots.localSet, ⟨ht, fun k hk => ?_⟩,
      ⟨rfl, c, hc, rfl, hr⟩, ?_⟩
    · have hi := actor_localSet h hk
      rw [hslots, hr] at hi
      change (c.api.context (ofId r) x.role.slots).currentIdle = some k at hi
      rw [context_idle, role_idle] at hi
      obtain ⟨hcur, hk⟩ := Option.ite_none_right_eq_some.mp hi
      exact ⟨(Option.some.inj hk).symm, hcur⟩
    · rw [hr] at hslots
      exact hslots

theorem ofId_inj {r k : ℕ} (h : ofId r = ofId k) : r = k := congrArg Runtime.inner h

/-- The frames and the slots of a thread tell where it stands. -/
theorem stand_unique {x : Actor} {p q : Stand} (hp : p.On x) (hps : x.ctx.slots = p.slots)
    (hq : q.On x) (hqs : x.ctx.slots = q.slots) : p = q := by
  cases p with
  | own role =>
    obtain ⟨rfl, hc⟩ := hp
    cases q with
    | own role' =>
      obtain ⟨rfl, -⟩ := hq
      rfl
    | within role' api r l =>
      obtain ⟨-, c, hc', -⟩ := hq
      rw [hc] at hc'
      cases hc'
  | within role api r l =>
    obtain ⟨rfl, c, hc, rfl, hr⟩ := hp
    cases q with
    | own role' =>
      obtain ⟨-, hc'⟩ := hq
      rw [hc] at hc'
      cases hc'
    | within role' api' r' l' =>
      obtain ⟨rfl, c', hc', rfl, hr'⟩ := hq
      rw [hc] at hc'
      obtain rfl : c = c' := List.singleton_inj.mp hc'
      have hrt : r = r' := ofId_inj (hr.symm.trans hr')
      have hl : l = l' := congrArg Slots.localSet (hps.symm.trans hqs)
      rw [hrt, hl]

/-! ### Every thread of the process -/

theorem stand_role {x : Actor} {p : Stand} (h : p.On x) : p.role = x.role := by
  cases p with
  | own role | within role api r l => exact h.1

theorem free_userCode {s : State w} {x : Actor} (h : s.free x = true) : x.ctx.userCode = true := by
  obtain ⟨hu, -⟩ := Bool.and_eq_true_iff.mp h
  exact (Bool.and_eq_true_iff.mp hu).2

theorem standing_new (role : Role) : Standing ⟨role, ⟨role.slots, [], none⟩, none⟩ :=
  ⟨fun _ hc => absurd hc List.not_mem_nil, fun _ hc => absurd hc List.not_mem_nil, trivial,
    fun h => absurd rfl h⟩

/-- An entry point that goes on leaves its thread where it is, or ends in a panic. -/
theorem exec_standing {s : State w} {t : ℕ} {x : Actor} {c : SpawnCall} (h : Standing x)
    (hc : x.call = some c) :
    ∃ y, (s.exec t x c).threads = s.threads.set t y ∧ y.role = x.role ∧ Standing y ∧
      ∀ d ∈ (s.exec t x c).finished, d ∈ s.finished ∨ d.slots = x.ctx.slots := by
  have hu : x.ctx.userCode = true := h.code (by rw [hc]; nofun)
  have record : ∀ {ds : List Record} {e : Record}, e.slots = x.ctx.slots →
      ∀ d ∈ ds ++ [e], d ∈ ds ∨ d.slots = x.ctx.slots := fun he d hd => by
    rcases List.mem_append.mp hd with hd | hd
    · exact Or.inl hd
    · rw [List.mem_singleton.mp hd]
      exact Or.inr he
  unfold State.exec
  cases hk : c.code with
  | done a =>
    exact ⟨_, rfl, rfl, ⟨h.settled, h.reserved, h.sheltered, fun _ => hu⟩, record rfl⟩
  | reserve i k => exact ⟨_, rfl, rfl, ⟨h.settled, h.reserved, h.sheltered, fun _ => hu⟩, fun _ => Or.inl⟩
  | handOff q f k =>
    dsimp only
    cases hq : q.queue x.ctx.slots with
    | some q' => exact ⟨_, rfl, rfl, ⟨h.settled, h.reserved, h.sheltered, fun _ => hu⟩, fun _ => Or.inl⟩
    | none =>
      have hp := sheltered_user hu h.sheltered
      exact ⟨_, rfl, rfl, ⟨h.settled, h.reserved, hp, fun hn => absurd rfl hn⟩, record rfl⟩
  | currentIdle k => exact ⟨_, rfl, rfl, ⟨h.settled, h.reserved, h.sheltered, fun _ => hu⟩, fun _ => Or.inl⟩
  | defaultExecutor k => exact ⟨_, rfl, rfl, ⟨h.settled, h.reserved, h.sheltered, fun _ => hu⟩, fun _ => Or.inl⟩

/-- The call was made from a place on a thread with one of these roles. -/
def Record.Stood (roles : List Role) (d : Record) : Prop :=
  ∃ p : Stand, p.Valid ∧ p.role ∈ roles ∧ d.slots = p.slots

/-- All threads, and all finished calls. -/
structure Stands (s : State w) : Prop where
  threads : ∀ x ∈ s.threads, Standing x
  finished : ∀ d ∈ s.finished, d.Stood (s.threads.map Actor.role)

/-- The threads of a process keep their roles. -/
theorem roles_set {s : State w} {t : ℕ} {x y : Actor} (hx : s.threads[t]? = some x)
    (hy : y.role = x.role) : (s.threads.set t y).map Actor.role = s.threads.map Actor.role := by
  apply List.ext_getElem?
  intro i
  rw [List.getElem?_map, List.getElem?_map, List.getElem?_set]
  by_cases hi : t = i
  · subst hi
    have ht := (List.getElem?_eq_some_iff.mp hx).1
    rw [if_pos rfl, if_pos ht, hx, Option.map_some, Option.map_some, hy]
  · rw [if_neg hi]

/-- Replacing one thread in its role. -/
theorem stands_set {s : State w} {t : ℕ} {x y : Actor} {ds : List Record} (h : Stands s)
    (hx : s.threads[t]? = some x) (hr : y.role = x.role) (hy : Standing y)
    (hd : ∀ d ∈ ds, d ∈ s.finished ∨ d.Stood (s.threads.map Actor.role)) :
    (∀ z ∈ s.threads.set t y, Standing z) ∧
      ∀ d ∈ ds, d.Stood ((s.threads.set t y).map Actor.role) := by
  constructor
  · intro z hz
    rcases List.mem_or_eq_of_mem_set hz with hz | rfl
    · exact h.threads z hz
    · exact hy
  · intro d hmem
    rw [roles_set hx hr]
    exact (hd d hmem).elim (h.finished d) id

/-- Whatever a step does, every thread and every finished call has its place. -/
theorem next_stands {s u : State w} {e : Label} (hi : Inv s) (h : Stands s) (hn : Next s e u) :
    Stands u := by
  cases hn with
  | build | env | wait | track | dropTask => exact ⟨h.threads, h.finished⟩
  | @thread role _ =>
    constructor
    · intro x hx
      rcases List.mem_append.mp hx with hx | hx
      · exact h.threads x hx
      · rw [List.mem_singleton.mp hx]
        exact standing_new role
    · intro d hd
      obtain ⟨p, hv, hp, hs⟩ := h.finished d hd
      refine ⟨p, hv, ?_, hs⟩
      rw [List.map_append]
      exact List.mem_append_left _ hp
  | @act t e x a c _ hx hc _ hstep =>
    have hst := h.threads x (List.mem_of_getElem? hx)
    have hy : Standing { x with ctx := c } :=
      ⟨step_settled hst.settled hstep, step_reserved hst.reserved hstep,
        step_sheltered hst.sheltered hstep, fun hn => absurd hc hn⟩
    obtain ⟨h1, h2⟩ := stands_set h hx (y := { x with ctx := c }) rfl hy fun _ => Or.inl
    exact ⟨h1, h2⟩
  | @spawn t p r k x hx hf _ =>
    have hst := h.threads x (List.mem_of_getElem? hx)
    have hu := free_userCode hf
    have hy : Standing { x with call := some ⟨p, r, k, p.code (ofId r) k, []⟩ } :=
      ⟨hst.settled, hst.reserved, hst.sheltered, fun _ => hu⟩
    obtain ⟨h1, h2⟩ := stands_set h hx (y := { x with call := some ⟨p, r, k, p.code (ofId r) k, []⟩ })
      rfl hy fun _ => Or.inl
    exact ⟨h1, h2⟩
  | @exec t x c hx hc =>
    have hm := List.mem_of_getElem? hx
    have hst := h.threads x hm
    obtain ⟨y, hth, hr, hy, hd⟩ := exec_standing (s := s) (t := t) hst hc
    have hu : x.ctx.userCode = true := hst.code (by rw [hc]; nofun)
    obtain ⟨p, hv, hon, hslots⟩ := actor_stand (hi.actors x hm) hst.settled hu
    have hrole : p.role ∈ s.threads.map Actor.role := by
      rw [stand_role hon]
      exact List.mem_map_of_mem hm
    obtain ⟨h1, h2⟩ := stands_set h hx hr hy fun d hmem =>
      (hd d hmem).imp_right fun hs => ⟨p, hv, hrole, hs.trans hslots⟩
    rw [← hth] at h1 h2
    exact ⟨h1, h2⟩

/-- Every reachable state of the process. -/
theorem run_stands {s : State w} {es : List Label} (h : run State.step (start w) es = some s) :
    Stands s := by
  refine run_history (P := fun _ s => Stands s)
    ⟨fun x hx => absurd hx List.not_mem_nil, fun d hd => absurd hd List.not_mem_nil⟩ ?_ h
  intro es s e t hs ih ht
  obtain ⟨u, hu, ⟨_, rfl⟩ | ⟨r, l, i, _, _, rfl⟩⟩ := step_cases ht
  · exact next_stands (run_inv hs) ih hu
  · obtain ⟨h1, h2⟩ := next_stands (run_inv hs) ih hu
    exact ⟨h1, h2⟩

/-! ### Where spawns without a receiver go -/

/-- The runtime whose `LocalSet` is being polled. -/
def Stand.polled : Stand → Option ℕ
  | .own _ => none
  | .within _ _ _ l => l

/-- The entry points that find their runtime through the slots of the thread. -/
def ambient : Point → Bool
  | .localSpawnHandle | .localSpawnHandleStd | .defaultExecutor => true
  | p => p.isLocal

/-- A counted task of `current_thread::TaskExecutor`. -/
def Stand.localRule (p : Stand) (e : Reply) : Rule :=
  match p.current, p.polled with
  | none, _ => .refused e
  | some r, some _ => .counted r (.localSet r)
  | some r, none => .panics (some r)

/-- What such an entry point may do with the future `u` at a place: `tokio::spawn`
goes to the runtime whose context is in force, `current_thread::TaskExecutor` to
the current-thread runtime, and only inside its `LocalSet`. -/
def Stand.rule (p : Stand) (u : ℕ) : Point → Rule
  | .defaultExecutor =>
    match p.home with
    | some r => .counted r (.scheduler r)
    | none => if p.role.slots.executor.isSome then .elsewhere else .refused (.refused .shutdown)
  | .localSpawnHandle | .localSpawnHandleStd =>
    match p.polled with
    | some r => .uncounted (.localSet r)
    | none => .panics none
  | q => p.localRule (q.shutdown u)

/-- Outside the runtimes a thread has at most the executor of another library. -/
theorem home_none {p : Stand} (h : p.home = none) :
    p.role.slots.executor = none ∨ ∃ k, p.role.slots.executor = some (.foreign k) := by
  cases p with
  | within role api r l => cases h
  | own role =>
    cases role with
    | worker r | blocking r => cases h
    | program executor timer reactor e1 e2 =>
      cases executor with
      | none => exact Or.inl rfl
      | some k => exact Or.inr ⟨k, rfl⟩

theorem stand_polled {p : Stand} : p.slots.localSet = p.polled := by
  cases p with
  | own role => cases role <;> rfl
  | within role api r l => rfl

/-- A `LocalSet` is polled only in the current-thread runtime that owns it. -/
theorem polled_current {p : Stand} (hv : p.Valid) {k : ℕ} (hk : p.polled = some k) :
    p.current = some k := by
  cases p with
  | own role => cases hk
  | within role api r l =>
    obtain ⟨rfl, hc⟩ := hv.2 k hk
    rw [Stand.current, if_pos hc]

theorem stand_localRule {p : Stand} (hv : p.Valid) (e : Reply) :
    Slots.localRule p.slots e = p.localRule e := by
  rw [Slots.localRule, Stand.localRule, stand_idle, stand_polled]
  cases hl : p.polled with
  | some k => rw [polled_current hv hl]
  | none => cases p.current <;> rfl

/-- The rule of a place is that of the slots it has. -/
theorem stand_rule {p : Stand} (hv : p.Valid) {q : Point} (hq : ambient q = true)
    (rt : Runtime) (u : ℕ) : q.rule rt u p.slots = p.rule u q := by
  cases q with
  | defaultExecutor =>
    have he := stand_executor p
    dsimp only [Point.rule, Stand.rule]
    cases hh : p.home with
    | some r =>
      rw [hh] at he
      rw [he]
    | none =>
      rw [hh] at he
      rcases home_none hh with hn | ⟨k, hn⟩
      · rw [he, hn]
        rfl
      · rw [he, hn]
        rfl
  | localSpawnHandle | localSpawnHandleStd =>
    cases hl : p.polled <;> simp only [Point.rule, Stand.rule, stand_polled, hl]
  | localSpawn | localSpawnStd | localTrait | localTyped | localExecute =>
    exact stand_localRule hv _
  | _ => cases hq

end TokioCompat.World
