import TokioCompat.Progress

/-!
# Library code comes to an end

A weight for what is left to do on a thread: the operations of its entry point,
the frames that can be left, the lines of a set-up, the end of a `Track::with`
and the notifications that a wait may have to receive. Each step of library code
other than beginning a poll lowers it, so a thread that runs alone soon hands
control to code of the program, to a future or to nobody.
-/

namespace TokioCompat.Spawn

/-- How far the next operation of a program is from its end at most. -/
def Code.stage {α : Type} : Code α → ℕ
  | .done _ => 1
  | .handOff .. => 2
  | .reserve .. => 3
  | .currentIdle _ | .defaultExecutor _ => 4

/-- A program reads thread-local state first, then reserves, then hands over, and
does each at most once. -/
def Code.Ordered {α : Type} : Code α → Prop
  | .done _ => True
  | .reserve i k => ∀ n, (k ⟨i, n⟩).stage < 3 ∧ (k ⟨i, n⟩).Ordered
  | .handOff _ _ k => (k ()).stage < 2 ∧ (k ()).Ordered
  | .currentIdle k => ∀ i, (k i).stage < 4 ∧ (k i).Ordered
  | .defaultExecutor k => ∀ e, (k e).stage < 4 ∧ (k e).Ordered

/-- Every entry point is such a program. -/
theorem point_ordered (q : Point) (rt : Context.Runtime) (u : ℕ) : (q.code rt u).Ordered := by
  have done : 1 < 2 := by decide
  have later : 2 < 3 := by decide
  cases q with
  | compatSpawn | compatSpawnTyped | poolSpawn | poolSpawnStd | executorSpawn | executorSpawnStd
  | executorExecute | executorTrait | executorTyped | handleSpawn | handleSpawnStd | currentSpawn
  | currentSpawnStd => exact fun _ => ⟨later, done, trivial⟩
  | poolSpawnHandle | poolSpawnHandleStd | executorSpawnHandle | executorSpawnHandleStd
  | handleSpawnHandle | handleSpawnHandleStd | localSpawnHandle | localSpawnHandleStd =>
    exact ⟨done, trivial⟩
  | localSpawn | localSpawnStd | localTrait | localTyped | localExecute =>
    intro i
    cases i with
    | none => exact ⟨(by decide : 1 < 4), trivial⟩
    | some i => exact ⟨(by decide : 3 < 4), fun _ => ⟨later, done, trivial⟩⟩
  | defaultExecutor =>
    intro e
    cases e with
    | none => exact ⟨(by decide : 1 < 4), trivial⟩
    | some e =>
      cases e with
      | compat sp => exact ⟨(by decide : 3 < 4), fun _ => ⟨later, done, trivial⟩⟩
      | foreign k => exact ⟨(by decide : 1 < 4), trivial⟩

end TokioCompat.Spawn

namespace TokioCompat.World

open Context Spawn Transition

variable {w : ℕ}

/-! ### What is left to do -/

/-- A caller of `Rx::idle` that is about to load has one step more to take. -/
def loads : Idle.Waiter → ℕ
  | .checking => 1
  | .outside | .receiving => 0

/-- Steps that a loop in `Rx::idle` may still take by itself. -/
def loopWork (i : Idle.State w) : ℕ := 2 * i.chan.queue.length + loads i.waiter

/-- The call waits for its runtime once its set-up is done. -/
def isWait (a : Api) : Bool := a == .poolShutdownOnIdle || a == .currentRun

/-- What the waits among these calls may still do. -/
def State.waitWork (s : State w) (cs : List Call) : ℕ :=
  (cs.map fun c => if isWait c.api then loopWork (s.idle c.rt.idle) else 0).sum

/-- What the innermost frame has left to do besides being left. -/
def State.topWork (s : State w) (x : Actor) : ℕ :=
  match x.ctx.unwinding, x.ctx.frames with
  | none, .call c :: _ => 3 * c.todo.length
  | none, .poll k _ _ :: _ =>
    match ((s.tasks[k]?).bind fun y => track y.fut).bind s.phase with
    | some .resolved => 6
    | some .notifying => 5
    | _ => 0
  | _, _ => 0

/-- What library code has left to do on a thread before it hands control on. -/
def State.work (s : State w) (x : Actor) : ℕ :=
  (match x.call with
    | some c => 32 * c.code.stage
    | none => s.topWork x) + 32 * x.ctx.frames.length + s.waitWork (calls x.ctx.frames)

/-- Steps of library code on thread `t` other than beginning a poll. -/
def Label.inner (t : ℕ) : Label → Prop
  | .exec i | .setup i _ | .unwind i | .ret i | .load i | .recv i | .fetchSub i | .send i
  | .finishPoll i => i = t
  | _ => False

section Weights

variable {s v : State w} {x : Actor} {cs : List Call}

/-- Waits have at most `d` more to do each. -/
theorem waitWork_le (cs : List Call) {d : ℕ}
    (h : ∀ r, loopWork (v.idle r) ≤ loopWork (s.idle r) + d) :
    v.waitWork cs ≤ s.waitWork cs + d * cs.length := by
  induction cs with
  | nil => exact Nat.zero_le _
  | cons c cs ih =>
    unfold State.waitWork at ih ⊢
    rw [List.map_cons, List.map_cons, List.sum_cons, List.sum_cons, List.length_cons, Nat.mul_succ]
    have hc := h c.rt.idle
    split <;> omega

/-- A wait among them has less to do, and the others not more. -/
theorem waitWork_lt {r : ℕ} (hr : loopWork (v.idle r) < loopWork (s.idle r))
    (hother : ∀ k, k ≠ r → v.idle k = s.idle k) {c : Call} (hc : c ∈ cs)
    (hw : isWait c.api = true) (hcr : c.rt.idle = r) : v.waitWork cs < s.waitWork cs := by
  have le : ∀ k, loopWork (v.idle k) ≤ loopWork (s.idle k) := fun k => by
    by_cases hk : k = r
    · exact hk ▸ hr.le
    · rw [hother k hk]
  induction cs with
  | nil => cases hc
  | cons d cs ih =>
    have hrest : v.waitWork cs ≤ s.waitWork cs := by
      simpa using waitWork_le cs (d := 0) le
    unfold State.waitWork at ih hrest ⊢
    rw [List.map_cons, List.map_cons, List.sum_cons, List.sum_cons]
    rcases List.mem_cons.mp hc with rfl | hc
    · rw [if_pos hw, if_pos hw, hcr]
      omega
    · have hlt := ih hc
      have hd := le d.rt.idle
      split <;> omega

/-- What an operation on an idle tracker can add to the loop there. -/
def gain : Idle.Label → ℕ
  | .send _ => 2
  | .callIdle => 1
  | _ => 0

theorem loop_gain {i j : Idle.State w} {l : Idle.Label} (h : i.step l = some j) (hl : l ≠ .recv) :
    loopWork j ≤ loopWork i + gain l := by
  cases l with
  | reserve parent =>
    obtain ⟨-, -, rfl⟩ := Idle.step_reserve.mp h
    exact le_rfl
  | move n m =>
    obtain ⟨c, -, p, -, rfl⟩ := Idle.step_move.mp h
    exact le_rfl
  | lose n m =>
    obtain ⟨c, -, -, rfl⟩ := Idle.step_lose.mp h
    exact le_rfl
  | fetchSub n =>
    obtain ⟨c, -, -, rfl⟩ := Idle.step_fetchSub.mp h
    unfold Idle.State.fetchSub
    split <;> exact le_rfl
  | send n =>
    obtain ⟨c, -, -, rfl⟩ := Idle.step_send.mp h
    have hq : (i.chan.send ()).queue.length ≤ i.chan.queue.length + 1 := by
      unfold Channel.Chan.send
      split <;> simp
    change 2 * (i.chan.send ()).queue.length + loads i.waiter ≤
      2 * i.chan.queue.length + loads i.waiter + 2
    omega
  | cloneIdle =>
    obtain ⟨-, rfl⟩ := Idle.step_cloneIdle.mp h
    exact le_rfl
  | dropClone =>
    obtain ⟨-, rfl⟩ := Idle.step_dropClone.mp h
    exact le_rfl
  | dropOwn =>
    obtain ⟨-, -, rfl⟩ := Idle.step_dropOwn.mp h
    exact le_rfl
  | dropRx =>
    obtain ⟨-, -, rfl⟩ := Idle.step_dropRx.mp h
    exact Nat.add_le_add_right (Nat.zero_le _) _
  | callIdle =>
    obtain ⟨-, hw, rfl⟩ := Idle.step_callIdle.mp h
    unfold loopWork
    rw [hw]
    exact le_rfl
  | load =>
    obtain ⟨hw, rfl⟩ := Idle.step_load.mp h
    unfold loopWork
    dsimp only
    split <;> exact Nat.add_le_add_left (Nat.zero_le _) _
  | recv => exact absurd rfl hl
  | cancel =>
    obtain ⟨-, rfl⟩ := Idle.step_cancel.mp h
    exact Nat.add_le_add_left (Nat.zero_le _) _

/-- The loop itself goes down: a load ends it or suspends it, a receive takes a
notification away. -/
theorem loop_lt {i j : Idle.State w} {l : Idle.Label} (hi : Idle.Inv i) (h : i.step l = some j)
    (hl : l = .load ∨ l = .recv) : loopWork j < loopWork i := by
  rcases hl with rfl | rfl
  · obtain ⟨hw, rfl⟩ := Idle.step_load.mp h
    unfold loopWork
    rw [hw]
    dsimp only
    split <;> exact Nat.lt_succ_self _
  · obtain ⟨hw, -⟩ := Idle.step_recv.mp h
    obtain ⟨rest, hq, rfl⟩ := Idle.step_recv_open hi h
    unfold loopWork
    rw [hw, hq]
    exact Nat.lt_succ_self _

/-- What a step of the process can add to the waits. -/
theorem operates_gain {o : Option (ℕ × Idle.Label)} {d : ℕ} (h : Operates s v o)
    (hd : ∀ r l, o = some (r, l) → l ≠ .recv ∧ gain l ≤ d) (k : ℕ) :
    loopWork (v.idle k) ≤ loopWork (s.idle k) + d := by
  cases o with
  | none =>
    rw [show v.idle = s.idle from h]
    omega
  | some x =>
    obtain ⟨r, l⟩ := x
    obtain ⟨hl, hg⟩ := hd r l rfl
    by_cases hk : k = r
    · subst hk
      exact (loop_gain h.1 hl).trans (by omega)
    · rw [h.2 k hk]
      omega

/-- There are at most two calls on a stack: one whose body runs, and one above it
whose set-up is going on. -/
theorem calls_le (ha : ActorInv x) (hs : x.ctx.Settled) : (calls x.ctx.frames).length ≤ 2 := by
  have hfr := ha.ctx.framed
  have hord := ha.ctx.ordered
  have hsettled : ∀ d ∈ calls x.ctx.frames.tail, d.todo = [] := hs
  have few : ∀ {fs : List Frame} {σ : Slots}, (∀ d ∈ calls fs, d.Ordered) →
      (∀ d ∈ calls fs, d.todo = []) → Framed x.role.slots fs σ → (calls fs).length ≤ 1 :=
    fun ho hn hf => by
      rcases framed_calls ho hn hf with ⟨hc, -⟩ | ⟨c, hc, -, -⟩ <;> rw [hc] <;> simp
  generalize x.ctx.frames = fs at hfr hord hsettled ⊢
  cases fs with
  | nil => exact Nat.zero_le 2
  | cons f fs =>
    have ho : ∀ d ∈ calls fs, d.Ordered := fun d hd =>
      hord d (List.mem_cons_of_mem f (mem_calls.mp hd))
    cases f with
    | call c => exact Nat.succ_le_succ (few ho hsettled hfr.1)
    | catching => exact (few ho hsettled hfr).trans (by decide)
    | poll k l b =>
      exact (few (σ := { x.ctx.slots with localSet := l }) ho hsettled hfr).trans (by decide)

theorem topWork_le (ha : ActorInv x) : s.topWork x ≤ 31 := by
  unfold State.topWork
  split
  next c fs hu hf =>
    have hord : c.held.reverse ++ c.todo = c.api.setup :=
      ha.ctx.ordered c (by rw [hf]; exact List.mem_cons_self)
    have hlen := congrArg List.length hord
    rw [List.length_append] at hlen
    have h8 : c.api.setup.length ≤ 8 := by cases c.api <;> decide
    omega
  next => split <;> decide
  next => decide

theorem waitWork_tail (f : Frame) (fs : List Frame) :
    s.waitWork (calls fs) ≤ s.waitWork (calls (f :: fs)) := by
  cases f with
  | call c =>
    change _ ≤ s.waitWork (c :: calls fs)
    unfold State.waitWork
    rw [List.map_cons, List.sum_cons]
    exact Nat.le_add_left _ _
  | catching | poll => exact le_rfl

end Weights

/-! ### Every step of library code -/

section Steps

variable {s u v : State w} {e : Label} {t : ℕ} {x y : Actor}

/-- An operation of an entry point comes nearer to the end of its program. -/
theorem exec_stage {c : SpawnCall} (ho : c.code.Ordered) :
    ∃ y, (s.exec t x c).threads = s.threads.set t y ∧ y.role = x.role ∧
      y.ctx.frames = x.ctx.frames ∧
      ∀ d, y.call = some d → d.code.stage < c.code.stage ∧ d.code.Ordered := by
  have go : ∀ {k : Code Reply} {ops : List Op}, k.stage < c.code.stage ∧ k.Ordered →
      ∀ d : SpawnCall, some { c with code := k, ops := ops } = some d →
        d.code.stage < c.code.stage ∧ d.code.Ordered := fun hk d hd => by
    obtain rfl := Option.some.inj hd
    exact hk
  unfold State.exec
  cases hk : c.code with
  | done a => exact ⟨{ x with call := none }, rfl, rfl, rfl, fun d hd => by cases hd⟩
  | reserve i k =>
    rw [hk] at ho go
    exact ⟨_, rfl, rfl, rfl, go (ho _)⟩
  | handOff q f k =>
    rw [hk] at ho go
    dsimp only
    cases q.queue x.ctx.slots with
    | some q' => exact ⟨_, rfl, rfl, rfl, go ho⟩
    | none => exact ⟨_, rfl, rfl, rfl, fun d hd => by cases hd⟩
  | currentIdle k =>
    rw [hk] at ho go
    exact ⟨_, rfl, rfl, rfl, go (ho _)⟩
  | defaultExecutor k =>
    rw [hk] at ho go
    exact ⟨_, rfl, rfl, rfl, go (ho _)⟩

/-- The entry points in progress are such programs. -/
def State.Ordered (s : State w) : Prop :=
  ∀ x ∈ s.threads, ∀ c, x.call = some c → c.code.Ordered

theorem next_ordered (h : s.Ordered) (hu : Next s e u) : u.Ordered := by
  have set : ∀ {t' : ℕ} {y' : Actor}, (∀ c, y'.call = some c → c.code.Ordered) →
      ∀ x ∈ s.threads.set t' y', ∀ c, x.call = some c → c.code.Ordered := fun {t' y'} hy x hx => by
    rcases List.mem_or_eq_of_mem_set hx with hx | rfl
    · exact h x hx
    · exact hy
  cases hu with
  | build | env | wait | track | dropTask => exact h
  | thread hr =>
    intro x hx c hc
    rcases List.mem_append.mp hx with hx | hx
    · exact h x hx c hc
    · rw [List.mem_singleton.mp hx] at hc
      cases hc
  | act he hx hn ha hc =>
    refine set fun d hd => ?_
    rw [show _ = some d from hd] at hn
    cases hn
  | spawn hx hf hr =>
    refine set fun d hd => ?_
    obtain rfl := Option.some.inj hd
    exact point_ordered _ _ _
  | exec hx hc =>
    obtain ⟨y, hy, -, -, hd⟩ := exec_stage (s := s) (h _ (List.mem_of_getElem? hx) _ hc)
    unfold State.Ordered
    rw [hy]
    exact set fun d hd' => (hd d hd').2

theorem run_ordered {es : List Label} (h : run State.step (start w) es = some s) : s.Ordered := by
  refine run_invariant (P := State.Ordered) (fun a e b ha hb => ?_) ?_ h
  · obtain ⟨u, hu, -, hth, -⟩ := step_parts hb
    have hord := next_ordered ha hu
    unfold State.Ordered at hord ⊢
    rw [hth]
    exact hord
  · exact fun x hx => absurd hx List.not_mem_nil

/-- A frame is left. -/
theorem work_pop {f : Frame} (hn : x.call = none) (hn' : y.call = none)
    (hf : x.ctx.frames = f :: y.ctx.frames) (ha : ActorInv y)
    (hw : ∀ cs, v.waitWork cs ≤ s.waitWork cs) : v.work y < s.work x := by
  have htop : v.topWork y ≤ 31 := topWork_le ha
  have hwait := (hw (calls y.ctx.frames)).trans (waitWork_tail f y.ctx.frames)
  rw [← hf] at hwait
  unfold State.work
  rw [hn, hn', hf, List.length_cons]
  rw [hf] at hwait
  dsimp only
  omega

/-- An operation of an entry point. -/
theorem exec_work {c : SpawnCall} (hx : s.threads[t]? = some x) (hc : x.call = some c)
    (ho : c.code.Ordered) (hv : v.threads = (s.exec t x c).threads)
    (ha : ∀ y ∈ v.threads, ActorInv y) (hw : ∀ cs, v.waitWork cs ≤ s.waitWork cs) :
    ∃ y, v.threads[t]? = some y ∧ v.work y < s.work x := by
  obtain ⟨y, hset, -, hf, hy⟩ := exec_stage (s := s) (t := t) (x := x) ho
  have hget : v.threads[t]? = some y := by
    rw [hv, hset]
    exact List.getElem?_set_self (List.getElem?_eq_some_iff.mp hx).1
  refine ⟨y, hget, ?_⟩
  have hwait := hw (calls x.ctx.frames)
  unfold State.work
  rw [hc, hf]
  dsimp only
  cases hcall : y.call with
  | some d =>
    have hlt := (hy d hcall).1
    dsimp only
    omega
  | none =>
    have htop : v.topWork y ≤ 31 := topWork_le (ha y (List.mem_of_getElem? hget))
    have hstage : 0 < c.code.stage := by
      cases c.code <;> exact Nat.succ_pos _
    dsimp only
    omega

/-- A line of a set-up. -/
theorem setup_work {c d : Call} {g : Guard} {gs : List Guard} {σ ρ : Slots} {fs : List Frame}
    (hs : x.ctx.Settled) (ha : ActorInv x) (hn : x.call = none) (hn' : y.call = none)
    (hx : x.ctx = ⟨σ, .call c :: fs, none⟩) (hy : y.ctx = ⟨ρ, .call d :: fs, none⟩)
    (ht : c.todo = g :: gs) (ht' : d.todo = gs) (hapi : d.api = c.api) (hrt : d.rt = c.rt)
    (hw : ∀ k, loopWork (v.idle k) ≤ loopWork (s.idle k) + 1) : v.work y < s.work x := by
  have hfew := calls_le ha hs
  have hwait := waitWork_le (c :: calls fs) hw
  have hsame : v.waitWork (d :: calls fs) = v.waitWork (c :: calls fs) := by
    unfold State.waitWork
    rw [List.map_cons, List.map_cons, hapi, hrt]
  rw [hx] at hfew
  change (calls fs).length + 1 ≤ 2 at hfew
  rw [List.length_cons] at hwait
  have htop : s.topWork x = 3 * c.todo.length := by rw [State.topWork, hx]
  have htop' : v.topWork y = 3 * d.todo.length := by rw [State.topWork, hy]
  unfold State.work
  rw [hn, hn', htop, htop', hx, hy, ht, ht', List.length_cons]
  change 3 * gs.length + 32 * (fs.length + 1) + v.waitWork (d :: calls fs) <
    3 * (gs.length + 1) + 32 * (fs.length + 1) + s.waitWork (c :: calls fs)
  rw [hsame]
  omega

/-- A load or a receive of a wait. -/
theorem loop_work {c : Call} {l : Idle.Label} (hn : x.call = none) (hc : x.top = some c)
    (hwait : waits c = true) (hi : Idle.Inv (s.idle c.rt.idle)) (hl : l = .load ∨ l = .recv)
    (ho : Operates s v (some (c.rt.idle, l))) : v.work x < s.work x := by
  obtain ⟨hu, fs, hf⟩ := top_frames hc
  have hapi : isWait c.api = true := (Bool.and_eq_true_iff.mp hwait).2
  have hmem : c ∈ calls x.ctx.frames := mem_calls.mpr (by rw [hf]; exact List.mem_cons_self)
  have hlt := waitWork_lt (loop_lt hi ho.1 hl) ho.2 hmem hapi rfl
  have htop : v.topWork x = s.topWork x := by
    unfold State.topWork
    rw [hu, hf]
  unfold State.work
  rw [hn]
  dsimp only
  omega

theorem topWork_poll {k : ℕ} {z : Task} {n : Track} (hu : x.ctx.unwinding = none)
    (hp : s.polling x = some (k, z)) (hn : track z.fut = some n) :
    s.topWork x = match s.phase n with
      | some .resolved => 6
      | some .notifying => 5
      | _ => 0 := by
  obtain ⟨l, b, fs, hf⟩ := polling_frame hp
  unfold State.topWork
  rw [hu, hf]
  dsimp only
  rw [polling_task hp, Option.bind_some, hn, Option.bind_some]

/-- The end of `Track::with`. -/
theorem track_work {k : ℕ} {z : Task} {n : Track} {l : Idle.Label} (ha : ActorInv x)
    (hs : x.ctx.Settled) (hcall : x.call = none) (hu : x.ctx.unwinding = none)
    (hp : s.polling x = some (k, z)) (hn : track z.fut = some n)
    (hl : l = .fetchSub n.index ∨ l = .send n.index) (ht : v.tasks = s.tasks)
    (ho : Operates s v (some (n.idle, l))) : v.work x < s.work x := by
  have hfew := calls_le ha hs
  have hp' : v.polling x = some (k, z) := by
    rw [← hp, State.polling, State.polling, ht]
  have htop := topWork_poll hu hp hn
  have htop' := topWork_poll hu hp' hn
  unfold State.work
  rw [hcall]
  dsimp only
  rcases hl with rfl | rfl
  · obtain ⟨p, p', hph, hph', hadv, -⟩ := operates_track ho rfl
    have hwait := waitWork_le (calls x.ctx.frames) (d := 0) (operates_gain ho fun r l hrl => by
      cases hrl
      exact ⟨by simp, le_rfl⟩)
    rw [hph] at htop
    rw [hph'] at htop'
    cases hadv <;> dsimp only at htop htop' <;> omega
  · obtain ⟨p, p', hph, hph', hadv, -⟩ := operates_track ho rfl
    have hwait := waitWork_le (calls x.ctx.frames) (d := 2) (operates_gain ho fun r l hrl => by
      cases hrl
      exact ⟨by simp, le_rfl⟩)
    rw [hph] at htop
    rw [hph'] at htop'
    cases hadv
    dsimp only at htop htop'
    omega

/-- A return or a panic leaves the innermost frame. -/
theorem step_leaves {th c : Thread} {a : Act} (h : th.step a = some c)
    (ha : a = .ret ∨ a = .unwind) : ∃ f, th.frames = f :: c.frames := by
  cases Context.step_cases h with
  | retCall | retCatching | retPoll | unwindCall | unwindCatching | unwindPoll => exact ⟨_, rfl⟩
  | call | setup | setupPanic | panic | catchUnwind | poll => simp at ha

/-- A line of a set-up, done or refused. -/
theorem line_work {i j : ℕ} {c : Thread} (hx : s.threads[t]? = some x) (hn : x.call = none)
    (hs : x.ctx.Settled) (ha : ActorInv x) (ha' : ActorInv { x with ctx := c })
    (hc : x.ctx.step (.setup i) = some c) (ho : Operates s v (s.effect (.setup t j))) :
    v.work { x with ctx := c } < s.work x := by
  -- what the line does on the tracker of its call
  have eff : ∀ {d g gs}, x.ctx.unwinding = none → (∃ fs, x.ctx.frames = .call d :: fs) →
      d.todo = g :: gs → ∀ r l, s.effect (.setup t j) = some (r, l) →
        l ≠ .recv ∧ gain l ≤ if (g.acquire d.rt x.ctx.slots).1 = none then 1 else 0 :=
    fun {d g gs} hu hf ht r l heff => by
      obtain ⟨fs, hf⟩ := hf
      cases effect_cases heff with
      | polled hop => cases hop
      | setup hx' hc' hl =>
        obtain rfl := Option.some.inj (hx.symm.trans hx')
        obtain rfl : d = _ := Option.some.inj (Eq.trans (by rw [Actor.top, hu, hf]) hc')
        obtain ⟨g', gs', ht', hl⟩ := setupEffect_cases hl
        obtain ⟨rfl, rfl⟩ := List.cons.inj (ht.symm.trans ht')
        rcases hl with ⟨p, n, hp, -, rfl⟩ | ⟨hp, ⟨-, rfl⟩ | ⟨-, ⟨n, -, rfl⟩ | rfl⟩⟩
        · exact ⟨by simp, Nat.zero_le _⟩
        all_goals
          rw [if_pos hp]
          exact ⟨by simp, by simp [gain]⟩
  generalize hth : x.ctx = th at hc
  cases Context.step_cases hc with
  | @setup σ ρ d g gs fs _ hn' hacq =>
    refine setup_work hs ha hn hn hth rfl hn' rfl rfl rfl (operates_gain ho fun r l heff => ?_)
    have h1 := eff (by rw [hth]) ⟨fs, by rw [hth]⟩ hn' r l heff
    rwa [hth, hacq, if_pos rfl] at h1
  | @setupPanic σ ρ d g gs fs _ p hn' hacq =>
    refine work_pop hn hn (by rw [hth]) ha' fun cs => ?_
    have h0 := waitWork_le cs (operates_gain ho fun r l heff => by
      have h1 := eff (by rw [hth]) ⟨fs, by rw [hth]⟩ hn' r l heff
      rwa [hth, hacq, if_neg (by simp)] at h1)
    simpa using h0

/-- Each step of library code that begins no poll leaves less to do. -/
theorem inner_step {es : List Label} (h : run State.step (start w) es = some s)
    (hx : s.threads[t]? = some x) (he : e.inner t) (hv : s.step e = some v) :
    ∃ y, v.threads[t]? = some y ∧ v.work y < s.work x := by
  have hm := List.mem_of_getElem? hx
  have hi := run_inv h
  have hst := (run_stands h).threads x hm
  have hi' := run_inv (run_concat.mpr ⟨s, h, hv⟩)
  obtain ⟨u, hu, ho, hth, hta, -⟩ := step_parts hv
  have quiet : (∀ r l, s.effect e = some (r, l) → l ≠ .recv ∧ gain l ≤ 0) →
      ∀ cs, v.waitWork cs ≤ s.waitWork cs := fun hd cs => by
    simpa using waitWork_le cs (d := 0) (operates_gain ho hd)
  have same : v.threads = s.threads → v.threads[t]? = some x := fun heq => by rw [heq, hx]
  cases hu with
  | build | thread | env | spawn | dropTask => exact he.elim
  | @exec t' x' c hx' hc =>
    obtain rfl : t' = t := he
    obtain rfl := Option.some.inj (hx.symm.trans hx')
    refine exec_work hx hc (run_ordered h x hm c hc) hth hi'.actors (quiet fun r l heff => ?_)
    cases effect_cases heff with
    | reserve | handOff | abandon => exact ⟨by simp, le_rfl⟩
    | polled hop => cases hop
  | @wait t' e x' c hw hx' hc hwait =>
    obtain rfl : t' = t := by rcases hw with rfl | rfl <;> exact he
    obtain rfl := Option.some.inj (hx.symm.trans hx')
    refine ⟨x, same hth, ?_⟩
    have hn := quiet_call hst hc (Or.inr hwait)
    rcases hw with rfl | rfl
    all_goals simp only [State.effect, hx, hc, Option.bind_eq_bind, Option.bind_some] at ho
    · exact loop_work hn hc hwait (idle_inv h _) (Or.inl rfl) ho
    · exact loop_work hn hc hwait (idle_inv h _) (Or.inr rfl) ho
  | @track t' e x' k z hlab hx' hp =>
    refine ⟨x, same hth, ?_⟩
    rcases hlab with rfl | rfl | rfl
    · exact he.elim
    all_goals
      obtain rfl : t' = t := he
      obtain ⟨hcall, hun, k, z, n, hpoll, hn⟩ := step_track (by simp) hx hv
      rw [effect_polling rfl hx hpoll, onTrack, hn] at ho
    · exact track_work (hi.actors x hm) hst.settled hcall hun hpoll hn (Or.inl rfl) hta ho
    · exact track_work (hi.actors x hm) hst.settled hcall hun hpoll hn (Or.inr rfl) hta ho
  | @act t' e x' a c hmv hx' hn ha hc =>
    obtain rfl : t' = t := by
      cases e <;> first | exact he.elim | cases hmv <;> exact he
    obtain rfl := Option.some.inj (hx.symm.trans hx')
    have hget : v.threads[t']? = some { x with ctx := c } := by
      rw [hth]
      exact List.getElem?_set_self (List.getElem?_eq_some_iff.mp hx).1
    have hy := hi'.actors _ (List.mem_of_getElem? hget)
    refine ⟨_, hget, ?_⟩
    have leave : (a = .ret ∨ a = .unwind) →
        (∀ r l, s.effect e = some (r, l) → l ≠ .recv ∧ gain l ≤ 0) →
        v.work { x with ctx := c } < s.work x := fun hleave hd =>
      (step_leaves hc hleave).elim fun f hf => work_pop hn hn hf hy (quiet hd)
    cases e with
    | build | thread | env | call | catchUnwind | panic | poll | pending | ready | spawn
    | dropTask => exact he.elim
    | load | recv | exec | fetchSub | send => cases ha
    | setup i j =>
      obtain rfl : i = t' := he
      obtain ⟨d, hd, ⟨⟩⟩ := Option.bind_eq_some_iff.mp ha
      exact line_work hx hn hst.settled (hi.actors x hm) hy hc ho
    | unwind i =>
      refine leave (Or.inr (Option.some.inj ha).symm) fun r l heff => ?_
      cases effect_cases heff with
      | polled hop =>
        cases hop
        exact ⟨by simp, le_rfl⟩
    | ret i =>
      obtain ⟨-, ⟨⟩⟩ := Option.ite_none_right_eq_some.mp ha
      exact leave (Or.inl rfl) fun r l heff => by cases heff
    | finishPoll i =>
      obtain ⟨⟨k, y⟩, -, ha⟩ := Option.bind_eq_some_iff.mp ha
      obtain ⟨-, ⟨⟩⟩ := Option.ite_none_right_eq_some.mp ha
      exact leave (Or.inl rfl) fun r l heff => by cases heff

end Steps

/-! ### A thread that runs alone -/

/-- Steps of library code that begin no poll keep the process reachable and lower
the weight of their thread. -/
theorem inner_lowers {s v : State w} {e : Label} {t : ℕ}
    (h : (∃ es, run State.step (start w) es = some s) ∧ t < s.threads.length) (he : e.inner t)
    (hv : s.step e = some v) :
    ((∃ es, run State.step (start w) es = some v) ∧ t < v.threads.length) ∧
      ((v.threads[t]?).map v.work).getD 0 < ((s.threads[t]?).map s.work).getD 0 := by
  obtain ⟨⟨es, hs⟩, ht⟩ := h
  have hx := List.getElem?_eq_getElem ht
  obtain ⟨y, hy, hlt⟩ := inner_step hs hx he hv
  refine ⟨⟨⟨es ++ [e], run_concat.mpr ⟨s, hs, hv⟩⟩, (List.getElem?_eq_some_iff.mp hy).1⟩, ?_⟩
  rw [hx, hy]
  exact hlt

/-- A thread in library code can take such a step unless it is at its end. -/
theorem inner_progress {s : State w} {t : ℕ}
    (h : (∃ es, run State.step (start w) es = some s) ∧ t < s.threads.length) :
    (∃ x, s.threads[t]? = some x ∧ (Halts s x ∨ ∃ k u, s.step (.poll t k) = some u)) ∨
      ∃ e u, Label.inner t e ∧ s.step e = some u := by
  obtain ⟨⟨es, hs⟩, ht⟩ := h
  have hx := List.getElem?_eq_getElem ht
  rcases library_progress hs hx with ⟨e, u, hlib, hu⟩ | hhalt
  · cases e with
    | poll i k =>
      obtain rfl : i = t := hlib
      exact Or.inl ⟨_, hx, Or.inr ⟨k, u, hu⟩⟩
    | _ =>
      refine Or.inr ⟨_, u, ?_, hu⟩
      exact hlib
  · exact Or.inl ⟨_, hx, Or.inl hhalt⟩

end TokioCompat.World
