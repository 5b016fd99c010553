import TokioCompat.IdleWait
import TokioCompat.Leak
import TokioCompat.TaskExecutor
import TokioCompat.Tasks
import TokioCompat.WorldContext

/-!
# Calls that are refused

Whether a call into a runtime reaches its body is decided by the slots of its
thread as the call begins, whatever the other threads do meanwhile. A refused
call gives the slots back and touches nothing but its own reservation: where
the reservation precedes the line that panics, one is made and lost. That is
every `block_on` of a thread pool from within another runtime.
-/

namespace TokioCompat.World

open Context Spawn Transition

variable {w : ℕ}

/-- From `s` to `t` runtime `r` lost one reservation if `b`, and nothing else
happened to the idle trackers. -/
structure Abandons (r : ℕ) (b : Bool) (s t : State w) : Prop where
  others : ∀ k, k ≠ r ∨ b = false → t.idle k = s.idle k
  count : (t.idle r).spawned = (s.idle r).spawned
  lost : (t.idle r).lost = (s.idle r).lost + b.toNat

/-- The innermost call of a thread, with what holds of its set-up. -/
theorem top_call {x : Actor} {c : Call} {fs : List Frame} (ha : ActorInv x)
    (hf : x.ctx.frames = .call c :: fs) :
    c.Ordered ∧ (guards c.rt).Held c.before c.held x.ctx.slots := by
  have hfr := ha.ctx.framed
  rw [hf] at hfr
  exact ⟨ha.ctx.ordered c (by rw [hf]; exact List.mem_cons_self), hfr.2⟩

/-- The operation of a set-up line on the idle tracker. -/
theorem setup_effect {s : State w} {t u : ℕ} {x : Actor} {c : Call}
    (hx : s.threads[t]? = some x) (hc : x.top = some c) :
    s.effect (.setup t u) =
      (setupEffect c x.ctx.slots (s.parent x c.rt.idle)).map fun l => (c.rt.idle, l) := by
  simp only [State.effect, hx, hc, Option.bind_eq_bind, Option.bind_some, Option.pure_def]
  cases setupEffect c x.ctx.slots (s.parent x c.rt.idle) <;> rfl

/-- A set-up line that panics loses the reservation made before it, if any. -/
theorem setupEffect_panic {c : Call} {s v : Slots} {parent : Option ℕ} {g : Guard}
    {gs : List Guard} {p : Panic} (hn : c.todo = g :: gs) (ha : g.acquire c.rt s = (some p, v)) :
    setupEffect c s parent = c.track.map fun n => .lose n .abandoned := by
  unfold setupEffect
  rw [hn]
  dsimp only
  rw [ha]

/-- Only the last set-up line of a `block_on` hands its future over. -/
theorem root_nil {s : State w} {t u : ℕ}
    (h : ∀ r n, s.effect (.setup t u) ≠ some (r, .move n .handOff)) : s.root t u = [] := by
  unfold State.root
  split
  next r n he => exact absurd he (h r n)
  next => rfl

/-- What a set-up line does to its thread. -/
theorem setup_thread {s v : State w} {t u : ℕ} {x : Actor} (hx : s.threads[t]? = some x)
    (hv : s.step (.setup t u) = some v) :
    ∃ c fs g gs y, x.ctx.frames = .call c :: fs ∧ x.top = some c ∧ c.todo = g :: gs ∧
      v.threads[t]? = some y ∧ v.tasks = s.tasks ++ s.root t u ∧
      ((∃ σ i, g.acquire c.rt x.ctx.slots = (none, σ) ∧ y.ctx = ⟨σ, .call
          { c with held := g :: c.held, todo := gs,
                   track := if g = .reserve then some i else c.track } :: fs, none⟩) ∨
        ∃ p σ, g.acquire c.rt x.ctx.slots = (some p, σ) ∧ y.ctx = ⟨c.leave σ, fs, some p⟩) := by
  obtain ⟨m, hm, -, hthreads, htasks, -, -⟩ := step_parts hv
  cases hm with
  | wait he => rcases he with he | he <;> cases he
  | track he => rcases he with he | he | he <;> cases he
  | @act t' _ x' a ctx ht hx' hn ha hc =>
    obtain rfl : t = t' := Option.some.inj ht
    obtain rfl : x = x' := Option.some.inj (hx.symm.trans hx')
    obtain ⟨c, hc', ha⟩ := Option.bind_eq_some_iff.mp ha
    obtain rfl := Option.some.inj ha
    have hy : v.threads[t]? = some { x with ctx := ctx } := by
      rw [hthreads]
      exact setThread_get hx _
    obtain ⟨role, ⟨slots, frames, unwinding⟩, call⟩ := x
    cases Context.step_cases hc with
    | @setup _ σ d g gs fs i hn' ha' =>
      exact ⟨d, fs, g, gs, _, rfl, rfl, hn', hy, htasks, Or.inl ⟨σ, _, ha', rfl⟩⟩
    | @setupPanic _ σ d g gs fs i p hn' ha' =>
      exact ⟨d, fs, g, gs, _, rfl, rfl, hn', hy, htasks, Or.inr ⟨p, σ, ha', rfl⟩⟩

/-- A panic of the set-up loses the reservation made before it. -/
theorem panic_abandons {s v : State w} {r : ℕ} {n : Option ℕ}
    (h : Operates s v (n.map fun i => (r, .lose i .abandoned))) :
    Abandons r n.isSome s v := by
  cases n with
  | none => exact ⟨fun k _ => by rw [show v.idle = s.idle from h], by rw [show v.idle = s.idle from h],
      by rw [show v.idle = s.idle from h]; rfl⟩
  | some i =>
    obtain ⟨hl, ho⟩ := h
    refine ⟨fun k hk => ?_, (Idle.step_lose_live hl).1, Idle.step_lose_lost hl⟩
    rcases hk with hk | hk
    · exact ho k hk
    · cases hk

/-! ### A refused call that nothing interrupts -/

theorem setIdle_same (s : State w) (r : ℕ) : s.setIdle r (s.idle r) = s := by
  have hs : (fun k => if k = r then s.idle r else s.idle k) = s.idle := by
    funext k
    by_cases hk : k = r
    · rw [if_pos hk, hk]
    · rw [if_neg hk]
  rw [State.setIdle, hs]

theorem setIdle_setIdle (s : State w) (r : ℕ) (i j : Idle.State w) :
    (s.setIdle r i).setIdle r j = s.setIdle r j := by
  have hs : (fun k => if k = r then j else if k = r then i else s.idle k) =
      fun k => if k = r then j else s.idle k := by
    funext k
    by_cases hk : k = r
    · rw [if_pos hk, if_pos hk]
    · rw [if_neg hk, if_neg hk, if_neg hk]
  rw [State.setIdle, State.setIdle, State.setIdle, hs]

theorem setThread_setThread (s : State w) (t : ℕ) (x y : Actor) :
    (s.setThread t x).setThread t y = s.setThread t y := by
  rw [State.setThread, State.setThread, State.setThread, List.set_set]

section Uninterrupted

variable {s : State w} {t u : ℕ} {x : Actor} {c : Call} {fs : List Frame} {σ : Slots}
  {v : Thread} {l : Option Idle.Label} {i : Idle.State w}

/-- A set-up line that hands no future over, with its operation on the idle tracker. -/
theorem setup_step (hx : s.threads[t]? = some x) (hn : x.call = none)
    (hctx : x.ctx = ⟨σ, .call c :: fs, none⟩)
    (hv : x.ctx.step (.setup (s.idle c.rt.idle).tracks.length) = some v)
    (hl : setupEffect c σ (s.parent x c.rt.idle) = l) (hr : ∀ n, l ≠ some (.move n .handOff))
    (hi : run Idle.State.step (s.idle c.rt.idle) l.toList = some i) :
    s.step (.setup t u) = some ((s.setThread t { x with ctx := v }).setIdle c.rt.idle i) := by
  have htop : x.top = some c := by rw [Actor.top, hctx]
  have heff : s.effect (.setup t u) = l.map fun l => (c.rt.idle, l) := by
    rw [setup_effect hx htop, hctx, hl]
  have hroot : s.root t u = [] := root_nil fun r n he => by
    rw [heff] at he
    obtain ⟨l', hl', he⟩ := Option.map_eq_some_iff.mp he
    rw [(Prod.mk.inj he).2] at hl'
    exact hr n hl'
  have hnext : s.next (.setup t u) = some (s.setThread t { x with ctx := v }) := by
    simp only [State.next, State.act, hx, hn, State.action, htop, hv, State.retask, hroot,
      Option.bind_eq_bind, Option.bind_some, Option.pure_def, Option.isSome_none,
      Bool.false_eq_true, if_false, List.append_nil]
    rfl
  rw [State.step, hnext, heff]
  cases l with
  | none =>
    obtain rfl := Option.some.inj hi
    exact congrArg some (setIdle_same (s.setThread t { x with ctx := v }) c.rt.idle).symm
  | some l =>
    rw [Option.toList_some, run_single] at hi
    simp only [Option.map_some, Option.bind_eq_bind, Option.bind_some, hi, Option.pure_def]

/-- The operations of the rest of a refused set-up on the idle tracker, where the
reservation made so far is `track` and `b` says that the set-up makes one. -/
def abandonOps (b : Bool) (parent : Option ℕ) (n : ℕ) (track : Option ℕ) : List Idle.Label :=
  match track with
  | some k => [.lose k .abandoned]
  | none => if b then [.reserve parent, .lose n .abandoned] else []

/-- A set-up line that succeeds, and is not the last one, reserves or leaves the
idle tracker alone. -/
theorem setup_succeeds {m : Idle.State w} {c : Call} {σ ρ : Slots} {f g : Guard}
    {gs : List Guard} {parent : Option ℕ} (htodo : c.todo = f :: gs)
    (ha : f.acquire c.rt σ = (none, ρ)) (hgs : gs ≠ [])
    (hb : f = .reserve → c.track = none ∧ c.api.reservesBefore g = true)
    (hcan : c.track = none → m.CanClone)
    (hcell : ∀ n, c.track = some n → ∃ a, m.tracks[n]? = some ⟨a, .reserved⟩)
    (hp : m.ParentPolling parent) :
    ∃ (l : Option Idle.Label) (i : Idle.State w), setupEffect c σ parent = l ∧
      (∀ n, l ≠ some (.move n .handOff)) ∧ run Idle.State.step m l.toList = some i ∧
      ((if f = .reserve then some m.tracks.length else c.track) = none → i.CanClone) ∧
      (∀ n, (if f = .reserve then some m.tracks.length else c.track) = some n →
        ∃ a, i.tracks[n]? = some ⟨a, .reserved⟩) ∧
      ∀ q, ∃ q', abandonOps (c.api.reservesBefore g) q' m.tracks.length c.track = l.toList ++
        abandonOps (c.api.reservesBefore g) q i.tracks.length
          (if f = .reserve then some m.tracks.length else c.track) := by
  have hl : setupEffect c σ parent = if f = .reserve then some (.reserve parent) else none := by
    unfold setupEffect
    rw [htodo]
    dsimp only
    rw [ha]
    dsimp only
    rw [if_neg hgs]
  by_cases hf : f = .reserve
  · obtain ⟨htr, hres⟩ := hb hf
    simp only [if_pos hf] at hl ⊢
    refine ⟨_, m.reserve parent, hl, fun n => nofun, ?_, nofun, fun n hn => ?_, fun q => ⟨parent, ?_⟩⟩
    · rw [Option.toList_some, run_single]
      exact Idle.step_reserve.mpr ⟨hcan htr, hp, rfl⟩
    · obtain rfl := Option.some.inj hn
      exact ⟨parent, List.getElem?_concat_length⟩
    · rw [htr, hres]
      rfl
  · simp only [if_neg hf] at hl ⊢
    exact ⟨none, m, hl, fun n => nofun, rfl, hcan, hcell, fun q => ⟨q, rfl⟩⟩

/-- The set-up of a refused call runs to its panic. The induction is on the lines
still to run; the call stays refused at the same line. -/
theorem refused_run {s : State w} {t u : ℕ} {x : Actor} {c : Call} {fs : List Frame} {σ : Slots}
    {g : Guard} {p : Panic} (hx : s.threads[t]? = some x) (hn : x.call = none)
    (hctx : x.ctx = ⟨σ, .call c :: fs, none⟩)
    (hi : Context.Inv x.role.slots ⟨σ, .call c :: fs, none⟩)
    (hres : Thread.Reserved ⟨σ, .call c :: fs, none⟩) (hr : c.api.refusal c.before = some (g, p))
    (hcan : c.track = none → (s.idle c.rt.idle).CanClone)
    (hcell : ∀ n, c.track = some n → ∃ a, (s.idle c.rt.idle).tracks[n]? = some ⟨a, .reserved⟩) :
    ∃ k parent i, run State.step s (List.replicate k (.setup t u)) =
        some ((s.setThread t { x with ctx := ⟨c.before, fs, some p⟩ }).setIdle c.rt.idle i) ∧
      run Idle.State.step (s.idle c.rt.idle) (abandonOps (c.api.reservesBefore g) parent
        (s.idle c.rt.idle).tracks.length c.track) = some i := by
  generalize htodo : c.todo = todo
  induction todo generalizing s x c σ with
  | nil =>
    have hnone := (call_accepted (hi.ordered c List.mem_cons_self) hi.framed.2 htodo).1
    rw [hr] at hnone
    cases hnone
  | cons f gs ih =>
    have hfr := hi.framed
    have ho : c.Ordered := hi.ordered c List.mem_cons_self
    have htr : c.track.isSome = c.held.contains .reserve := hres c List.mem_cons_self
    cases ha : f.acquire c.rt σ with
    | mk o ρ =>
      cases o with
      | some q =>
        -- the line that panics
        obtain ⟨hq, hb⟩ := call_refusal ho hfr.2 htodo ha
        obtain ⟨rfl, rfl⟩ := Prod.mk.inj (Option.some.inj (hr.symm.trans hq))
        have hleave := (setupPanic_restores (role_idle x.role) hi.ordered hfr htodo ha).1
        have hv : x.ctx.step (.setup (s.idle c.rt.idle).tracks.length) =
            some ⟨c.before, fs, some p⟩ := by
          simp only [hctx, Thread.step, Call.setup, htodo, ha, hleave]
        have hl : setupEffect c σ (s.parent x c.rt.idle) = _ :=
          setupEffect_panic htodo ha
        obtain ⟨i, hi'⟩ : ∃ i, run Idle.State.step (s.idle c.rt.idle)
            (c.track.map fun n => Idle.Label.lose n .abandoned).toList = some i := by
          cases hk : c.track with
          | none => exact ⟨_, rfl⟩
          | some n =>
            obtain ⟨a, hn'⟩ := hcell n hk
            exact ⟨_, (run_single _ _ _).trans (Idle.step_lose.mpr ⟨_, hn', rfl, rfl⟩)⟩
        have hstep := setup_step (u := u) hx hn hctx hv hl (fun n he => by
          obtain ⟨k, -, he⟩ := Option.map_eq_some_iff.mp he
          cases he) hi'
        refine ⟨1, none, i, by rw [List.replicate_one, run_single]; exact hstep, ?_⟩
        cases hk : c.track with
        | none =>
          rw [hk] at htr hi'
          rw [hb, ← htr]
          exact hi'
        | some n =>
          rw [hk] at hi'
          exact hi'
      | none =>
        -- the line succeeds, so it is not the last one
        let d : Call := { c with
          held := f :: c.held
          todo := gs
          track := if f = .reserve then some (s.idle c.rt.idle).tracks.length else c.track }
        have hv : x.ctx.step (.setup (s.idle c.rt.idle).tracks.length) =
            some ⟨ρ, .call d :: fs, none⟩ := by
          simp only [hctx, Thread.step, Call.setup, htodo, ha, d]
        rw [hctx] at hv
        have hi' := Context.step_inv (role_idle x.role) hi hv
        have hres' := step_reserved hres hv
        have hfr' := hi'.framed
        have ho' : d.Ordered := hi'.ordered d List.mem_cons_self
        have hgs : gs ≠ [] := fun hg => by
          have hnone := (call_accepted ho' hfr'.2 hg).1
          rw [hr] at hnone
          cases hnone
        have hb : f = .reserve → c.track = none ∧ c.api.reservesBefore g = true := by
          rintro rfl
          constructor
          · have hd := (setup_order c.api).2.2.1
            rw [← ho, htodo] at hd
            have hfresh : Guard.reserve ∉ c.held := fun hm =>
              (List.nodup_append.mp hd).2.2 _ (List.mem_reverse.mpr hm) _ List.mem_cons_self rfl
            rw [← Option.not_isSome_iff_eq_none, htr, List.contains_iff_mem]
            exact hfresh
          · exact held_reservesBefore (c := d) ho' hfr'.2 hr List.mem_cons_self
        obtain ⟨l, i, hl, hlm, hrun, hcan', hcell', hops⟩ := setup_succeeds htodo ha hgs hb hcan
          hcell (parent_polling s x c.rt.idle)
        have hstep := setup_step (u := u) hx hn hctx (hctx ▸ hv) hl hlm hrun
        obtain ⟨k, parent, j, hk, hj⟩ := ih (c := d) (x := { x with ctx := ⟨ρ, .call d :: fs, none⟩ })
          (s := (s.setThread t { x with ctx := ⟨ρ, .call d :: fs, none⟩ }).setIdle c.rt.idle i)
          (setThread_get hx _) hn rfl hi' hres' hr (fun h => by rw [setIdle_self]; exact hcan' h)
          (fun n h => by rw [setIdle_self]; exact hcell' n h) rfl
        rw [setIdle_self] at hj
        obtain ⟨q, hq⟩ := hops parent
        refine ⟨k + 1, q, j, ?_, ?_⟩
        · rw [List.replicate_succ]
          refine run_cons.mpr ⟨_, hstep, hk.trans (congrArg some ?_)⟩
          change (((s.setThread t _).setThread t _).setIdle c.rt.idle i).setIdle c.rt.idle j = _
          rw [setIdle_setIdle, setThread_setThread]
        · rw [hq, run_append, hrun]
          exact hj

end Uninterrupted

/-- A call that is refused ends in its panic when nothing interrupts it; all that
it changes besides is its reservation, where it makes one. -/
theorem refused_call {es : List Label} {s : State w} {t u r : ℕ} {x : Actor} {api : Api}
    {g : Guard} {p : Panic} (h : run State.step (start w) es = some s)
    (hx : s.threads[t]? = some x) (hf : s.free x = true)
    (hk : s.kinds[r]? = some (kindOf api)) (hown : (s.idle r).own = true)
    (hc : (s.idle r).arcs ≤ Idle.isizeMax w) (hr : api.refusal x.ctx.slots = some (g, p)) :
    ∃ k parent i, run State.step s (.call t api r :: List.replicate k (.setup t u)) =
        some ((s.setThread t { x with ctx := { x.ctx with unwinding := some p } }).setIdle r i) ∧
      run Idle.State.step (s.idle r) (abandonOps (api.reservesBefore g) parent
        (s.idle r).tracks.length none) = some i := by
  obtain ⟨hnone, hu, -⟩ : x.call = none ∧ x.ctx.userCode = true ∧ True := by
    obtain ⟨hb, -⟩ := Bool.and_eq_true_iff.mp hf
    exact ⟨Option.isNone_iff_eq_none.mp (Bool.and_eq_true_iff.mp hb).1, free_userCode hf, trivial⟩
  have hq : x.ctx.unwinding = none := by
    rw [Thread.userCode, Bool.and_eq_true] at hu
    exact Option.isNone_iff_eq_none.mp hu.1
  let c : Call := ⟨api, ofId r, [], api.setup, none, x.ctx.slots⟩
  let y : Actor := { x with ctx := ⟨x.ctx.slots, .call c :: x.ctx.frames, none⟩ }
  have hstep : x.ctx.step (.call api (ofId r)) = some y.ctx := by
    rw [Thread.step, if_pos hu, hq]
  have hcall : s.step (.call t api r) = some (s.setThread t y) := by
    simp [State.step, State.next, State.effect, State.act, State.action, State.retask, hx, hnone,
      hf, hk, hown, hstep, y]
    rfl
  have hm := List.mem_of_getElem? hx
  have hi := Context.step_inv (role_idle x.role) ((run_inv h).actors x hm).ctx hstep
  have hres := step_reserved ((run_stands h).threads x hm).reserved hstep
  obtain ⟨k, parent, i, hrun, hops⟩ := refused_run (u := u) (setThread_get hx y) hnone rfl hi hres hr
    (fun _ => ⟨Or.inl hown, hc⟩) (fun n hn => by cases hn)
  refine ⟨k, parent, i, run_cons.mpr ⟨_, hcall, hrun.trans (congrArg some ?_)⟩, hops⟩
  rw [setThread_setThread]
  rfl

/-- The panic of a call on a thread where the context of a runtime is in force. -/
def nested (a : Api) (s : Slots) : Panic :=
  if a.currentThread then (if s.entered01 then .enterError else .reactorSet) else .timerSet

/-- A default executor of this library means the context of a runtime, and there
every call is refused. -/
theorem refusal_in_context {x : Actor} {sp : CompatSpawner} (ha : ActorInv x)
    (hs : x.ctx.Settled) (hu : x.ctx.userCode = true)
    (he : x.ctx.slots.executor = some (.compat sp)) (api : Api) :
    ∃ g, api.refusal x.ctx.slots = some (g, nested api x.ctx.slots) ∧
      api.reservesBefore g = (api == .poolBlockOn) := by
  obtain ⟨p, -, -, hp⟩ := actor_stand ha hs hu
  have hhome : p.home ≠ none := fun hn => by
    have hex := stand_executor p
    rw [hn, ← hp, he] at hex
    rcases home_none hn with hr | ⟨k, hr⟩
    · rw [hr] at hex
      cases hex
    · rw [hr] at hex
      cases hex
  obtain ⟨r, hr⟩ := Option.ne_none_iff_exists'.mp hhome
  obtain ⟨ht, hre⟩ := stand_drivers hr
  rw [hp, refusal_set ht hre]
  cases api <;> cases hent : p.slots.entered01 <;>
    simp [nested, Api.currentThread, Api.reservesBefore, Api.setup, hent]

/-- A loss that follows its reservation leaves the count one higher. -/
theorem abandoned_count {m i : Idle.State w} {parent : Option ℕ}
    (h : run Idle.State.step m [.reserve parent, .lose m.tracks.length .abandoned] = some i) :
    i.spawned = m.spawned + 1 ∧ i.lost = m.lost + 1 ∧
      i.phases Idle.Phase.live = m.phases Idle.Phase.live := by
  obtain ⟨j, hj, hi⟩ := run_cons.mp h
  rw [run_single] at hi
  obtain ⟨-, -, rfl⟩ := Idle.step_reserve.mp hj
  obtain ⟨hs, hl⟩ := Idle.step_lose_live hi
  have hlost := Idle.step_lose_lost hi
  have hr : (m.reserve parent).phases (· == .lost) = m.phases (· == .lost) :=
    Idle.phases_append _ rfl
  have hlive : (m.reserve parent).phases Idle.Phase.live = m.phases Idle.Phase.live + 1 :=
    Idle.phases_append _ rfl
  refine ⟨hs, ?_, by omega⟩
  rw [Idle.State.lost, hlost, hr]
  rfl

end TokioCompat.World
