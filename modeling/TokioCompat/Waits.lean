import TokioCompat.CallLog
import TokioCompat.IdleHistory
import TokioCompat.IdleWait
import TokioCompat.Refusal
import TokioCompat.TaskExecutor
import TokioCompat.Tasks
import TokioCompat.WorldContext

/-!
# When a wait for a runtime ends

`shutdown_on_idle` and `run` return when every reservation of their runtime has
been given back, and then without the help of any other thread. Once one
reservation has been lost they never end: nothing wakes the loop for good and
no panic reaches it, so the call stays on its thread in every later state.
-/

namespace TokioCompat.World

open Context Spawn Transition

variable {w : ℕ}

/-! ### The waiter of a runtime -/

/-- With a count above zero only the cancellation of the future ends the loop. -/
theorem step_waits {i j : Idle.State w} {e : Idle.Label} (h : i.step e = some j)
    (hw : i.waiter ≠ .outside) (hs : i.spawned ≠ 0) (he : e ≠ .cancel) : j.waiter ≠ .outside := by
  cases e with
  | reserve parent => obtain ⟨-, -, rfl⟩ := Idle.step_reserve.mp h; exact hw
  | move k m => obtain ⟨-, -, -, -, rfl⟩ := Idle.step_move.mp h; exact hw
  | lose k l => obtain ⟨-, -, -, rfl⟩ := Idle.step_lose.mp h; exact hw
  | fetchSub k =>
    obtain ⟨c, -, -, rfl⟩ := Idle.step_fetchSub.mp h
    rw [Idle.fetchSub_waiter]
    exact hw
  | send k => obtain ⟨-, -, -, rfl⟩ := Idle.step_send.mp h; exact hw
  | cloneIdle => obtain ⟨-, rfl⟩ := Idle.step_cloneIdle.mp h; exact hw
  | dropClone => obtain ⟨-, rfl⟩ := Idle.step_dropClone.mp h; exact hw
  | dropOwn => obtain ⟨-, ho, rfl⟩ := Idle.step_dropOwn.mp h; exact absurd ho hw
  | dropRx => obtain ⟨-, -, rfl⟩ := Idle.step_dropRx.mp h; exact hw
  | callIdle => obtain ⟨-, ho, -⟩ := Idle.step_callIdle.mp h; exact absurd ho hw
  | load =>
    obtain ⟨-, rfl⟩ := Idle.step_load.mp h
    dsimp only
    rw [if_pos hs]
    exact nofun
  | recv => obtain ⟨-, ⟨-, -, rfl⟩ | ⟨-, -, rfl⟩⟩ := Idle.step_recv.mp h <;> exact nofun
  | cancel => exact absurd rfl he

/-- No step of the process cancels the future of a wait. -/
theorem effect_cancel {s v : State w} {e : Label} {r : ℕ} {l : Idle.Label} (hv : s.step e = some v)
    (h : s.effect e = some (r, l)) : l ≠ .cancel := by
  rintro rfl
  generalize hl : Idle.Label.cancel = l at h
  cases effect_cases h with
  | env =>
    subst hl
    obtain ⟨u, hu, -⟩ := step_cases hv
    cases (next_env hu).1
  | setup _ _ hs =>
    subst hl
    obtain ⟨_, _, _, ⟨_, _, _, _, ⟨⟩⟩ | ⟨_, ⟨_, ⟨⟩⟩ | ⟨_, ⟨_, _, ⟨⟩⟩ | ⟨⟨⟩⟩⟩⟩⟩ := setupEffect_cases hs
  | @polled _ _ _ _ _ n _ he =>
    have ht := pollOp_track he n.index
    rw [← hl] at ht
    cases ht
  | _ => cases hl

/-- A waiter of a runtime that has lost a reservation goes on waiting. -/
theorem waiter_kept {s v : State w} {e : Label} {r : ℕ} (hv : s.step e = some v)
    (hs : (s.idle r).spawned ≠ 0) (hw : (s.idle r).waiter ≠ .outside) :
    (v.idle r).waiter ≠ .outside := by
  obtain ⟨ho, -⟩ := step_operates hv
  cases he : s.effect e with
  | none =>
    rw [he] at ho
    rw [show v.idle = s.idle from ho]
    exact hw
  | some kl =>
    obtain ⟨k, l⟩ := kl
    rw [he] at ho
    by_cases hk : r = k
    · subst hk
      exact step_waits ho.1 hw hs (effect_cancel hv he)
    · rw [ho.2 r hk]
      exact hw

theorem lost_mono {s v : State w} {e : Label} (hv : s.step e = some v) (r : ℕ) :
    (s.idle r).lost ≤ (v.idle r).lost := by
  obtain ⟨ho, -⟩ := step_operates hv
  cases he : s.effect e with
  | none =>
    rw [he] at ho
    rw [show v.idle = s.idle from ho]
  | some kl =>
    obtain ⟨k, l⟩ := kl
    rw [he] at ho
    by_cases hk : r = k
    · subst hk
      exact Idle.step_lost_le ho.1
    · rw [ho.2 r hk]

/-- A lost reservation keeps the count of its runtime above zero. -/
theorem lost_spawned {es : List Label} {s : State w} {r : ℕ}
    (h : run State.step (start w) es = some s) (h0 : 0 < (s.idle r).lost)
    (hl : (s.idle r).lost < 2 ^ (w - 1)) : (s.idle r).spawned ≠ 0 := by
  have hi := idle_inv h r
  have ho := Idle.outstanding_lt hi hl
  intro hz
  have hout := (Idle.spawned_zero_iff hi ho).mp hz
  rw [Idle.outstanding_eq] at hout
  unfold Idle.State.lost at h0
  omega

/-! ### The call that waits -/

/-- A thread and what a step does to its frames. -/
theorem next_thread {s u : State w} {e : Label} {t : ℕ} {x : Actor} (hi : Inv s)
    (h : Next s e u) (hx : s.threads[t]? = some x) :
    ∃ y, u.threads[t]? = some y ∧ (y.ctx.frames = x.ctx.frames ∨
      ∃ a, e.mover = some t ∧ s.action x e = some a ∧ x.ctx.step a = some y.ctx) := by
  have set : ∀ {t' : ℕ} {x' y : Actor}, s.threads[t']? = some x' →
      (y.ctx.frames = x'.ctx.frames ∨
        ∃ a, e.mover = some t' ∧ s.action x' e = some a ∧ x'.ctx.step a = some y.ctx) →
      ∃ z, (s.threads.set t' y)[t]? = some z ∧ (z.ctx.frames = x.ctx.frames ∨
        ∃ a, e.mover = some t ∧ s.action x e = some a ∧ x.ctx.step a = some z.ctx) :=
    fun {t' x' y} hx' hy => by
    by_cases ht : t' = t
    · subst ht
      obtain rfl : x = x' := Option.some.inj (hx.symm.trans hx')
      exact ⟨y, setThread_get hx y, hy⟩
    · exact ⟨x, by rw [List.getElem?_set_ne ht, hx], Or.inl rfl⟩
  cases h with
  | build | env | wait | track | dropTask => exact ⟨x, hx, Or.inl rfl⟩
  | thread hr => exact ⟨x, List.getElem?_append_left (List.getElem?_eq_some_iff.mp hx).1 ▸ hx, Or.inl rfl⟩
  | act he hx' hn ha hc => exact set hx' (Or.inr ⟨_, he, ha, hc⟩)
  | spawn hx' hf hr => exact set hx' (Or.inl rfl)
  | @exec t' x' c hx' hc =>
    obtain ⟨y, hy, -, hfr, -⟩ := exec_inv (s := s) (t := t') (hi.actors x' (List.mem_of_getElem? hx')) hc
    rw [hy]
    exact set hx' (Or.inl hfr)

/-- A thread with frames was there before the step. -/
theorem next_thread_back {s u : State w} {e : Label} {t : ℕ} {y : Actor} (hi : Inv s)
    (h : Next s e u) (hy : u.threads[t]? = some y) (hf : y.ctx.frames ≠ []) :
    ∃ x, s.threads[t]? = some x ∧ (y.ctx.frames = x.ctx.frames ∨
      ∃ a, e.mover = some t ∧ s.action x e = some a ∧ x.ctx.step a = some y.ctx) := by
  cases hs : s.threads[t]? with
  | some x =>
    obtain ⟨z, hz, hzf⟩ := next_thread hi h hs
    obtain rfl : y = z := Option.some.inj (hy.symm.trans hz)
    exact ⟨x, rfl, hzf⟩
  | none =>
    have hset : ∀ (t' : ℕ) (z : Actor), (s.threads.set t' z)[t]? ≠ some y := fun t' z he => by
      rw [List.getElem?_eq_none (by rw [List.length_set]; exact List.getElem?_eq_none_iff.mp hs)] at he
      cases he
    cases h with
    | build | env | wait | track | dropTask =>
      rw [show s.threads[t]? = some y from hy] at hs
      cases hs
    | @thread role hr =>
      have hnew : (s.threads ++ [⟨role, ⟨role.slots, [], none⟩, none⟩])[t]? = some y := hy
      rw [List.getElem?_append_right (List.getElem?_eq_none_iff.mp hs)] at hnew
      rw [List.mem_singleton.mp (List.mem_of_getElem? hnew)] at hf
      exact absurd rfl hf
    | act he hx' hn ha hc => exact absurd hy (hset _ _)
    | spawn hx' hf' hr => exact absurd hy (hset _ _)
    | @exec t' x' c hx' hc =>
      obtain ⟨z, hz, -⟩ := exec_inv (s := s) (t := t') (hi.actors x' (List.mem_of_getElem? hx')) hc
      rw [hz] at hy
      exact absurd hy (hset _ _)

/-- A call that waits is left only by returning from it. -/
theorem step_stack {t u : Thread} {a : Act} {c : Call} {pre gs : List Frame}
    (hs : Sheltered t.unwinding.isSome t.frames) (hw : waits c = true)
    (hf : t.frames = pre ++ .call c :: gs) (h : t.step a = some u) (hr : a = .ret → pre ≠ []) :
    ∃ pre', u.frames = pre' ++ .call c :: gs := by
  have hn : c.todo = [] := List.isEmpty_iff.mp (Bool.and_eq_true_iff.mp hw).1
  -- popping a frame other than the call itself
  have pop : ∀ {f : Frame} {fs : List Frame}, f :: fs = pre ++ .call c :: gs →
      (f = .call c → pre ≠ []) → ∃ pre', fs = pre' ++ .call c :: gs := fun {f fs} he hne => by
    cases pre with
    | nil => exact absurd rfl (hne (List.cons.inj he).1)
    | cons f' pre => exact ⟨pre, (List.cons.inj he).2⟩
  cases Context.step_cases h with
  | call hu => exact ⟨_ :: pre, congrArg (List.cons _) hf⟩
  | @setup s v d g rest fs i hn' ha =>
    have hd : Frame.call d ≠ .call c := fun he => by
      rw [Frame.call.inj he, hn] at hn'
      cases hn'
    obtain ⟨pre', he⟩ := pop hf fun he => absurd he hd
    exact ⟨_ :: pre', congrArg (List.cons _) he⟩
  | @setupPanic s v d g rest fs i p hn' ha =>
    have hd : Frame.call d ≠ .call c := fun he => by
      rw [Frame.call.inj he, hn] at hn'
      cases hn'
    exact pop hf fun he => absurd he hd
  | retCall hn' => exact pop hf fun _ => hr rfl
  | retCatching => exact pop hf fun _ => hr rfl
  | retPoll => exact pop hf fun _ => hr rfl
  | panic hu => exact ⟨pre, hf⟩
  | @unwindCall s d fs p =>
    refine pop hf fun he => ?_
    rw [Frame.call.inj he] at hs
    cases hs.1 hw
  | unwindCatching => exact pop hf nofun
  | unwindPoll => exact pop hf nofun
  | catchUnwind hu => exact ⟨_ :: pre, congrArg (List.cons _) hf⟩
  | poll hp => exact ⟨_ :: pre, congrArg (List.cons _) hf⟩

/-- The innermost call returns only when its own `returns` says so. -/
theorem action_ret {s : State w} {x : Actor} {e : Label} {c : Call} {gs : List Frame}
    (h : s.action x e = some .ret) (hf : x.ctx.frames = .call c :: gs) : s.returns x = true := by
  have hp : s.polling x = none := by rw [State.polling, hf]
  cases e with
  | ret t => exact (Option.ite_none_right_eq_some.mp h).1
  | call t api r =>
    obtain ⟨-, ⟨⟩⟩ := Option.ite_none_right_eq_some.mp h
  | catchUnwind t | panic t k =>
    obtain ⟨-, ⟨⟩⟩ := Option.ite_none_right_eq_some.mp h
  | pending t => simp [State.action, hp] at h
  | finishPoll t => simp [State.action, hp] at h
  | setup t u => simp [State.action, Option.bind_eq_some_iff] at h
  | poll t k => simp [State.action, Option.bind_eq_some_iff] at h
  | _ => cases h

/-- A wait returns when the loop in `Rx::idle` has ended. -/
theorem returns_wait {s : State w} {x : Actor} {c : Call} {gs : List Frame} (hw : waits c = true)
    (hf : x.ctx.frames = .call c :: gs) :
    s.returns x = ((s.idle c.rt.idle).waiter == .outside) := by
  obtain ⟨-, hw⟩ := Bool.and_eq_true_iff.mp hw
  rw [State.returns, hf]
  dsimp only
  cases ha : c.api with
  | poolShutdownOnIdle | currentRun => rfl
  | poolEnter | poolBlockOn | currentEnter | currentBlockOn =>
    rw [ha] at hw
    cases hw

/-- No wait for runtime `r` is past its loop. -/
def State.Waiting (s : State w) (r : ℕ) : Prop :=
  ∀ x ∈ s.threads, ∀ c, .call c ∈ x.ctx.frames → waits c = true → c.rt.idle = r →
    (s.idle r).waiter ≠ .outside

/-- A call that begins to wait enters the loop in `Rx::idle`. -/
theorem setup_waits {x : Actor} {c : Call} {g : Guard} {gs : List Guard}
    {fs : List Frame} {σ : Slots} {i : ℕ} (ha : ActorInv x)
    (hf : x.ctx.frames = .call c :: fs) (hn : c.todo = g :: gs)
    (hacq : g.acquire c.rt x.ctx.slots = (none, σ))
    (hw : waits { c with held := g :: c.held, todo := gs,
                         track := if g = .reserve then some i else c.track } = true)
    (parent : Option ℕ) : setupEffect c x.ctx.slots parent = some .callIdle := by
  obtain ⟨hgs, hapi⟩ := Bool.and_eq_true_iff.mp hw
  have hgs : gs = [] := List.isEmpty_iff.mp hgs
  subst hgs
  have ho : c.held.reverse ++ [g] = c.api.setup := by
    rw [← hn]
    exact ha.ctx.ordered c (by rw [hf]; exact List.mem_cons_self)
  have hg : g ≠ .reserve := by
    rintro rfl
    have hm : Guard.reserve ∈ c.api.setup := by
      rw [← ho]
      exact List.mem_append_right _ (List.mem_singleton_self _)
    dsimp only at hapi
    cases hc : c.api <;> rw [hc] at hapi hm <;> first | exact absurd hm (by decide) | cases hapi
  unfold setupEffect
  rw [hn]
  dsimp only
  rw [hacq]
  dsimp only
  rw [if_neg hg, if_pos rfl]
  unfold body
  dsimp only at hapi
  cases hc : c.api <;> rw [hc] at hapi <;> first | rfl | cases hapi

theorem setup_ne_nil (a : Api) : a.setup ≠ [] := by cases a <;> exact List.cons_ne_nil _ _

theorem action_setup {s : State w} {x : Actor} {e : Label} {t i : ℕ} (ht : e.mover = some t)
    (h : s.action x e = some (.setup i)) : ∃ u, e = .setup t u := by
  cases e with
  | setup t' u =>
    cases ht
    exact ⟨u, rfl⟩
  | call | catchUnwind | panic | ret =>
    obtain ⟨-, ⟨⟩⟩ := Option.ite_none_right_eq_some.mp h
  | pending | poll | finishPoll =>
    simp [State.action, Option.bind_eq_some_iff] at h
  | _ => cases h

/-- While a reservation is lost, no wait gets past its loop. -/
theorem step_waiting {s v : State w} {e : Label} {r : ℕ} (hi : Inv s) (hv : s.step e = some v)
    (hs : (s.idle r).spawned ≠ 0) (hw : s.Waiting r) : v.Waiting r := by
  intro y hy c hc hwait hr
  obtain ⟨u, hu, ho, hthreads, -, -, -⟩ := step_parts hv
  rw [hthreads] at hy
  -- calls that were there before the step
  have old : ∀ x ∈ s.threads, .call c ∈ x.ctx.frames → (v.idle r).waiter ≠ .outside :=
    fun x hx hc => waiter_kept hv hs (hw x hx c hc hwait hr)
  cases hu with
  | build | env | wait | track | dropTask => exact old y hy hc
  | thread hk =>
    rcases List.mem_append.mp hy with hy | hy
    · exact old y hy hc
    · rw [List.mem_singleton.mp hy] at hc
      cases hc
  | @spawn t p k f x hx hf hrec =>
    rcases List.mem_or_eq_of_mem_set hy with hy | rfl
    · exact old y hy hc
    · exact old x (List.mem_of_getElem? hx) hc
  | @exec t x d hx hd =>
    have hm := List.mem_of_getElem? hx
    obtain ⟨z, hz, -, hfr, -⟩ := exec_inv (s := s) (t := t) (hi.actors x hm) hd
    rw [hz] at hy
    rcases List.mem_or_eq_of_mem_set hy with hy | rfl
    · exact old y hy hc
    · exact old x hm (hfr ▸ hc)
  | @act t e x a ctx hmov hx hn ha hstep =>
    have hm := List.mem_of_getElem? hx
    rcases List.mem_or_eq_of_mem_set hy with hy | rfl
    · exact old y hy hc
    · have hax := hi.actors x hm
      obtain ⟨role, ⟨slots, frames, unwinding⟩, call⟩ := x
      cases Context.step_cases hstep with
      | call hu =>
        rcases List.mem_cons.mp hc with he | hc
        · rw [Frame.call.inj he] at hwait
          exact absurd hwait (by simp [waits, setup_ne_nil])
        · exact old _ hm hc
      | @setup _ σ d g gs fs i hn' hacq =>
        rcases List.mem_cons.mp hc with he | hc
        · -- the call has just come to its body
          rw [Frame.call.inj he] at hwait hr
          obtain ⟨u', rfl⟩ := action_setup hmov ha
          have heff := setup_effect (u := u') hx (c := d) rfl
          rw [setup_waits hax rfl hn' hacq hwait] at heff
          rw [heff] at ho
          obtain ⟨-, -, hcheck⟩ := Idle.step_callIdle.mp ho.1
          rw [← hr, ← hcheck]
          exact nofun
        · exact old _ hm (List.mem_cons_of_mem _ hc)
      | setupPanic | retCall | retCatching | retPoll | unwindCall | unwindCatching | unwindPoll =>
        exact old _ hm (List.mem_cons_of_mem _ hc)
      | panic hu => exact old _ hm hc
      | catchUnwind hu => exact old _ hm ((List.mem_cons.mp hc).resolve_left nofun)
      | poll hp => exact old _ hm ((List.mem_cons.mp hc).resolve_left nofun)

/-- What a run keeps once a reservation is lost. -/
theorem run_waiting {es fs : List Label} {m v : State w} {r : ℕ}
    (h : run State.step (start w) es = some m) (h0 : 0 < (m.idle r).lost) (hw : m.Waiting r)
    (h1 : run State.step m fs = some v) (hl : (v.idle r).lost < 2 ^ (w - 1)) :
    v.Waiting r ∧ (v.idle r).spawned ≠ 0 := by
  have key : (v.idle r).lost < 2 ^ (w - 1) → v.Waiting r ∧ 0 < (v.idle r).lost := by
    refine run_history (P := fun _ b => (b.idle r).lost < 2 ^ (w - 1) → b.Waiting r ∧ 0 < (b.idle r).lost)
      (fun _ => ⟨hw, h0⟩) ?_ h1
    intro xs b e b' hb ih he hb'
    have hle := lost_mono he r
    obtain ⟨hwb, hpos⟩ := ih (lt_of_le_of_lt hle hb')
    have hrun : run State.step (start w) (es ++ xs) = some b := by
      rw [run_append, h]
      exact hb
    have hs := lost_spawned hrun hpos (lt_of_le_of_lt hle hb')
    exact ⟨step_waiting (run_inv hrun) he hs hwb, lt_of_lt_of_le hpos hle⟩
  obtain ⟨hwv, hpos⟩ := key hl
  have hrun : run State.step (start w) (es ++ fs) = some v := by
    rw [run_append, h]
    exact h1
  exact ⟨hwv, lost_spawned hrun hpos hl⟩

/-- A step leaves a call in its loop where it is. -/
theorem step_hangs {s v : State w} {e : Label} {t : ℕ} {x : Actor} {c : Call}
    {pre rest : List Frame} (hi : Inv s) (hst : Stands s) (hv : s.step e = some v)
    (hx : s.threads[t]? = some x) (hf : x.ctx.frames = pre ++ .call c :: rest)
    (hc : waits c = true) (hw : (s.idle c.rt.idle).waiter ≠ .outside) :
    ∃ y pre', v.threads[t]? = some y ∧ y.ctx.frames = pre' ++ .call c :: rest := by
  obtain ⟨u, hu, -, hthreads, -, -, -⟩ := step_parts hv
  obtain ⟨y, hy, hfr | ⟨a, -, ha, hstep⟩⟩ := next_thread hi hu hx
  · exact ⟨y, pre, by rw [hthreads, hy], hfr.trans hf⟩
  · have hsh := (hst.threads x (List.mem_of_getElem? hx)).sheltered
    obtain ⟨pre', hp⟩ := step_stack hsh hc hf hstep fun hret hpre => by
      rw [hpre] at hf
      rw [hret] at ha
      have hr := action_ret ha hf
      rw [returns_wait hc hf] at hr
      exact hw (beq_iff_eq.mp hr)
    exact ⟨y, pre', by rw [hthreads, hy], hp⟩

/-- In every run of the process, once runtime `r` has lost a reservation while no
wait for it was about to return, no `shutdown_on_idle` or `run` on `r` ever
ends: from the moment such a call waits it stays on its thread's stack. -/
theorem wait_hangs {es fs gs : List Label} {m v s : State w} {r t : ℕ} {x : Actor} {c : Call}
    {pre rest : List Frame} (h : run State.step (start w) es = some m)
    (h0 : 0 < (m.idle r).lost) (hw : m.Waiting r) (h1 : run State.step m fs = some v)
    (h2 : run State.step v gs = some s) (hl : (s.idle r).lost < 2 ^ (w - 1))
    (hx : v.threads[t]? = some x) (hf : x.ctx.frames = pre ++ .call c :: rest)
    (hc : waits c = true) (hr : c.rt.idle = r) :
    ∃ y pre', s.threads[t]? = some y ∧ y.ctx.frames = pre' ++ .call c :: rest := by
  revert hl
  refine run_history (P := fun _ s => (s.idle r).lost < 2 ^ (w - 1) →
    ∃ y pre', s.threads[t]? = some y ∧ y.ctx.frames = pre' ++ .call c :: rest)
    (fun _ => ⟨x, pre, hx, hf⟩) ?_ h2
  intro ys b e b' hb ih he hb'
  have hbl := lt_of_le_of_lt (lost_mono he r) hb'
  obtain ⟨y, pre', hy, hfy⟩ := ih hbl
  have hmb : run State.step m (fs ++ ys) = some b := by
    rw [run_append, h1]
    exact hb
  have hrun : run State.step (start w) (es ++ (fs ++ ys)) = some b := by
    rw [run_append, h]
    exact hmb
  have hwb := (run_waiting h h0 hw hmb hbl).1 y (List.mem_of_getElem? hy) c
    (by rw [hfy]; exact List.mem_append_right _ List.mem_cons_self) hc hr
  exact step_hangs (run_inv hrun) (run_stands hrun) he hy hfy hc (hr ▸ hwb)

/-- A task of a thread pool is dropped by the executor, then the pool is shut down. -/
theorem wait_hangs_run :
    ∃ m v s x c, run State.step (start 64) [.build .threadPool,
        .thread (.program none none none false false), .spawn 0 .poolSpawn 0 0, .exec 0, .exec 0,
        .exec 0, .dropTask 0] = some m ∧
      run State.step m (.call 0 .poolShutdownOnIdle 0 :: List.replicate 5 (.setup 0 0)) = some v ∧
      run State.step v [.load 0] = some s ∧ v.threads[0]? = some x ∧
      x.ctx.frames = [.call c] ∧ waits c = true ∧
      ∃ y pre', s.threads[0]? = some y ∧ y.ctx.frames = pre' ++ [.call c] := by
  refine ⟨_, _, _, _, _, rfl, rfl, rfl, rfl, rfl, rfl, ?_⟩
  refine @wait_hangs 64 [.build .threadPool,
    .thread (.program none none none false false), .spawn 0 .poolSpawn 0 0, .exec 0, .exec 0,
    .exec 0, .dropTask 0] (.call 0 .poolShutdownOnIdle 0 :: List.replicate 5 (.setup 0 0)) [.load 0]
    _ _ _ 0 0 _ _ [] [] rfl (by decide) ?_ rfl rfl (by decide) rfl rfl rfl rfl
  intro x hx c hc
  rw [List.mem_singleton.mp hx] at hc
  exact absurd hc List.not_mem_nil

/-! ### What a return certifies -/

/-- A call that waits after a step waited before it, or has just come to its body. -/
theorem stack_back {t u : Thread} {a : Act} {c : Call} {pre gs : List Frame} (hw : waits c = true)
    (hf : u.frames = pre ++ .call c :: gs) (h : t.step a = some u) :
    (∃ pre', t.frames = pre' ++ .call c :: gs) ∨
      ∃ d g rest i, a = .setup i ∧ t.unwinding = none ∧ t.frames = .call d :: gs ∧
        d.todo = g :: rest ∧ (g.acquire d.rt t.slots).1 = none ∧
        c = { d with held := g :: d.held, todo := rest,
                     track := if g = .reserve then some i else d.track } := by
  -- pushing a frame other than the call itself
  have push : ∀ {f : Frame} {fs : List Frame}, f :: fs = pre ++ .call c :: gs → f ≠ .call c →
      ∃ pre', fs = pre' ++ .call c :: gs := fun {f fs} he hne => by
    cases pre with
    | nil => exact absurd (List.cons.inj he).1 hne
    | cons f' pre => exact ⟨pre, (List.cons.inj he).2⟩
  have pop : ∀ {f : Frame} {fs : List Frame}, fs = pre ++ .call c :: gs →
      ∃ pre', f :: fs = pre' ++ .call c :: gs := fun {f fs} he =>
    ⟨f :: pre, congrArg (List.cons f) he⟩
  cases Context.step_cases h with
  | @call _ api rt hu =>
    refine Or.inl (push hf fun he => ?_)
    rw [← Frame.call.inj he] at hw
    exact absurd hw (by simp [waits, setup_ne_nil])
  | @setup s v d g rest fs i hn ha =>
    cases pre with
    | nil =>
      obtain ⟨hd, rfl⟩ := List.cons.inj hf
      exact Or.inr ⟨d, g, rest, i, rfl, rfl, rfl, hn, by rw [ha], (Frame.call.inj hd).symm⟩
    | cons f pre => exact Or.inl ⟨.call d :: pre, congrArg (List.cons _) (List.cons.inj hf).2⟩
  | setupPanic | retCall | retCatching | retPoll | unwindCall | unwindCatching | unwindPoll =>
    exact Or.inl (pop hf)
  | panic hu => exact Or.inl ⟨pre, hf⟩
  | catchUnwind hu => exact Or.inl (push hf nofun)
  | poll hp => exact Or.inl (push hf nofun)

/-- In the run along `es` from `a` there was an instant at which the call `c` was on
the stack of thread `t` and the count of its runtime was zero. -/
def Certified (a : State w) (es : List Label) (t : ℕ) (c : Call) (gs : List Frame) : Prop :=
  ∃ m y pre, Visits State.step a es m ∧ m.threads[t]? = some y ∧
    y.ctx.frames = pre ++ .call c :: gs ∧ (m.idle c.rt.idle).spawned = 0

/-- A task whose reservation has been counted down has resolved. -/
theorem fits_decremented {a : Status} {p : Idle.Phase} (h : a.fits p = true)
    (hd : p.decremented = true) : a = .running ∨ a = .resolved := by
  cases a with
  | running => exact Or.inl rfl
  | resolved => exact Or.inr rfl
  | waiting | dropped | panicked =>
    cases p <;> first | exact absurd h (by decide) | exact absurd hd (by decide)

/-- A wait that gets past its loop has seen the count at zero. -/
theorem step_certified {a s v : State w} {es : List Label} {e : Label} {t : ℕ} {gs : List Frame}
    (hi : Inv s) (hs : run State.step a es = some s) (hv : s.step e = some v)
    (ih : ∀ x c pre, s.threads[t]? = some x → x.ctx.frames = pre ++ .call c :: gs →
      waits c = true → (s.idle c.rt.idle).waiter = .outside → Certified a es t c gs)
    {y : Actor} {c : Call} {pre : List Frame} (hy : v.threads[t]? = some y)
    (hf : y.ctx.frames = pre ++ .call c :: gs) (hw : waits c = true)
    (ho : (v.idle c.rt.idle).waiter = .outside) : Certified a (es ++ [e]) t c gs := by
  -- the call waited in `s` already
  have old : ∀ x pre', s.threads[t]? = some x → x.ctx.frames = pre' ++ .call c :: gs →
      Certified a (es ++ [e]) t c gs := fun x pre' hx hfx => by
    by_cases hout : (s.idle c.rt.idle).waiter = .outside
    · obtain ⟨m, z, pre'', hm, hz⟩ := ih x c pre' hx hfx hw hout
      exact ⟨m, z, pre'', visits_append hm [e], hz⟩
    · refine ⟨s, x, pre', visits_append (visits_last hs) [e], hx, hfx, ?_⟩
      by_contra hne
      exact waiter_kept hv hne hout ho
  obtain ⟨u, hu, hop, hthreads, -, -, -⟩ := step_parts hv
  rw [hthreads] at hy
  have hne : y.ctx.frames ≠ [] := by
    rw [hf]
    exact List.append_ne_nil_of_right_ne_nil _ (List.cons_ne_nil _ _)
  obtain ⟨x, hx, hfr | ⟨act, hmov, ha, hstep⟩⟩ := next_thread_back hi hu hy hne
  · exact old x pre hx (hfr ▸ hf)
  · rcases stack_back hw hf hstep with ⟨pre', hfx⟩ | ⟨d, g, rest, i, rfl, hp, hfx, hn, hacq, hc⟩
    · exact old x pre' hx hfx
    · -- the call has just come to its body and is still in its loop
      obtain ⟨u', rfl⟩ := action_setup hmov ha
      have htop : x.top = some d := by rw [Actor.top, hp, hfx]
      have hrt : c.rt = d.rt := by rw [hc]
      have heff := setup_effect (u := u') hx htop
      rw [hc] at hw
      rw [setup_waits (hi.actors x (List.mem_of_getElem? hx)) hfx hn
        (Prod.ext_iff.mpr ⟨hacq, rfl⟩) hw] at heff
      rw [heff] at hop
      obtain ⟨-, -, hcheck⟩ := Idle.step_callIdle.mp hop.1
      rw [hrt, ← hcheck] at ho
      cases ho

/-- A call that was made after `a` and has got past its loop. -/
theorem run_certified {xs ys : List Label} {a s : State w} {t : ℕ} {z x : Actor} {c : Call}
    (h : run State.step (start w) xs = some a) (hz : a.threads[t]? = some z)
    (h2 : run State.step a ys = some s) (hx : s.threads[t]? = some x)
    (hf : x.ctx.frames = .call c :: z.ctx.frames) (hw : waits c = true)
    (ho : (s.idle c.rt.idle).waiter = .outside) : Certified a ys t c z.ctx.frames := by
  have key : ∀ x c pre, s.threads[t]? = some x → x.ctx.frames = pre ++ .call c :: z.ctx.frames →
      waits c = true → (s.idle c.rt.idle).waiter = .outside →
      Certified a ys t c z.ctx.frames := by
    refine run_history (P := fun ys s => ∀ x c pre, s.threads[t]? = some x →
      x.ctx.frames = pre ++ .call c :: z.ctx.frames → waits c = true →
      (s.idle c.rt.idle).waiter = .outside → Certified a ys t c z.ctx.frames) ?_ ?_ h2
    · -- the stack at the start is too short for the call
      intro x c pre hx hf
      obtain rfl : z = x := Option.some.inj (hz.symm.trans hx)
      have hlen := congrArg List.length hf
      rw [List.length_append, List.length_cons] at hlen
      omega
    · intro ys s e u hs ih hu x c pre hx hf hw ho
      have hrun : run State.step (start w) (xs ++ ys) = some s := by
        rw [run_append, h]
        exact hs
      exact step_certified (run_inv hrun) hs hu ih hx hf hw ho
  exact key x c [] hx hf hw ho

/-- A reservation that has been counted down stays so. -/
theorem run_decremented {a s : State w} {es : List Label} (h : run State.step a es = some s)
    {n : Track} (ha : ∃ p, a.phase n = some p ∧ p.decremented = true) :
    ∃ p, s.phase n = some p ∧ p.decremented = true := by
  refine run_invariant (P := fun s => ∃ p, s.phase n = some p ∧ p.decremented = true)
    (fun s e t ⟨p, hp, hd⟩ ht => ?_) ha h
  obtain ⟨ho, -⟩ := step_operates ht
  cases he : s.effect e with
  | none =>
    rw [he] at ho
    exact ⟨p, by rw [State.phase, show t.idle = s.idle from ho]; exact hp, hd⟩
  | some kl =>
    obtain ⟨k, l⟩ := kl
    rw [he] at ho
    cases hl : l.track with
    | none =>
      rcases operates_other ho hl n with hs | ⟨hs, -⟩
      · exact ⟨p, hs.trans hp, hd⟩
      · rw [hs] at hp
        cases hp
    | some i =>
      obtain ⟨q, q', hq, hq', hadv, hother⟩ := operates_track (n := ⟨k, i⟩) ho hl
      by_cases hn : n = ⟨k, i⟩
      · subst hn
        obtain rfl := Option.some.inj (hp.symm.trans hq)
        exact ⟨q', hq', Idle.advances_decremented hadv hd⟩
      · exact ⟨p, (hother n hn).trans hp, hd⟩

/-- Tasks stay where they were queued. -/
theorem run_tasks {a s : State w} {es : List Label} (h : run State.step a es = some s) {z : Task}
    (hz : z ∈ a.tasks) : ∃ y ∈ s.tasks, y.queue = z.queue ∧ y.fut = z.fut :=
  run_invariant (P := fun s : State w => s.happened (.handOff z.queue z.fut))
    (fun _ _ _ hs ht => step_happened ht hs) ⟨z, hz, rfl, rfl⟩ h

/-- In every run of the process, a `shutdown_on_idle` or `run` that is called in the
state `a` returns only after an instant during the call at which every reservation
made so far on its runtime had been counted down. Every counted task that was
handed over before the call has therefore resolved when it returns; none was
dropped, panicked or is still waiting. -/
theorem wait_after_tasks {xs ys : List Label} {a s v : State w} {t : ℕ} {z x : Actor} {c : Call}
    (h : run State.step (start w) xs = some a) (hz : a.threads[t]? = some z)
    (h2 : run State.step a ys = some s) (hx : s.threads[t]? = some x)
    (hf : x.ctx.frames = .call c :: z.ctx.frames) (hw : waits c = true)
    (hv : s.step (.ret t) = some v) (hl : (s.idle c.rt.idle).lost < 2 ^ (w - 1)) :
    (∃ m y pre, Visits State.step a ys m ∧ m.threads[t]? = some y ∧
        y.ctx.frames = pre ++ .call c :: z.ctx.frames ∧
        ∀ n p, m.phase n = some p → n.idle = c.rt.idle → p.decremented = true) ∧
      ∀ b ∈ a.tasks, ∀ n, track b.fut = some n → n.idle = c.rt.idle →
        ∃ y ∈ s.tasks, y.queue = b.queue ∧ y.fut = b.fut ∧
          (y.status = .running ∨ y.status = .resolved) := by
  have hrun : run State.step (start w) (xs ++ ys) = some s := by
    rw [run_append, h]
    exact h2
  have hout : (s.idle c.rt.idle).waiter = .outside := by
    obtain ⟨u, hu, -⟩ := step_parts hv
    cases hu with
    | wait he => rcases he with he | he <;> cases he
    | track he => rcases he with he | he | he <;> cases he
    | act he hx' hn ha hc =>
      cases he
      obtain rfl := Option.some.inj (hx.symm.trans hx')
      obtain ⟨hret, -⟩ := Option.ite_none_right_eq_some.mp ha
      rw [returns_wait hw hf] at hret
      exact beq_iff_eq.mp hret
  obtain ⟨m, y, pre, hm, hy, hfy, hzero⟩ := run_certified h hz h2 hx hf hw hout
  obtain ⟨us, vs, rfl, hus⟩ := id hm
  have hvs : run State.step m vs = some s := by
    rw [run_append, hus] at h2
    exact h2
  have hmrun : run State.step (start w) (xs ++ us) = some m := by
    rw [run_append, h]
    exact hus
  have hlm : (m.idle c.rt.idle).lost < 2 ^ (w - 1) := by
    refine lt_of_le_of_lt ?_ hl
    exact run_invariant (P := fun b => (m.idle c.rt.idle).lost ≤ (b.idle c.rt.idle).lost)
      (fun _ _ _ hb he => hb.trans (lost_mono he _)) le_rfl hvs
  have hi := idle_inv hmrun c.rt.idle
  have hnone := (Idle.spawned_zero_iff hi (Idle.outstanding_lt hi hlm)).mp hzero
  have hdone : ∀ n p, m.phase n = some p → n.idle = c.rt.idle → p.decremented = true := by
    intro n p hp hn
    obtain ⟨k, hk, rfl⟩ := Option.map_eq_some_iff.mp hp
    rw [hn] at hk
    have hno := Idle.phaseIs_of_phases_zero hnone n.index
    rw [Idle.phaseIs_of_tracks hk] at hno
    cases hph : k.phase <;> rw [hph] at hno <;> first | rfl | cases hno
  refine ⟨⟨m, y, pre, hm, hy, hfy, hdone⟩, fun b hb n hn hr => ?_⟩
  obtain ⟨b', hb', -, hfut⟩ := run_tasks hus hb
  obtain ⟨y', hy', hq, hfut'⟩ := run_tasks h2 hb
  refine ⟨y', hy', hq, hfut', ?_⟩
  have owned : ∀ {u : State w} {d : Task} {zs : List Label}, run State.step (start w) zs = some u →
      d ∈ u.tasks → d.fut = b.fut → ∃ p, u.phase n = some p ∧ d.status.fits p = true := by
    intro u d zs hu hd hfd
    obtain ⟨k, hk⟩ := List.getElem?_of_mem hd
    exact (run_taskInv hu).fits k n _ (owner_task hk (hfd ▸ hn))
  obtain ⟨p, hp, -⟩ := owned hmrun hb' hfut
  obtain ⟨q, hq, hqd⟩ := run_decremented hvs ⟨p, hp, hdone n p hp hr⟩
  obtain ⟨q', hq', hfit⟩ := owned hrun hy' hfut'
  obtain rfl := Option.some.inj (hq.symm.trans hq')
  exact fits_decremented hfit hqd

/-- A thread pool with one task on a worker. -/
def oneTask : List Label :=
  [.build .threadPool, .thread (.worker 0), .thread (.program none none none false false),
    .spawn 1 .poolSpawn 0 0, .exec 1, .exec 1, .exec 1]

/-- The pool is shut down and the task runs. -/
def shutdownOneTask : List Label :=
  [.call 1 .poolShutdownOnIdle 0, .setup 1 0, .setup 1 0, .setup 1 0, .setup 1 0, .setup 1 0,
    .load 1, .poll 0 0, .ready 0, .fetchSub 0, .send 0, .finishPoll 0]

theorem wait_after_tasks_run :
    ∃ a s v z x c, run State.step (start 64) oneTask = some a ∧ a.threads[1]? = some z ∧
      run State.step a (shutdownOneTask ++ [.recv 1, .load 1]) = some s ∧
      s.threads[1]? = some x ∧ x.ctx.frames = .call c :: z.ctx.frames ∧
      s.step (.ret 1) = some v ∧
      (∃ m y pre, Visits State.step a (shutdownOneTask ++ [.recv 1, .load 1]) m ∧
          m.threads[1]? = some y ∧ y.ctx.frames = pre ++ .call c :: z.ctx.frames ∧
          ∀ n p, m.phase n = some p → n.idle = c.rt.idle → p.decremented = true) ∧
        ∀ b ∈ a.tasks, ∀ n, track b.fut = some n → n.idle = c.rt.idle →
          ∃ y ∈ s.tasks, y.queue = b.queue ∧ y.fut = b.fut ∧
            (y.status = .running ∨ y.status = .resolved) := by
  refine ⟨_, _, _, _, _, _, rfl, rfl, rfl, rfl, rfl, rfl, ?_⟩
  exact @wait_after_tasks 64 oneTask (shutdownOneTask ++ [.recv 1, .load 1]) _ _ _ 1 _ _ _ rfl rfl
    rfl rfl rfl rfl rfl (by decide)

/-! ### The call that returns -/

/-- The loop in `Rx::idle`, run by thread `t`. -/
def onThread (t : ℕ) : Idle.Label → Label
  | .load => .load t
  | _ => .recv t

section Returns

variable {s : State w} {t : ℕ} {x : Actor} {c : Call}

/-- One operation of the loop changes the idle tracker and nothing else. -/
theorem wait_step {l : Idle.Label} {i : Idle.State w} (hx : s.threads[t]? = some x)
    (hc : x.top = some c) (hw : waits c = true) (hl : l = .load ∨ l = .recv)
    (hi : (s.idle c.rt.idle).step l = some i) :
    s.step (onThread t l) = some (s.setIdle c.rt.idle i) := by
  rcases hl with rfl | rfl <;>
    simp only [onThread, State.step, State.next, State.effect, hx, hc, hw, if_true, hi,
      Option.bind_eq_bind, Option.bind_some, Option.pure_def]

/-- The loop runs on its thread as it does on the tracker. -/
theorem wait_run {ws : List Idle.Label} {i : Idle.State w} (hx : s.threads[t]? = some x)
    (hc : x.top = some c) (hw : waits c = true) (hl : ∀ l ∈ ws, l = .load ∨ l = .recv)
    (hi : run Idle.State.step (s.idle c.rt.idle) ws = some i) :
    run State.step s (ws.map (onThread t)) = some (s.setIdle c.rt.idle i) := by
  induction ws generalizing s with
  | nil =>
    obtain rfl := Option.some.inj hi
    exact congrArg some (setIdle_same s c.rt.idle).symm
  | cons l ws ih =>
    obtain ⟨j, hj, hi⟩ := run_cons.mp hi
    have hstep := wait_step hx hc hw (hl l List.mem_cons_self) hj
    have hrest := ih (s := s.setIdle c.rt.idle j) hx (fun k hk => hl k (List.mem_cons_of_mem l hk))
      (by rw [setIdle_self]; exact hi)
    rw [setIdle_setIdle] at hrest
    exact run_cons.mpr ⟨_, hstep, hrest⟩

/-- The call returns once its loop has ended. -/
theorem wait_returns {fs : List Frame} (ha : ActorInv x) (hx : s.threads[t]? = some x)
    (hn : x.call = none) (hf : x.ctx.frames = .call c :: fs) (hp : x.ctx.unwinding = none)
    (hw : waits c = true) (ho : (s.idle c.rt.idle).waiter = .outside) :
    s.step (.ret t) = some (s.setThread t { x with ctx := ⟨c.before, fs, none⟩ }) := by
  have hret : s.returns x = true := by
    rw [returns_wait hw hf, ho]
    rfl
  have hfr := ha.ctx.framed
  rw [hf] at hfr
  have htodo : c.todo = [] := List.isEmpty_iff.mp (Bool.and_eq_true_iff.mp hw).1
  have hstep : x.ctx.step .ret = some ⟨c.before, fs, none⟩ := by
    obtain ⟨role, ⟨slots, frames, unwinding⟩, call⟩ := x
    obtain rfl : frames = .call c :: fs := hf
    obtain rfl : unwinding = none := hp
    change (if c.todo = [] then some (⟨c.leave slots, fs, none⟩ : Thread) else none) = _
    rw [if_pos htodo, leave_framed hfr]
  simp [State.step, State.next, State.effect, State.act, State.action, State.retask, hx, hn, hret,
    hstep]
  rfl

end Returns

end TokioCompat.World
