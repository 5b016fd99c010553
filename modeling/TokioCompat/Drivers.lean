import TokioCompat.Roots

/-!
# Somebody can poll each waiting future

The future of a `block_on` that has not come to its end belongs to a call that
is still on the stack of its thread. A future in a `LocalSet` belongs to a
current-thread runtime, so a call that drives the runtime polls it too.
-/

namespace TokioCompat.World

open Context Spawn Transition

variable {w : ℕ}

/-- The call `c` on thread `t` has the future of `y` in its hands. -/
structure Calls (s : State w) (t : ℕ) (y : Task) (x : Actor) (c : Call) : Prop where
  thread : s.threads[t]? = some x
  stacked : .call c ∈ x.ctx.frames
  todo : c.todo = []
  track : ∃ n, c.track = some n ∧ track y.fut = some ⟨c.rt.idle, n⟩

/-- What holds of the waiting futures. -/
structure Queued (s : State w) : Prop where
  called : ∀ {k t : ℕ} {y : Task}, s.tasks[k]? = some y → y.queue = .root t →
    y.status = .waiting ∨ y.status = .running → ∃ x c, Calls s t y x c
  localSet : ∀ {k l : ℕ} {y : Task}, s.tasks[k]? = some y → y.queue = .localSet l →
    isCurrentThread s.kinds l = true

section Step

variable {s u v : State w} {e : Label} {t k : ℕ} {x : Actor} {y z : Task} {c : Call}

/-- A call whose set-up is done stays until it is left as the innermost frame. -/
theorem step_keeps {th th' : Thread} {a : Act} (h : th.step a = some th')
    (hc : .call c ∈ th.frames) (ht : c.todo = []) :
    .call c ∈ th'.frames ∨ ∃ fs, th.frames = .call c :: fs ∧
      (a = .ret ∨ (a = .unwind ∧ th.unwinding ≠ none)) := by
  have line : ∀ {d : Call} {g : Guard} {gs : List Guard} {fs : List Frame}, d.todo = g :: gs →
      .call c ∈ Frame.call d :: fs → .call c ∈ fs := fun {d g gs fs} hd hm => by
    rcases List.mem_cons.mp hm with he | hm
    · cases he
      rw [hd] at ht
      cases ht
    · exact hm
  cases Context.step_cases h with
  | call | catchUnwind | poll => exact Or.inl (List.mem_cons_of_mem _ hc)
  | panic => exact Or.inl hc
  | setup hn => exact Or.inl (List.mem_cons_of_mem _ (line hn hc))
  | setupPanic hn => exact Or.inl (line hn hc)
  | retCall =>
    rcases List.mem_cons.mp hc with he | hc
    · cases he
      exact Or.inr ⟨_, rfl, Or.inl rfl⟩
    · exact Or.inl hc
  | unwindCall =>
    rcases List.mem_cons.mp hc with he | hc
    · cases he
      exact Or.inr ⟨_, rfl, Or.inr ⟨rfl, Option.some_ne_none _⟩⟩
    · exact Or.inl hc
  | retCatching | retPoll | unwindCatching | unwindPoll =>
    rcases List.mem_cons.mp hc with he | hc
    · cases he
    · exact Or.inl hc

/-- A future that is still on its way was so before. -/
theorem turns_back (hP : Polling s) (hy : s.tasks[k]? = some y) (h : Turns s e k y z)
    (hz : z.status = .waiting ∨ z.status = .running) :
    z.queue = y.queue ∧ z.fut = y.fut ∧ (y.status = .waiting ∨ y.status = .running) := by
  cases h with
  | same => exact ⟨rfl, rfl, hz⟩
  | begins he hw => exact ⟨rfl, rfl, Or.inl hw⟩
  | ends hend =>
    obtain ⟨i, x, l, b, fs, -, hx, hf⟩ := hend
    obtain ⟨y', hy', hrun⟩ := hP.running hx (k := k) (by
      rw [hf]
      exact List.mem_cons_self)
    obtain rfl := Option.some.inj (hy.symm.trans hy')
    exact ⟨rfl, rfl, Or.inr hrun⟩
  | drops => rcases hz with hz | hz <;> cases hz

/-- A new future is handed over by an entry point or by a set-up line. -/
theorem next_new (hu : Next s e u) (hz : u.tasks[k]? = some z) (hk : s.tasks[k]? = none) :
    (∃ (t : ℕ) (x : Actor) (c : SpawnCall) (q : Target) (f : Fut) (j : Unit → Code Reply),
      s.threads[t]? = some x ∧ x.call = some c ∧ c.code = .handOff q f j ∧
      q.queue x.ctx.slots = some z.queue) ∨
    ∃ t i, e = .setup t i ∧ z ∈ s.root t i := by
  have same : u.tasks = s.tasks → False := fun he => by
    rw [he, hk] at hz
    cases hz
  have marked : ∀ {j p}, u.tasks = s.mark j p → False := fun {j p} he => by
    rw [he, State.mark, List.getElem?_modify, hk] at hz
    cases hz
  have ended : ∀ {x p}, u.tasks = s.endPoll x p → False := fun {x p} he => by
    rw [State.endPoll] at he
    split at he
    · exact marked he
    · exact same he
  cases hu with
  | build | thread | env | wait | track | spawn => exact (same rfl).elim
  | dropTask => exact (marked rfl).elim
  | @act t e x a c he hx =>
    cases e with
    | setup i j =>
      refine Or.inr ⟨i, j, rfl, ?_⟩
      have hz' : (s.tasks ++ s.root i j)[k]? = some z := hz
      rw [List.getElem?_append_right (List.getElem?_eq_none_iff.mp hk)] at hz'
      exact List.mem_of_getElem? hz'
    | poll => exact (marked rfl).elim
    | pending | finishPoll | unwind => exact (ended rfl).elim
    | _ => exact (same rfl).elim
  | @exec t x c hx hc =>
    cases hcode : c.code with
    | handOff q f j =>
      refine Or.inl ⟨t, x, c, q, f, j, hx, hc, hcode, ?_⟩
      cases hq : q.queue x.ctx.slots with
      | none => exact (same (by rw [State.exec, hcode]; dsimp only; rw [hq]; rfl)).elim
      | some q' =>
        have hz' : (s.tasks ++ [⟨q', f, .waiting⟩])[k]? = some z := by
          rw [← hz, State.exec, hcode]
          dsimp only
          rw [hq]
          rfl
        rw [List.getElem?_append_right (List.getElem?_eq_none_iff.mp hk)] at hz'
        rw [List.mem_singleton.mp (List.mem_of_getElem? hz')]
    | _ => exact (same (by rw [State.exec, hcode]; rfl)).elim

/-- A set-up line hands the future of a `block_on` to the call. -/
theorem root_called {i : ℕ} {a : Act} {c' : Thread} (hi : ActorInv x)
    (hx : s.threads[t]? = some x) (ha : s.action x (.setup t i) = some a)
    (hc : x.ctx.step a = some c') (hz : z ∈ s.root t i) :
    z.queue = .root t ∧ ∃ d, .call d ∈ c'.frames ∧ d.todo = [] ∧
      ∃ n, d.track = some n ∧ track z.fut = some ⟨d.rt.idle, n⟩ := by
  obtain ⟨d, hd, ⟨⟩⟩ := Option.bind_eq_some_iff.mp ha
  obtain ⟨hun, fs, hf⟩ := top_frames hd
  unfold State.root at hz
  split at hz
  next r n heff =>
    obtain rfl := List.mem_singleton.mp hz
    refine ⟨rfl, ?_⟩
    generalize hlabel : Idle.Label.move n .handOff = l at heff
    cases effect_cases heff with
    | setup hx' hd' hl =>
      rw [← hlabel] at hl
      obtain rfl := Option.some.inj (hx.symm.trans hx')
      obtain rfl := Option.some.inj (hd.symm.trans hd')
      obtain ⟨g, gs, ht, ⟨_, _, -, -, hl⟩ | ⟨hacq, ⟨-, hl⟩ | ⟨rfl, ⟨m, hm, hl⟩ | hl⟩⟩⟩ :=
        setupEffect_cases hl <;> cases hl
      have hg : g ≠ .reserve := by
        rintro rfl
        have hord := hi.ctx.ordered d (by
          rw [hf]
          exact List.mem_cons_self)
        exact (reserve_once hord ht).2 rfl
      generalize hth : x.ctx = th at hc hf hacq
      cases Context.step_cases hc with
      | setup hn ha' =>
        cases hf
        obtain ⟨rfl, rfl⟩ := List.cons.inj (ht.symm.trans hn)
        exact ⟨_, List.mem_cons_self, rfl, n, (if_neg hg).trans hm, rfl⟩
      | setupPanic hn ha' =>
        cases hf
        obtain ⟨rfl, rfl⟩ := List.cons.inj (ht.symm.trans hn)
        rw [ha'] at hacq
        cases hacq
    | polled hop => cases hop
  next => cases hz

end Step

end TokioCompat.World
