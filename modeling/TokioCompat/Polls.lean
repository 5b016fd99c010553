import TokioCompat.Homes
import TokioCompat.Waits

/-!
# Every poll has its future to itself

The futures on the stacks of the threads are the ones that are being polled:
no two polls are of the same future. While the code of a tracked future runs, or
a call or a panic goes on inside it, its reservation is in the phase in which a
panic may still lose it; only the poll that is about to return has left it.
-/

namespace TokioCompat.World

open Context Spawn Transition

variable {w : ℕ}

/-- The futures whose polls are on a stack. -/
def polled (fs : List Frame) : List ℕ :=
  fs.filterMap fun
    | .poll k _ _ => some k
    | .call _ | .catching => none

theorem mem_polled {k : ℕ} {fs : List Frame} : k ∈ polled fs ↔ ∃ l b, .poll k l b ∈ fs := by
  rw [polled, List.mem_filterMap]
  constructor
  · rintro ⟨f, hf, hk⟩
    cases f with
    | poll j l b =>
      cases hk
      exact ⟨l, b, hf⟩
    | call | catching => cases hk
  · rintro ⟨l, b, hf⟩
    exact ⟨_, hf, rfl⟩

/-- The poll of `k` is the innermost frame and nothing goes on inside it. -/
def Actor.Resting (x : Actor) (k : ℕ) : Prop :=
  x.call = none ∧ x.ctx.unwinding = none ∧ ∃ l b fs, x.ctx.frames = .poll k l b :: fs

/-- What holds of all polls. -/
structure Polling (s : State w) : Prop where
  running : ∀ {t k : ℕ} {x : Actor}, s.threads[t]? = some x → k ∈ polled x.ctx.frames →
    ∃ y, s.tasks[k]? = some y ∧ y.status = .running
  stacked : ∀ {k : ℕ} {y : Task}, s.tasks[k]? = some y → y.status = .running →
    ∃ (t : ℕ) (x : Actor), s.threads[t]? = some x ∧ k ∈ polled x.ctx.frames
  once : ∀ {t : ℕ} {x : Actor}, s.threads[t]? = some x → (polled x.ctx.frames).Nodup
  exclusive : ∀ {t t' k : ℕ} {x x' : Actor}, s.threads[t]? = some x →
    s.threads[t']? = some x' → k ∈ polled x.ctx.frames → k ∈ polled x'.ctx.frames → t = t'
  phase : ∀ {t k : ℕ} {x : Actor} {y : Task} {n : Track}, s.threads[t]? = some x →
    k ∈ polled x.ctx.frames → s.tasks[k]? = some y → track y.fut = some n →
    x.Resting k ∨ s.phase n = some .polling

/-! ### What a step does to one thread -/

/-- How the thread `t` can look after a step. -/
inductive Moves (s : State w) (e : Label) (t : ℕ) (x : Actor) : Actor → Prop
  | still (he : e.mover ≠ some t) : Moves s e t x x
  | act {a c} (he : e.mover = some t) (hn : x.call = none) (ha : s.action x e = some a)
    (hc : x.ctx.step a = some c) : Moves s e t x { x with ctx := c }
  | spawn {d p r k} (he : e = .spawn t p r k) (hf : s.free x = true) :
    Moves s e t x { x with call := some d }
  | exec {c y} (he : e = .exec t) (hc : x.call = some c) (hf : y.ctx.frames = x.ctx.frames)
    (hu : y.ctx.unwinding = none → x.ctx.unwinding = none) : Moves s e t x y

/-- Each thread moves in one of these ways. -/
theorem next_moves {s u : State w} {e : Label} (h : Next s e u) {t : ℕ} {x : Actor}
    (hx : s.threads[t]? = some x) : ∃ y, u.threads[t]? = some y ∧ Moves s e t x y := by
  have moved : ∀ {t' : ℕ} {x' y : Actor}, s.threads[t']? = some x' → Moves s e t' x' y →
      (e.mover = none ∨ e.mover = some t') →
      ∃ z, (s.threads.set t' y)[t]? = some z ∧ Moves s e t x z := fun {t' x' y} hx' hm he => by
    by_cases ht : t' = t
    · subst ht
      obtain rfl := Option.some.inj (hx.symm.trans hx')
      exact ⟨y, setThread_get hx y, hm⟩
    · refine ⟨x, by rw [List.getElem?_set_ne ht, hx], .still fun hmv => ?_⟩
      rcases he with he | he <;> rw [he] at hmv <;> cases hmv
      exact ht rfl
  cases h with
  | build | env | dropTask => exact ⟨x, hx, .still (by simp [Label.mover])⟩
  | wait he => exact ⟨x, hx, .still (by rcases he with rfl | rfl <;> simp [Label.mover])⟩
  | track he => exact ⟨x, hx, .still (by rcases he with rfl | rfl | rfl <;> simp [Label.mover])⟩
  | thread hr =>
    exact ⟨x, List.getElem?_append_left (List.getElem?_eq_some_iff.mp hx).1 ▸ hx,
      .still (by simp [Label.mover])⟩
  | act he hx' hn ha hc => exact moved hx' (.act he hn ha hc) (Or.inr he)
  | spawn hx' hf hr => exact moved hx' (.spawn rfl hf) (Or.inl rfl)
  | @exec t' x' c hx' hc =>
    obtain ⟨y, hy, hf, hu⟩ : ∃ y, (s.exec t' x' c).threads = s.threads.set t' y ∧
        y.ctx.frames = x'.ctx.frames ∧ (y.ctx.unwinding = none → x'.ctx.unwinding = none) := by
      unfold State.exec
      cases c.code with
      | handOff q f k =>
        dsimp only
        cases q.queue x'.ctx.slots with
        | some q' => exact ⟨_, rfl, rfl, id⟩
        | none => exact ⟨_, rfl, rfl, fun hn => by cases hn⟩
      | _ => exact ⟨_, rfl, rfl, id⟩
    rw [hy]
    exact moved hx' (.exec rfl hc hf hu) (Or.inl rfl)

/-- Each thread with frames was there before and moved in one of these ways. -/
theorem moves_back {s u : State w} {e : Label} (hi : Inv s) (h : Next s e u) {t : ℕ} {y : Actor}
    (hy : u.threads[t]? = some y) (hf : y.ctx.frames ≠ []) :
    ∃ x, s.threads[t]? = some x ∧ Moves s e t x y := by
  obtain ⟨x, hx, -⟩ := next_thread_back hi h hy hf
  obtain ⟨z, hz, hm⟩ := next_moves h hx
  obtain rfl := Option.some.inj (hy.symm.trans hz)
  exact ⟨x, hx, hm⟩

/-- A step of a context keeps the polls of the stack, ends the innermost one or
begins one. -/
theorem step_polled {t u : Thread} {a : Act} (h : t.step a = some u) :
    polled u.frames = polled t.frames ∨
      (∃ k l b, t.frames = .poll k l b :: u.frames ∧ (a = .ret ∨ a = .unwind)) ∨
      ∃ k l b, a = .poll k l b ∧ u.unwinding = none ∧
        u.frames = .poll k t.slots.localSet b :: t.frames := by
  cases Context.step_cases h with
  | call | setup | setupPanic | retCall | retCatching | panic | unwindCall | unwindCatching
  | catchUnwind => exact Or.inl rfl
  | retPoll => exact Or.inr (Or.inl ⟨_, _, _, rfl, Or.inl rfl⟩)
  | unwindPoll => exact Or.inr (Or.inl ⟨_, _, _, rfl, Or.inr rfl⟩)
  | @poll _ k l b hp =>
    obtain ⟨hu, -⟩ := Bool.and_eq_true_iff.mp hp
    exact Or.inr (Or.inr ⟨k, l, b, rfl, Option.isNone_iff_eq_none.mp hu, rfl⟩)

section Moves

variable {s : State w} {e : Label} {t : ℕ} {x y : Actor} {k : ℕ}

theorem resting_mem (h : x.Resting k) : k ∈ polled x.ctx.frames := by
  obtain ⟨-, -, l, b, fs, hf⟩ := h
  rw [hf]
  exact List.mem_cons_self

/-- A poll on a stack was there before or has just begun. -/
theorem moves_polled (h : Moves s e t x y) (hk : k ∈ polled y.ctx.frames) :
    k ∈ polled x.ctx.frames ∨
      (y.Resting k ∧ e.mover = some t ∧ ∃ l b, s.action x e = some (.poll k l b)) := by
  cases h with
  | still => exact Or.inl hk
  | spawn => exact Or.inl hk
  | exec _ _ hf _ => exact Or.inl (hf ▸ hk)
  | @act a c he hn ha hc =>
    rcases step_polled hc with hp | ⟨j, l, b, hf, -⟩ | ⟨j, l, b, rfl, hu, hf⟩
    · exact Or.inl (hp ▸ hk)
    · rw [hf]
      exact Or.inl (List.mem_cons_of_mem j hk)
    · rw [show (Actor.mk x.role c x.call).ctx.frames = _ from hf] at hk
      rcases List.mem_cons.mp hk with rfl | hk
      · exact Or.inr ⟨⟨hn, hu, _, _, _, hf⟩, he, l, b, ha⟩
      · exact Or.inl hk

theorem moves_nodup (h : Moves s e t x y) (hx : (polled x.ctx.frames).Nodup)
    (hnew : ∀ j l b, s.action x e = some (.poll j l b) → j ∉ polled x.ctx.frames) :
    (polled y.ctx.frames).Nodup := by
  cases h with
  | still => exact hx
  | spawn => exact hx
  | exec _ _ hf _ => exact hf ▸ hx
  | @act a c he hn ha hc =>
    rcases step_polled hc with hp | ⟨j, l, b, hf, -⟩ | ⟨j, l, b, rfl, hu, hf⟩
    · exact hp ▸ hx
    · rw [hf] at hx
      exact (List.nodup_cons.mp hx).2
    · rw [show (Actor.mk x.role c x.call).ctx.frames = _ from hf]
      exact List.nodup_cons.mpr ⟨hnew j l b ha, hx⟩

/-- User code that polls a tracked future has not got to its end. -/
theorem free_polling {z : Task} {n : Track} (hf : s.free x = true) (hr : x.Resting k)
    (hz : s.tasks[k]? = some z) (hn : track z.fut = some n) : s.phase n = some .polling := by
  obtain ⟨-, -, l, b, fs, hfr⟩ := hr
  obtain ⟨-, hall⟩ := Bool.and_eq_true_iff.mp hf
  rw [State.polling, hfr] at hall
  dsimp only at hall
  rw [hz, Option.map_some, Option.bind_some, hn] at hall
  exact beq_iff_eq.mp hall

/-- A poll stays at rest, or its future was in the middle of its code. -/
theorem moves_phase {z : Task} {n : Track} (h : Moves s e t x y)
    (hky : k ∈ polled y.ctx.frames) (hnd : (polled x.ctx.frames).Nodup)
    (hz : s.tasks[k]? = some z) (hn : track z.fut = some n)
    (hp : x.Resting k ∨ s.phase n = some .polling) : y.Resting k ∨ s.phase n = some .polling := by
  rcases hp with hr | hp
  · cases h with
    | still => exact Or.inl hr
    | spawn he hf => exact Or.inr (free_polling hf hr hz hn)
    | exec _ hc _ _ =>
      rw [hr.1] at hc
      cases hc
    | @act a c he hcall ha hc =>
      obtain ⟨-, hu, l, b, fs, hf⟩ := hr
      -- the step leaves the poll, or it is one of user code
      have free : (∃ api rt, a = .call api rt) ∨ (∃ j, a = .panic j) ∨ a = .catchUnwind →
          s.phase n = some .polling := fun hfree => by
        refine free_polling (x := x) ?_ ⟨hcall, hu, l, b, fs, hf⟩ hz hn
        cases e with
        | call => exact (Option.ite_none_right_eq_some.mp ha).1.1
        | catchUnwind | panic => exact (Option.ite_none_right_eq_some.mp ha).1
        | setup | poll | pending | finishPoll =>
          rcases hfree with ⟨_, _, rfl⟩ | ⟨_, rfl⟩ | rfl <;>
            simp [State.action, Option.bind_eq_some_iff] at ha
        | ret =>
          obtain ⟨-, ⟨⟩⟩ := Option.ite_none_right_eq_some.mp ha
          rcases hfree with ⟨_, _, he⟩ | ⟨_, he⟩ | he <;> cases he
        | unwind =>
          cases ha
          rcases hfree with ⟨_, _, he⟩ | ⟨_, he⟩ | he <;> cases he
        | _ => cases he
      have gone : c.frames = fs → False := fun hfs => by
        rw [hf] at hnd
        rw [show (Actor.mk x.role c x.call).ctx.frames = fs from hfs] at hky
        exact (List.nodup_cons.mp hnd).1 hky
      generalize hth : x.ctx = th at hc
      cases Context.step_cases hc with
      | call => exact Or.inr (free (Or.inl ⟨_, _, rfl⟩))
      | panic => exact Or.inr (free (Or.inr (Or.inl ⟨_, rfl⟩)))
      | catchUnwind => exact Or.inr (free (Or.inr (Or.inr rfl)))
      | setup | setupPanic | retCall | unwindCall | retCatching | unwindCatching =>
        rw [hth] at hf
        cases hf
      | retPoll | unwindPoll =>
        rw [hth] at hf
        exact absurd (List.cons.inj hf).2 gone
      | poll hp =>
        rw [Thread.polls, ← hth, hf, Bool.and_eq_true] at hp
        cases hp.2
  · exact Or.inr hp

end Moves

/-! ### What a step does to the futures -/

/-- The thread whose innermost poll a step ends, and what becomes of the future. -/
def Label.ends : Label → Option (ℕ × Status)
  | .pending t => some (t, .waiting)
  | .finishPoll t => some (t, .resolved)
  | .unwind t => some (t, .panicked)
  | _ => none

/-- The poll of `k` is the innermost frame of a thread and ends with the step. -/
def Ends (s : State w) (e : Label) (k : ℕ) (p : Status) : Prop :=
  ∃ t x l b fs, e.ends = some (t, p) ∧ s.threads[t]? = some x ∧ x.ctx.frames = .poll k l b :: fs

/-- What a step makes of task `k`. -/
inductive Turns (s : State w) (e : Label) (k : ℕ) (y : Task) : Task → Prop
  | same (hb : ∀ t, e ≠ .poll t k) (hn : ∀ p, ¬Ends s e k p) : Turns s e k y y
  | begins {t x l b} (he : e = .poll t k) (hw : y.status = .waiting) (hx : s.threads[t]? = some x)
    (hm : Actor.mode x t y = some (l, b)) : Turns s e k y { y with status := .running }
  | ends {p} (h : Ends s e k p) : Turns s e k y { y with status := p }
  | drops (he : e = .dropTask k) (hw : y.status = .waiting) (hq : isRoot y.queue = false) :
    Turns s e k y { y with status := .dropped }

theorem mark_status (s : State w) {j k : ℕ} {p : Status} {y : Task} (hy : s.tasks[k]? = some y) :
    (s.mark j p)[k]? = some (if j = k then { y with status := p } else y) := by
  rw [State.mark, List.getElem?_modify, hy]
  split <;> rfl

/-- The innermost frame of a thread that is polling. -/
theorem polling_frame {s : State w} {x : Actor} {k : ℕ} {y : Task}
    (h : s.polling x = some (k, y)) : ∃ l b fs, x.ctx.frames = .poll k l b :: fs := by
  unfold State.polling at h
  split at h
  next i l b fs hf =>
    obtain ⟨z, -, he⟩ := Option.map_eq_some_iff.mp h
    obtain rfl : i = k := congrArg Prod.fst he
    exact ⟨l, b, fs, hf⟩
  next => cases h

/-- A poll that begins is of a future that waits and that the thread drives. -/
theorem action_waiting {s : State w} {x : Actor} {e : Label} {k : ℕ} {l : Option ℕ} {b : Bool}
    (h : s.action x e = some (.poll k l b)) :
    ∃ t y, e = .poll t k ∧ s.tasks[k]? = some y ∧ y.status = .waiting ∧
      x.mode t y = some (l, b) := by
  cases e with
  | poll t j =>
    obtain ⟨y, hy, h⟩ := Option.bind_eq_some_iff.mp h
    obtain ⟨⟨m, caught⟩, hm, h⟩ := Option.bind_eq_some_iff.mp h
    obtain ⟨hw, ⟨⟩⟩ := Option.ite_none_right_eq_some.mp h
    exact ⟨t, y, rfl, hy, hw, hm⟩
  | setup | pending | finishPoll => simp [State.action, Option.bind_eq_some_iff] at h
  | call | catchUnwind | panic | ret =>
    obtain ⟨-, ⟨⟩⟩ := Option.ite_none_right_eq_some.mp h
  | _ => cases h

/-- A step that ends a poll leaves its frame. -/
theorem action_ends {s : State w} {x : Actor} {e : Label} {t : ℕ} {p : Status} {a : Act}
    (he : e.ends = some (t, p)) (ha : s.action x e = some a) : a = .ret ∨ a = .unwind := by
  cases e with
  | pending =>
    obtain ⟨_, -, rfl⟩ := Option.map_eq_some_iff.mp ha
    exact Or.inl rfl
  | finishPoll =>
    obtain ⟨_, -, ha⟩ := Option.bind_eq_some_iff.mp ha
    obtain ⟨-, ⟨⟩⟩ := Option.ite_none_right_eq_some.mp ha
    exact Or.inl rfl
  | unwind => exact Or.inr (Option.some.inj ha).symm
  | _ => cases he

/-- Conversely a step that leaves the frame of a poll ends it. -/
theorem action_leaves {s : State w} {x : Actor} {e : Label} {t k : ℕ} {l : Option ℕ} {b : Bool}
    {fs : List Frame} {a : Act} (hf : x.ctx.frames = .poll k l b :: fs) (hm : e.mover = some t)
    (ha : s.action x e = some a) (hend : a = .ret ∨ a = .unwind) : ∃ p, e.ends = some (t, p) := by
  cases e with
  | pending | finishPoll | unwind =>
    cases hm
    exact ⟨_, rfl⟩
  | ret =>
    obtain ⟨hr, -⟩ := Option.ite_none_right_eq_some.mp ha
    rw [State.returns, hf] at hr
    cases hr
  | setup | poll =>
    rcases hend with rfl | rfl <;> simp [State.action, Option.bind_eq_some_iff] at ha
  | call | catchUnwind | panic =>
    obtain ⟨-, ⟨⟩⟩ := Option.ite_none_right_eq_some.mp ha
    rcases hend with hend | hend <;> cases hend
  | _ => cases hm

/-- A step changes the status of a future in these ways only. -/
theorem next_turns {s u : State w} {e : Label} (h : Next s e u) {k : ℕ} {y : Task}
    (hy : s.tasks[k]? = some y) : ∃ z, u.tasks[k]? = some z ∧ Turns s e k y z := by
  have quiet : e.ends = none → (∀ t, e ≠ .poll t k) → Turns s e k y y := fun hn hb => by
    refine .same hb fun p ⟨_, _, _, _, _, he, _⟩ => ?_
    rw [hn] at he
    cases he
  have append : ∀ zs : List Task, e.ends = none → (∀ t, e ≠ .poll t k) →
      ∃ z, (s.tasks ++ zs)[k]? = some z ∧ Turns s e k y z := fun zs hn hb =>
    ⟨y, by rw [List.getElem?_append_left (List.getElem?_eq_some_iff.mp hy).1, hy], quiet hn hb⟩
  cases h with
  | build | thread | env | spawn => exact ⟨y, hy, quiet rfl (by simp)⟩
  | wait he => rcases he with rfl | rfl <;> exact ⟨y, hy, quiet rfl (by simp)⟩
  | track he => rcases he with rfl | rfl | rfl <;> exact ⟨y, hy, quiet rfl (by simp)⟩
  | @act t e x a c he hx hn ha hc =>
    have ended : ∀ p, e.ends = some (t, p) →
        ∃ z, (s.endPoll x p)[k]? = some z ∧ Turns s e k y z := fun p hend => by
      have hb : ∀ i, e ≠ .poll i k := by
        rintro i rfl
        cases hend
      -- if the poll of `k` ends, it is the innermost one of this thread
      have here : ∀ q, Ends s e k q → s.polling x = some (k, y) :=
        fun q ⟨t', x', l, b, fs, he', hx', hf⟩ => by
          rw [hend] at he'
          cases he'
          obtain rfl := Option.some.inj (hx.symm.trans hx')
          rw [State.polling, hf]
          dsimp only
          rw [hy, Option.map_some]
      unfold State.endPoll
      cases hp : s.polling x with
      | none =>
        refine ⟨y, hy, .same hb fun q hq => ?_⟩
        rw [here q hq] at hp
        cases hp
      | some z =>
        obtain ⟨j, z⟩ := z
        refine ⟨_, mark_status s hy, ?_⟩
        split
        next hj =>
          obtain ⟨l, b, fs, hf⟩ := polling_frame hp
          exact .ends ⟨t, x, l, b, fs, hend, hx, hj ▸ hf⟩
        next hj =>
          refine .same hb fun q hq => hj ?_
          rw [here q hq] at hp
          cases hp
          rfl
    cases e with
    | setup => exact append _ rfl (by simp)
    | poll t' j =>
      cases he
      refine ⟨_, mark_status s hy, ?_⟩
      split
      next hj =>
        subst hj
        obtain ⟨z, hz, ha⟩ := Option.bind_eq_some_iff.mp ha
        obtain rfl := Option.some.inj (hy.symm.trans hz)
        obtain ⟨⟨l, b⟩, hm, ha⟩ := Option.bind_eq_some_iff.mp ha
        exact .begins rfl (Option.ite_none_right_eq_some.mp ha).1 hx hm
      next hj => exact quiet rfl (by simp [hj])
    | pending | finishPoll | unwind =>
      cases he
      exact ended _ rfl
    | call | catchUnwind | panic | ret => exact ⟨y, hy, quiet rfl (by simp)⟩
    | _ => cases he
  | @exec t x c =>
    unfold State.exec
    cases c.code with
    | handOff q f code =>
      dsimp only
      cases q.queue x.ctx.slots with
      | some q' => exact append _ rfl (by simp)
      | none => exact ⟨y, hy, quiet rfl (by simp)⟩
    | _ => exact ⟨y, hy, quiet rfl (by simp)⟩
  | @dropTask j z hz hw hq =>
    refine ⟨_, mark_status s hy, ?_⟩
    split
    next hj =>
      subst hj
      obtain rfl := Option.some.inj (hy.symm.trans hz)
      exact .drops rfl hw hq
    next => exact quiet rfl (by simp)

/-- A future that was not there before waits for its first poll. -/
theorem handles_new {s : State w} {o : Option (ℕ × Idle.Label)} {ys : List Task}
    (h : Handles s o ys) {k : ℕ} {z : Task} (hz : ys[k]? = some z) (hk : s.tasks[k]? = none) :
    z.status = .waiting := by
  have same : s.tasks[k]? ≠ some z := fun he => by
    rw [hk] at he
    cases he
  have append : ∀ (q : Queue) (f : Fut), (s.tasks ++ [⟨q, f, .waiting⟩])[k]? = some z →
      z.status = .waiting := fun q f he => by
    rw [List.getElem?_append_right (List.getElem?_eq_none_iff.mp hk)] at he
    rw [List.mem_singleton.mp (List.mem_of_getElem? he)]
  have marked : ∀ (j : ℕ) (p : Status), (s.mark j p)[k]? ≠ some z := fun j p he => by
    rw [State.mark, List.getElem?_modify, hk] at he
    cases he
  have remarked : ∀ (j : ℕ) (a : Option Status), (s.remark j a)[k]? ≠ some z := fun j a => by
    cases a with
    | none => exact same
    | some p => exact marked j p
  cases h with
  | same | other | abandon => exact absurd hz same
  | queue | handOff => exact append _ _ hz
  | untracked | task => exact absurd hz (remarked _ _)
  | finish => exact absurd hz (marked _ _)

/-- Only the innermost poll of a thread takes a reservation out of that phase. -/
theorem step_polling {s v : State w} {e : Label} (hv : s.step e = some v) {n : Track}
    (hp : s.phase n = some .polling) :
    v.phase n = some .polling ∨ ∃ t op x k y, pollOp e = some (t, op) ∧
      s.threads[t]? = some x ∧ s.polling x = some (k, y) ∧ track y.fut = some n := by
  obtain ⟨u, hu, ho, -⟩ := step_parts hv
  cases heff : s.effect e with
  | none =>
    rw [heff] at ho
    rw [State.phase, show v.idle = s.idle from ho]
    exact Or.inl hp
  | some o =>
    obtain ⟨r, l⟩ := o
    rw [heff] at ho
    cases ht : l.track with
    | none =>
      rcases operates_other ho ht n with hsame | ⟨hnone, -⟩
      · exact Or.inl (hsame.trans hp)
      · rw [hnone] at hp
        cases hp
    | some i =>
      obtain ⟨p, p', hs, -, hadv, hother⟩ := operates_track (n := ⟨r, i⟩) ho ht
      by_cases hn : n = ⟨r, i⟩
      · rw [← hn, hp] at hs
        obtain rfl := Option.some.inj hs
        cases effect_cases heff with
        | env =>
          obtain ⟨henv, -, -⟩ := next_env hu
          cases l with
          | cloneIdle | dropClone | dropOwn | dropRx => cases ht
          | _ => cases henv
        | load | recv | reserve => cases ht
        | setup _ _ hl =>
          obtain ⟨_, _, _, ⟨_, _, _, _, rfl⟩ | ⟨_, ⟨_, rfl⟩ | ⟨_, ⟨_, _, rfl⟩ | rfl⟩⟩⟩ :=
            setupEffect_cases hl
          · cases hadv
          · cases ht
          · cases hadv with
            | move hm => cases hm
          · cases ht
        | @polled _ t x k y m op he hx hpl hm =>
          refine Or.inr ⟨t, op, x, k, y, he, hx, hpl, ?_⟩
          rw [hm, hn]
          have hi : i = m.index := by
            have htrack := pollOp_track he m.index
            rw [ht] at htrack
            exact Option.some.inj htrack
          rw [hi]
        | poll | handOff =>
          cases hadv with
          | move hm => cases hm
        | dropTask | abandon => cases hadv
      · exact Or.inl ((hother n hn).trans hp)

/-! ### Every poll of a process -/

/-- A step of `Track::with` is taken by a poll of a tracked future at rest. -/
theorem step_track {s v : State w} {e : Label} {t : ℕ} {x : Actor}
    (he : e = .ready t ∨ e = .fetchSub t ∨ e = .send t) (hx : s.threads[t]? = some x)
    (hv : s.step e = some v) : x.call = none ∧ x.ctx.unwinding = none ∧
      ∃ k y n, s.polling x = some (k, y) ∧ track y.fut = some n := by
  obtain ⟨u, hu, -⟩ := Option.bind_eq_some_iff.mp hv
  have hnext : ((s.threads[t]?).bind fun x => (s.polling x).bind fun p =>
      if x.call.isNone ∧ x.ctx.unwinding.isNone ∧ (track p.2.fut).isSome then some s else none) =
      some u := by
    rcases he with rfl | rfl | rfl <;> exact hu
  rw [hx, Option.bind_some] at hnext
  obtain ⟨⟨k, y⟩, hp, hcond⟩ := Option.bind_eq_some_iff.mp hnext
  obtain ⟨⟨hc, hn, htrack⟩, -⟩ := Option.ite_none_right_eq_some.mp hcond
  obtain ⟨n, hn'⟩ := Option.isSome_iff_exists.mp htrack
  exact ⟨Option.isNone_iff_eq_none.mp hc, Option.isNone_iff_eq_none.mp hn, k, y, n, hp, hn'⟩

section Step

variable {s u v : State w} {e : Label} {t : ℕ} {x y : Actor} {k : ℕ}

/-- The poll that a step ends is no longer on the stack of its thread, nor on any other. -/
theorem ends_gone (h : Polling s) (hx : s.threads[t]? = some x) (hm : Moves s e t x y)
    (hkx : k ∈ polled x.ctx.frames) (hky : k ∈ polled y.ctx.frames) (p : Status) :
    ¬Ends s e k p := by
  rintro ⟨t', x', l, b, fs, he, hx', hf⟩
  have hk' : k ∈ polled x'.ctx.frames := by
    rw [hf]
    exact List.mem_cons_self
  obtain rfl := h.exclusive hx hx' hkx hk'
  obtain rfl := Option.some.inj (hx.symm.trans hx')
  have hnd := h.once hx
  rw [hf] at hnd
  cases hm with
  | still hne =>
    refine hne ?_
    cases e <;> cases he <;> rfl
  | spawn hspawn =>
    rw [hspawn] at he
    cases he
  | exec hexec =>
    rw [hexec] at he
    cases he
  | @act a c hmove hn ha hc =>
    have gone : c.frames = fs := by
      have hend := action_ends he ha
      generalize hth : x.ctx = th at hc
      cases Context.step_cases hc with
      | retPoll | unwindPoll =>
        rw [hth] at hf
        exact (List.cons.inj hf).2
      | retCall | retCatching | unwindCall | unwindCatching =>
        rw [hth] at hf
        cases hf
      | _ => rcases hend with hend | hend <;> cases hend
    rw [show (Actor.mk x.role c x.call).ctx.frames = fs from gone] at hky
    exact (List.nodup_cons.mp hnd).1 hky

/-- A poll stays on the stack until it ends. -/
theorem moves_kept (hx : s.threads[t]? = some x) (hm : Moves s e t x y)
    (hk : k ∈ polled x.ctx.frames) : k ∈ polled y.ctx.frames ∨ ∃ p, Ends s e k p := by
  cases hm with
  | still | spawn => exact Or.inl hk
  | exec _ _ hf _ => exact Or.inl (hf ▸ hk)
  | @act a c he hn ha hc =>
    rcases step_polled hc with hp | ⟨j, l, b, hf, hend⟩ | ⟨j, l, b, -, -, hf⟩
    · exact Or.inl (hp ▸ hk)
    · obtain ⟨p, hp⟩ := action_leaves hf he ha hend
      rw [hf] at hk
      rcases List.mem_cons.mp hk with rfl | hk
      · exact Or.inr ⟨p, t, x, l, b, c.frames, hp, hx, hf⟩
      · exact Or.inl hk
    · refine Or.inl ?_
      rw [show (Actor.mk x.role c x.call).ctx.frames = _ from hf]
      exact List.mem_cons_of_mem j hk

/-- A poll that begins is on the stack. -/
theorem moves_begins (hm : Moves s (.poll t k) t x y) : k ∈ polled y.ctx.frames := by
  cases hm with
  | still hne => exact absurd rfl hne
  | spawn he | exec he => cases he
  | @act a c _ hn ha hc =>
    obtain ⟨z, -, ha⟩ := Option.bind_eq_some_iff.mp ha
    obtain ⟨⟨l, b⟩, -, ha⟩ := Option.bind_eq_some_iff.mp ha
    obtain ⟨-, ⟨⟩⟩ := Option.ite_none_right_eq_some.mp ha
    obtain ⟨-, ⟨⟩⟩ := Option.ite_none_right_eq_some.mp hc
    exact List.mem_cons_self

/-- A poll that went on through a step of `Track::with` is at rest. -/
theorem moves_resting {op : ℕ → Idle.Label} {z : Task} (h : Polling s)
    (hv : s.step e = some v) (hx : s.threads[t]? = some x) (hm : Moves s e t x y)
    (hky : k ∈ polled y.ctx.frames) (hp : pollOp e = some (t, op))
    (hz : s.polling x = some (k, z)) : y.Resting k := by
  obtain ⟨l, b, fs, hf⟩ := polling_frame hz
  have hkx : k ∈ polled x.ctx.frames := by
    rw [hf]
    exact List.mem_cons_self
  -- a step that ends the poll is none of these
  have ends : ∀ p, e.ends = some (t, p) → y.Resting k := fun p he =>
    absurd ⟨t, x, l, b, fs, he, hx, hf⟩ (ends_gone h hx hm hkx hky p)
  have rest : e = .ready t ∨ e = .fetchSub t ∨ e = .send t → y.Resting k := fun he => by
    obtain ⟨hc, hu, -⟩ := step_track he hx hv
    cases hm with
    | still => exact ⟨hc, hu, l, b, fs, hf⟩
    | act hmv => rcases he with rfl | rfl | rfl <;> cases hmv
    | spawn he' => rcases he with rfl | rfl | rfl <;> cases he'
    | exec he' => rcases he with rfl | rfl | rfl <;> cases he'
  cases e with
  | unwind | pending =>
    cases hp
    exact ends _ rfl
  | ready =>
    cases hp
    exact rest (Or.inl rfl)
  | fetchSub =>
    cases hp
    exact rest (Or.inr (Or.inl rfl))
  | send =>
    cases hp
    exact rest (Or.inr (Or.inr rfl))
  | _ => cases hp

/-- A step of the process keeps the polls apart. -/
theorem step_polls (hi : Inv s) (ht : TaskInv s) (h : Polling s) (hv : s.step e = some v) :
    Polling v := by
  obtain ⟨u, hu, -, hth, hta, -⟩ := step_parts hv
  have old : ∀ {t : ℕ} {y : Actor} {k : ℕ}, v.threads[t]? = some y → k ∈ polled y.ctx.frames →
      ∃ x, s.threads[t]? = some x ∧ Moves s e t x y := fun {t y k} hy hk =>
    moves_back hi hu (hth ▸ hy) fun hf => by
      rw [hf] at hk
      exact absurd hk List.not_mem_nil
  constructor
  · intro t k y hy hk
    obtain ⟨x, hx, hm⟩ := old hy hk
    rw [hta]
    rcases moves_polled hm hk with hkx | ⟨-, he, l, b, ha⟩
    · obtain ⟨z, hz, hr⟩ := h.running hx hkx
      obtain ⟨z', hz', hturn⟩ := next_turns hu hz
      refine ⟨z', hz', ?_⟩
      cases hturn with
      | same => exact hr
      | begins => rfl
      | ends hend => exact absurd hend (ends_gone h hx hm hkx hk _)
      | drops he hw =>
        rw [hr] at hw
        cases hw
    · obtain ⟨t', z, rfl, hz, -⟩ := action_waiting ha
      obtain ⟨z', hz', hturn⟩ := next_turns hu hz
      refine ⟨z', hz', ?_⟩
      cases hturn with
      | begins => rfl
      | same hb => exact absurd rfl (hb t')
      | ends hend =>
        obtain ⟨_, _, _, _, _, he', -⟩ := hend
        cases he'
      | drops he' => cases he'
  · intro k z hz hr
    rw [hta] at hz
    obtain ⟨y, hy⟩ : ∃ y, s.tasks[k]? = some y := by
      cases hk : s.tasks[k]? with
      | some y => exact ⟨y, rfl⟩
      | none =>
        rw [handles_new (next_handles hu) hz hk] at hr
        cases hr
    obtain ⟨z', hz', hturn⟩ := next_turns hu hy
    obtain rfl := Option.some.inj (hz.symm.trans hz')
    have stays : y.status = .running → (∀ p, ¬Ends s e k p) →
        ∃ (t : ℕ) (x : Actor), v.threads[t]? = some x ∧ k ∈ polled x.ctx.frames := fun hrun hn => by
      obtain ⟨t, x, hx, hk⟩ := h.stacked hy hrun
      obtain ⟨x', hx', hm⟩ := next_moves hu hx
      exact ⟨t, x', hth ▸ hx', (moves_kept hx hm hk).resolve_right fun ⟨p, hp⟩ => hn p hp⟩
    cases hturn with
    | same hb hn => exact stays hr hn
    | @begins t x l b he hw hx hmode =>
      subst he
      obtain ⟨x', hx', hm⟩ := next_moves hu hx
      exact ⟨t, x', hth ▸ hx', moves_begins hm⟩
    | ends hend =>
      obtain ⟨t, _, _, _, _, he, -⟩ := hend
      cases e <;> cases he <;> cases hr
    | drops => cases hr
  · intro t y hy
    cases hf : y.ctx.frames with
    | nil => exact List.nodup_nil
    | cons f fs =>
      obtain ⟨x, hx, hm⟩ := moves_back hi hu (hth ▸ hy) (by rw [hf]; exact List.cons_ne_nil f fs)
      rw [← hf]
      refine moves_nodup hm (h.once hx) fun j l b ha hj => ?_
      obtain ⟨_, z, -, hz, hw, -⟩ := action_waiting ha
      obtain ⟨z', hz', hr⟩ := h.running hx hj
      obtain rfl := Option.some.inj (hz.symm.trans hz')
      rw [hw] at hr
      cases hr
  · intro t t' k y y' hy hy' hk hk'
    obtain ⟨x, hx, hm⟩ := old hy hk
    obtain ⟨x', hx', hm'⟩ := old hy' hk'
    -- a poll that begins is of a future that no stack holds
    have fresh : ∀ {i : ℕ} {z z' : Actor} {l : Option ℕ} {b : Bool}, s.threads[i]? = some z →
        k ∈ polled z.ctx.frames → s.action z' e ≠ some (.poll k l b) :=
      fun {i z z' l b} hz hkz ha => by
        obtain ⟨_, q, -, hq, hw, -⟩ := action_waiting ha
        obtain ⟨q', hq', hr⟩ := h.running hz hkz
        obtain rfl := Option.some.inj (hq.symm.trans hq')
        rw [hw] at hr
        cases hr
    rcases moves_polled hm hk with hkx | ⟨-, he, l, b, ha⟩
    · rcases moves_polled hm' hk' with hkx' | ⟨-, -, l', b', ha'⟩
      · exact h.exclusive hx hx' hkx hkx'
      · exact absurd ha' (fresh hx hkx)
    · rcases moves_polled hm' hk' with hkx' | ⟨-, he', -⟩
      · exact absurd ha (fresh hx' hkx')
      · exact Option.some.inj (he.symm.trans he')
  · intro t k y z n hy hk hz hn
    obtain ⟨x, hx, hm⟩ := old hy hk
    rcases moves_polled hm hk with hkx | ⟨hr, -⟩
    · obtain ⟨q, hq, -⟩ := h.running hx hkx
      obtain ⟨z', hz', -, hfut⟩ := handles_kept (next_handles hu) k q hq
      obtain rfl := Option.some.inj (hz.symm.trans (hta ▸ hz'))
      have hqn : track q.fut = some n := hfut ▸ hn
      rcases moves_phase hm hk (h.once hx) hq hqn (h.phase hx hkx hq hqn) with hr | hp
      · exact Or.inl hr
      · refine (step_polling hv hp).symm.imp_left fun ⟨t', op, x', k', y', hop, hx', hpl, hn'⟩ => ?_
        have hkk : k' = k := ht.distinct k' k n _ _ (owner_task (polling_task hpl) hn')
          (owner_task hq hqn)
        subst hkk
        obtain ⟨l, b, fs, hf⟩ := polling_frame hpl
        have hkx' : k' ∈ polled x'.ctx.frames := by
          rw [hf]
          exact List.mem_cons_self
        obtain rfl := h.exclusive hx hx' hkx hkx'
        obtain rfl := Option.some.inj (hx.symm.trans hx')
        exact moves_resting h hv hx hm hk hop hpl
    · exact Or.inl hr

end Step

theorem run_polls {s : State w} {es : List Label} (h : run State.step (start w) es = some s) :
    Polling s := by
  refine run_history (P := fun _ s => Polling s) ⟨?_, ?_, ?_, ?_, ?_⟩ ?_ h
  · intro t k x hx
    cases hx
  · intro k y hy
    cases hy
  · intro t x hx
    cases hx
  · intro t t' k x x' hx
    cases hx
  · intro t k x y n hx
    cases hx
  · exact fun es s e t hs ih ht => step_polls (run_inv hs) (run_taskInv hs) ih ht

end TokioCompat.World
