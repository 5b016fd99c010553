import TokioCompat.WorldThread

/-!
# The tasks and their reservations

A task of a counted entry point owns a reservation that no other task has, and
its status follows the phase of that reservation. Each step of the process is
sorted by what it does to the tasks together with its operation on an idle
tracker; the invariant is proved once for each of the few sorts.
-/

namespace TokioCompat.World

open Context Spawn Transition

variable {w : ℕ}

/-- The phases that the reservation of a task can be in. -/
def Status.fits : Status → Idle.Phase → Bool
  | .waiting, .handed => true
  | .running, .polling | .running, .resolved | .running, .notifying | .running, .finished => true
  | .resolved, .finished => true
  | .dropped, .lost | .panicked, .lost => true
  | _, _ => false

/-- The reservation and the status of a tracked task. -/
def owner (ys : List Task) (k : ℕ) : Option (Track × Status) :=
  (ys[k]?).bind fun y => (track y.fut).map fun n => (n, y.status)

/-- What holds of the tracked tasks. -/
structure TaskInv (s : State w) : Prop where
  fits : ∀ k n a, owner s.tasks k = some (n, a) → ∃ p, s.phase n = some p ∧ a.fits p = true
  distinct : ∀ j k n a b, owner s.tasks j = some (n, a) → owner s.tasks k = some (n, b) → j = k
  owned : ∀ n p, s.phase n = some p →
    p = .reserved ∨ p = .lost ∨ ∃ k a, owner s.tasks k = some (n, a)

/-- The tasks after task `k` was put into another status, if any. -/
def State.remark (s : State w) (k : ℕ) : Option Status → List Task
  | some p => s.mark k p
  | none => s.tasks

/-- The operations on the reservation of a task, with the status they lead to. -/
inductive TaskOp : (ℕ → Idle.Label) → Option Status → Prop where
  | poll : TaskOp (.move · .poll) (some .running)
  | pend : TaskOp (.move · .pend) (some .waiting)
  | resolve : TaskOp (.move · .resolve) none
  | fetchSub : TaskOp .fetchSub none
  | send : TaskOp .send none
  | panicked : TaskOp (.lose · .panicked) (some .panicked)
  | dropped : TaskOp (.lose · .dropped) (some .dropped)

/-- What a step does to the tasks together with its operation on an idle tracker. -/
inductive Handles (s : State w) : Option (ℕ × Idle.Label) → List Task → Prop where
  /-- Nothing that concerns a reservation in the hands of a task. -/
  | same : Handles s none s.tasks
  | other {r l} (hl : Idle.Label.track l = none) : Handles s (some (r, l)) s.tasks
  | abandon {n : Track} : Handles s (some (n.idle, .lose n.index .abandoned)) s.tasks
  | queue {q f} (hf : track f = none) : Handles s none (s.tasks ++ [⟨q, f, .waiting⟩])
  | handOff {n q f} (hf : track f = some n) :
    Handles s (some (n.idle, .move n.index .handOff)) (s.tasks ++ [⟨q, f, .waiting⟩])
  | untracked {k y a} (hy : s.tasks[k]? = some y) (hn : track y.fut = none) :
    Handles s none (s.remark k a)
  | task {k y n op a} (hy : s.tasks[k]? = some y) (hn : track y.fut = some n) (ho : TaskOp op a) :
    Handles s (some (n.idle, op n.index)) (s.remark k a)
  | finish {k y n} (hy : s.tasks[k]? = some y) (hn : track y.fut = some n)
    (hp : s.phase n = some .finished) : Handles s none (s.mark k .resolved)

theorem polling_task {s : State w} {x : Actor} {k : ℕ} {y : Task}
    (h : s.polling x = some (k, y)) : s.tasks[k]? = some y := by
  unfold State.polling at h
  split at h
  · obtain ⟨z, hz, ⟨⟩⟩ := Option.map_eq_some_iff.mp h
    exact hz
  · cases h

/-- An operation on whatever reservation the task may have. -/
theorem handles_onTrack {s : State w} {k : ℕ} {y : Task} {op : ℕ → Idle.Label} {a : Option Status}
    (hy : s.tasks[k]? = some y) (ho : TaskOp op a) : Handles s (onTrack y op) (s.remark k a) := by
  unfold onTrack
  cases hn : track y.fut with
  | none => exact .untracked hy hn
  | some n => exact .task hy hn ho

/-- The operation of a step within a poll. -/
theorem effect_polling {s : State w} {e : Label} {t k : ℕ} {op : ℕ → Idle.Label} {x : Actor}
    {y : Task} (he : pollOp e = some (t, op)) (hx : s.threads[t]? = some x)
    (hp : s.polling x = some (k, y)) : s.effect e = onTrack y op := by
  cases e <;> cases he <;> simp [State.effect, hx, hp]

theorem handles_polling {s : State w} {e : Label} {t k : ℕ} {op : ℕ → Idle.Label} {x : Actor}
    {y : Task} {a : Option Status} (he : pollOp e = some (t, op)) (hx : s.threads[t]? = some x)
    (hp : s.polling x = some (k, y)) (ho : TaskOp op a) : Handles s (s.effect e) (s.remark k a) :=
  effect_polling he hx hp ▸ handles_onTrack (polling_task hp) ho

/-- A set-up line hands a task over exactly when it moves a reservation. -/
theorem handles_setup (s : State w) (t u : ℕ) :
    Handles s (s.effect (.setup t u)) (s.tasks ++ s.root t u) := by
  unfold State.root
  cases he : s.effect (.setup t u) with
  | none =>
    rw [List.append_nil]
    exact .same
  | some x =>
    obtain ⟨r, l⟩ := x
    cases effect_cases he with
    | @setup _ _ _ c _ _ _ hl =>
      obtain ⟨_, _, _, ⟨_, n, _, _, rfl⟩ | ⟨_, ⟨_, rfl⟩ | ⟨_, ⟨n, _, rfl⟩ | rfl⟩⟩⟩ :=
        setupEffect_cases hl
      · rw [List.append_nil]
        exact .abandon (n := ⟨c.rt.idle, n⟩)
      · rw [List.append_nil]
        exact .other rfl
      · exact .handOff (n := ⟨c.rt.idle, n⟩) rfl
      · rw [List.append_nil]
        exact .other rfl
    | polled ho => cases ho

/-- One operation of an entry point. -/
theorem handles_exec {s : State w} {t : ℕ} {x : Actor} {c : SpawnCall}
    (hx : s.threads[t]? = some x) (hc : x.call = some c) :
    Handles s (s.effect (.exec t)) (s.exec t x c).tasks := by
  unfold State.exec
  cases hk : c.code with
  | done | currentIdle | defaultExecutor =>
    rw [show s.effect (.exec t) = none by simp [State.effect, hx, hc, hk]]
    exact .same
  | reserve i k =>
    rw [show s.effect (.exec t) = some (i, .reserve (s.parent x i)) by
      simp [State.effect, hx, hc, hk]]
    exact .other rfl
  | handOff q f k =>
    cases hf : track f with
    | none =>
      rw [show s.effect (.exec t) = none by simp [State.effect, hx, hc, hk, hf]]
      dsimp only
      split
      · exact .queue hf
      · exact .same
    | some n =>
      dsimp only
      cases hq : q.queue x.ctx.slots with
      | some q' =>
        rw [show s.effect (.exec t) = some (n.idle, .move n.index .handOff) by
          simp [State.effect, hx, hc, hk, hf, hq]]
        exact .handOff hf
      | none =>
        rw [show s.effect (.exec t) = some (n.idle, .lose n.index .abandoned) by
          simp [State.effect, hx, hc, hk, hf, hq]]
        exact .abandon

/-- The end of a poll. -/
theorem endPoll_some {s : State w} {x : Actor} {k : ℕ} {y : Task} (p : Status)
    (h : s.polling x = some (k, y)) : s.endPoll x p = s.mark k p := by
  rw [State.endPoll, h]

/-- A step of a thread's context. -/
theorem handles_act {s : State w} {t : ℕ} {e : Label} {x : Actor} {a : Act}
    (he : e.mover = some t) (hx : s.threads[t]? = some x) (ha : s.action x e = some a) :
    Handles s (s.effect e) (s.retask x e) := by
  cases e with
  | call | catchUnwind | panic | ret => exact .same
  | setup t u => exact handles_setup s t u
  | poll t k =>
    obtain ⟨y, hy, _⟩ := Option.bind_eq_some_iff.mp ha
    rw [show s.effect (.poll t k) = onTrack y (.move · .poll) by simp [State.effect, hy]]
    exact handles_onTrack hy .poll
  | pending t =>
    cases he
    obtain ⟨⟨k, y⟩, hp, _⟩ := Option.map_eq_some_iff.mp ha
    rw [State.retask, endPoll_some _ hp]
    exact handles_polling rfl hx hp .pend
  | unwind t =>
    cases he
    cases hp : s.polling x with
    | none =>
      rw [show s.effect (.unwind t) = none by simp [State.effect, hx, hp], State.retask,
        State.endPoll, hp]
      exact .same
    | some z =>
      obtain ⟨k, y⟩ := z
      rw [State.retask, endPoll_some _ hp]
      exact handles_polling rfl hx hp .panicked
  | finishPoll t =>
    obtain ⟨⟨k, y⟩, hp, ha⟩ := Option.bind_eq_some_iff.mp ha
    obtain ⟨hall, _⟩ := Option.ite_none_right_eq_some.mp ha
    rw [State.retask, endPoll_some _ hp]
    cases hn : track y.fut with
    | none => exact .untracked (a := some .resolved) (polling_task hp) hn
    | some n =>
      rw [hn] at hall
      exact .finish (polling_task hp) hn (by simpa using hall)
  | _ => cases he

/-- Every step is of one of these sorts. -/
theorem next_handles {s u : State w} {e : Label} (h : Next s e u) :
    Handles s (s.effect e) u.tasks := by
  cases h with
  | build | thread | spawn => exact .same
  | @env r e _ he _ => exact .other (by cases e <;> first | rfl | cases he)
  | act he hx _ ha _ => exact handles_act he hx ha
  | @wait t e x c he hx hc _ =>
    rcases he with rfl | rfl
    · rw [show s.effect (.load t) = some (c.rt.idle, .load) by simp [State.effect, hx, hc]]
      exact .other rfl
    · rw [show s.effect (.recv t) = some (c.rt.idle, .recv) by simp [State.effect, hx, hc]]
      exact .other rfl
  | track he hx hp =>
    rcases he with rfl | rfl | rfl
    · exact handles_polling rfl hx hp .resolve
    · exact handles_polling rfl hx hp .fetchSub
    · exact handles_polling rfl hx hp .send
  | exec hx hc => exact handles_exec hx hc
  | @dropTask k y hy _ _ =>
    rw [show s.effect (.dropTask k) = onTrack y (.lose · .dropped) by simp [State.effect, hy]]
    exact handles_onTrack hy .dropped

/-! ### The owners after a step -/

theorem owner_append (ys : List Task) (y : Task) (k : ℕ) :
    owner (ys ++ [y]) k =
      if k = ys.length then (track y.fut).map fun n => (n, y.status) else owner ys k := by
  unfold owner
  split
  next hk =>
    subst hk
    rw [List.getElem?_concat_length]
    rfl
  next hk =>
    rcases Nat.lt_or_ge k ys.length with h | h
    · rw [List.getElem?_append_left h]
    · rw [List.getElem?_eq_none (by simp; omega), List.getElem?_eq_none h]

theorem owner_mark (s : State w) (k : ℕ) (p : Status) (j : ℕ) :
    owner (s.mark k p) j =
      if j = k then (owner s.tasks j).map fun x => (x.1, p) else owner s.tasks j := by
  unfold owner State.mark
  rw [List.getElem?_modify]
  by_cases h : k = j
  · subst h
    cases s.tasks[k]? with
    | none => simp
    | some y => cases hn : track y.fut <;> simp [hn]
  · cases s.tasks[j]? <;> simp [h, Ne.symm h]

theorem owner_task {ys : List Task} {k : ℕ} {y : Task} {n : Track} (hy : ys[k]? = some y)
    (hn : track y.fut = some n) : owner ys k = some (n, y.status) := by
  simp [owner, hy, hn]

theorem owner_untracked {ys : List Task} {k : ℕ} {y : Task} (hy : ys[k]? = some y)
    (hn : track y.fut = none) : owner ys k = none := by
  simp [owner, hy, hn]

section Preserve

variable {s t : State w} (hi : TaskInv s)
include hi

/-- The tasks and the phases of their reservations are as before. -/
theorem taskInv_same (ho : ∀ k, owner t.tasks k = owner s.tasks k)
    (hp : ∀ k n a, owner s.tasks k = some (n, a) → t.phase n = s.phase n)
    (hn : ∀ n p, t.phase n = some p → s.phase n = some p ∨ p = .reserved ∨ p = .lost) :
    TaskInv t := by
  refine ⟨fun k n a hk => ?_, fun j k n a b hj hk => ?_, fun n p hnp => ?_⟩
  · rw [ho] at hk
    rw [hp k n a hk]
    exact hi.fits k n a hk
  · rw [ho] at hj hk
    exact hi.distinct j k n a b hj hk
  · rcases hn n p hnp with h | h | h
    · simpa only [ho] using hi.owned n p h
    · exact Or.inl h
    · exact Or.inr (Or.inl h)

/-- Task `k` and its reservation have changed together. -/
theorem taskInv_task {k : ℕ} {n : Track} {a b : Status} {p : Idle.Phase}
    (hk : owner s.tasks k = some (n, a)) (hb : owner t.tasks k = some (n, b))
    (ho : ∀ j, j ≠ k → owner t.tasks j = owner s.tasks j) (hp : t.phase n = some p)
    (hf : b.fits p = true) (hother : ∀ m, m ≠ n → t.phase m = s.phase m) : TaskInv t := by
  -- every task has the reservation it had before
  have back : ∀ j m c, owner t.tasks j = some (m, c) → ∃ c', owner s.tasks j = some (m, c') := by
    intro j m c hj
    by_cases h : j = k
    · subst h
      rw [hb] at hj
      cases hj
      exact ⟨a, hk⟩
    · exact ⟨c, ho j h ▸ hj⟩
  refine ⟨fun j m c hj => ?_, fun i j m c d hc hd => ?_, fun m q hm => ?_⟩
  · by_cases h : j = k
    · subst h
      rw [hb] at hj
      cases hj
      exact ⟨p, hp, hf⟩
    · rw [ho j h] at hj
      have hm : m ≠ n := by
        rintro rfl
        exact h (hi.distinct j k m c a hj hk)
      rw [hother m hm]
      exact hi.fits j m c hj
  · obtain ⟨c', hc'⟩ := back i m c hc
    obtain ⟨d', hd'⟩ := back j m d hd
    exact hi.distinct i j m c' d' hc' hd'
  · by_cases h : m = n
    · subst h
      exact Or.inr (Or.inr ⟨k, b, hb⟩)
    · rw [hother m h] at hm
      refine (hi.owned m q hm).imp_right fun h' => h'.imp_right fun ⟨j, c, hj⟩ => ?_
      have hjk : j ≠ k := by
        rintro rfl
        rw [hk] at hj
        cases hj
        exact h rfl
      exact ⟨j, c, (ho j hjk).trans hj⟩

/-- A new task has taken over a pending reservation. -/
theorem taskInv_new {k : ℕ} {n : Track} (hk : owner s.tasks k = none)
    (hb : owner t.tasks k = some (n, .waiting))
    (ho : ∀ j, j ≠ k → owner t.tasks j = owner s.tasks j) (hs : s.phase n = some .reserved)
    (hp : t.phase n = some .handed) (hother : ∀ m, m ≠ n → t.phase m = s.phase m) : TaskInv t := by
  -- no earlier task has this reservation
  have fresh : ∀ j c, owner s.tasks j ≠ some (n, c) := by
    intro j c hj
    obtain ⟨q, hq, hf⟩ := hi.fits j n c hj
    rw [hs] at hq
    obtain rfl := Option.some.inj hq
    cases c <;> cases hf
  have old : ∀ j m c, owner t.tasks j = some (m, c) → m ≠ n → owner s.tasks j = some (m, c) := by
    intro j m c hj hm
    by_cases h : j = k
    · subst h
      rw [hb] at hj
      cases hj
      exact absurd rfl hm
    · exact ho j h ▸ hj
  have new : ∀ j c, owner t.tasks j = some (n, c) → j = k := by
    intro j c hj
    by_contra h
    exact fresh j c (ho j h ▸ hj)
  refine ⟨fun j m c hj => ?_, fun i j m c d hc hd => ?_, fun m q hm => ?_⟩
  · by_cases h : m = n
    · subst h
      obtain rfl := new j c hj
      rw [hb] at hj
      cases hj
      exact ⟨.handed, hp, rfl⟩
    · rw [hother m h]
      exact hi.fits j m c (old j m c hj h)
  · by_cases h : m = n
    · subst h
      exact (new i c hc).trans (new j d hd).symm
    · exact hi.distinct i j m c d (old i m c hc h) (old j m d hd h)
  · by_cases h : m = n
    · subst h
      exact Or.inr (Or.inr ⟨k, .waiting, hb⟩)
    · rw [hother m h] at hm
      refine (hi.owned m q hm).imp_right fun h' => h'.imp_right fun ⟨j, c, hj⟩ => ?_
      have hjk : j ≠ k := by
        rintro rfl
        rw [hk] at hj
        cases hj
      exact ⟨j, c, (ho j hjk).trans hj⟩

end Preserve

/-- The idle trackers of `t` are those of `s` after one operation, if any. -/
def Operates (s t : State w) : Option (ℕ × Idle.Label) → Prop
  | none => t.idle = s.idle
  | some (r, l) => (s.idle r).step l = some (t.idle r) ∧ ∀ k, k ≠ r → t.idle k = s.idle k

theorem step_operates {s t : State w} {e : Label} (h : s.step e = some t) :
    Operates s t (s.effect e) ∧ ∃ u, Next s e u ∧ t.tasks = u.tasks := by
  obtain ⟨u, hu, ⟨he, rfl⟩ | ⟨r, l, i, he, hl, rfl⟩⟩ := step_cases h
  · rw [he]
    exact ⟨next_idle hu, t, hu, rfl⟩
  · rw [he]
    refine ⟨⟨by rw [setIdle_self]; exact hl, fun k hk => ?_⟩, u, hu, rfl⟩
    rw [setIdle_of_ne u i hk, next_idle hu]

/-- Apart from the idle trackers a step does what `Next` says. -/
theorem step_parts {s t : State w} {e : Label} (h : s.step e = some t) :
    ∃ u, Next s e u ∧ Operates s t (s.effect e) ∧ t.threads = u.threads ∧ t.tasks = u.tasks ∧
      t.kinds = u.kinds ∧ t.finished = u.finished := by
  obtain ⟨u, hu, ⟨he, rfl⟩ | ⟨r, l, i, he, hl, rfl⟩⟩ := step_cases h
  · rw [he]
    exact ⟨t, hu, next_idle hu, rfl, rfl, rfl, rfl⟩
  · rw [he]
    refine ⟨u, hu, ⟨by rw [setIdle_self]; exact hl, fun k hk => ?_⟩, rfl, rfl, rfl, rfl⟩
    rw [setIdle_of_ne u i hk, next_idle hu]

/-- An operation on one reservation advances its phase and no other. -/
theorem operates_track {s t : State w} {n : Track} {l : Idle.Label}
    (h : Operates s t (some (n.idle, l))) (hl : l.track = some n.index) :
    ∃ p p', s.phase n = some p ∧ t.phase n = some p' ∧ Idle.Advances l n.index p p' ∧
      ∀ m, m ≠ n → t.phase m = s.phase m := by
  obtain ⟨p, p', hp, hp', ha, hother⟩ := Idle.step_phase h.1 hl
  refine ⟨p, p', hp, hp', ha, fun m hm => ?_⟩
  unfold State.phase
  by_cases hr : m.idle = n.idle
  · rw [hr, hother m.index fun hi => hm ?_]
    cases m
    cases n
    simp_all
  · rw [h.2 _ hr]

/-- Any other operation leaves the phases alone, but for a new reservation. -/
theorem operates_other {s t : State w} {r : ℕ} {l : Idle.Label} (h : Operates s t (some (r, l)))
    (hl : l.track = none) (n : Track) :
    t.phase n = s.phase n ∨ s.phase n = none ∧ ∀ p, t.phase n = some p → p = .reserved := by
  unfold State.phase
  by_cases hr : n.idle = r
  · subst hr
    rcases Idle.step_phase_other h.1 hl n.index with hs | ⟨hs, hn⟩
    · exact Or.inl (by rw [hs])
    · exact Or.inr ⟨by rw [hs]; rfl, hn⟩
  · exact Or.inl (by rw [h.2 _ hr])

/-- The status an operation leads to fits the phase it leads to. -/
theorem taskOp_fits {op : ℕ → Idle.Label} {b : Option Status} {c : Status} {n : ℕ}
    {p p' : Idle.Phase} (ho : TaskOp op b) (ha : Idle.Advances (op n) n p p')
    (hc : c.fits p = true) : (b.getD c).fits p' = true := by
  cases ho with
  | poll | pend =>
    cases ha with
    | move hm =>
      cases p <;> cases hm
      rfl
  | resolve =>
    cases ha with
    | move hm =>
      cases p <;> cases hm
      cases c <;> first | rfl | cases hc
  | fetchSub | send => cases ha <;> cases c <;> first | rfl | cases hc
  | panicked | dropped =>
    cases ha
    rfl

theorem taskOp_track {op : ℕ → Idle.Label} {b : Option Status} (ho : TaskOp op b) (n : ℕ) :
    (op n).track = some n := by cases ho <;> rfl

/-- Each sort of step keeps the invariant. -/
theorem handles_inv {s t : State w} {o : Option (ℕ × Idle.Label)} {ys : List Task} (hi : TaskInv s)
    (h : Handles s o ys) (ht : t.tasks = ys) (ho : Operates s t o) : TaskInv t := by
  have quiet : t.idle = s.idle → ∀ n, t.phase n = s.phase n := fun he n => by
    rw [State.phase, State.phase, he]
  cases h with
  | same =>
    exact taskInv_same hi (fun _ => by rw [ht]) (fun _ n _ _ => quiet ho n)
      fun n p hp => Or.inl (quiet ho n ▸ hp)
  | @other r l hl =>
    refine taskInv_same hi (fun _ => by rw [ht]) (fun k n a hk => ?_) fun n p hp => ?_
    · refine (operates_other ho hl n).resolve_right fun ⟨hn, _⟩ => ?_
      obtain ⟨p, hp, _⟩ := hi.fits k n a hk
      rw [hn] at hp
      cases hp
    · exact (operates_other ho hl n).imp (fun he => he.symm.trans hp)
        fun h => Or.inl (h.2 p hp)
  | @abandon n =>
    obtain ⟨p, p', hp, hp', ha, hother⟩ := operates_track ho rfl
    cases ha
    refine taskInv_same hi (fun _ => by rw [ht]) (fun k m a hk => ?_) fun m q hq => ?_
    · refine hother m fun hm => ?_
      obtain ⟨q, hq, hf⟩ := hi.fits k m a hk
      rw [hm, hp] at hq
      cases hq
      cases a <;> cases hf
    · by_cases hm : m = n
      · rw [hm, hp'] at hq
        exact Or.inr (Or.inr (Option.some.inj hq).symm)
      · exact Or.inl (hother m hm ▸ hq)
  | @queue q f hf =>
    refine taskInv_same hi (fun k => ?_) (fun _ n _ _ => quiet ho n)
      fun n p hp => Or.inl (quiet ho n ▸ hp)
    rw [ht, owner_append]
    split
    next hk => simp [hf, hk, owner]
    next => rfl
  | @handOff n q f hf =>
    obtain ⟨p, p', hp, hp', ha, hother⟩ := operates_track ho rfl
    cases ha with
    | move hm =>
      cases p <;> cases hm
      refine taskInv_new hi (k := s.tasks.length) (by simp [owner]) ?_ (fun j hj => ?_) hp hp' hother
      · rw [ht, owner_append, if_pos rfl, hf]
        rfl
      · rw [ht, owner_append, if_neg hj]
  | @untracked k y a hy hn =>
    refine taskInv_same hi (fun j => ?_) (fun _ n _ _ => quiet ho n)
      fun n p hp => Or.inl (quiet ho n ▸ hp)
    rw [ht]
    cases a with
    | none => rfl
    | some a =>
      rw [State.remark, owner_mark]
      split
      next hj => rw [hj, owner_untracked hy hn]; rfl
      next => rfl
  | @task k y n op a hy hn hop =>
    obtain ⟨p, p', hp, hp', ha, hother⟩ := operates_track ho (taskOp_track hop n.index)
    have hk := owner_task hy hn
    obtain ⟨q, hq, hf⟩ := hi.fits k n _ hk
    rw [hp] at hq
    cases hq
    refine taskInv_task hi hk (b := a.getD y.status) ?_ (fun j hj => ?_) hp'
      (taskOp_fits hop ha hf) hother
    · rw [ht]
      cases a with
      | none => exact hk
      | some a =>
        rw [State.remark, owner_mark, if_pos rfl, hk]
        rfl
    · rw [ht]
      cases a with
      | none => rfl
      | some a => rw [State.remark, owner_mark, if_neg hj]
  | @finish k y n hy hn hp =>
    have hk := owner_task hy hn
    refine taskInv_task hi hk (b := .resolved) ?_ (fun j hj => ?_) (quiet ho n ▸ hp) rfl
      fun m _ => quiet ho m
    · rw [ht, owner_mark, if_pos rfl, hk]
      rfl
    · rw [ht, owner_mark, if_neg hj]

/-- One step keeps the invariant. -/
theorem step_taskInv {s t : State w} {e : Label} (hi : TaskInv s) (h : s.step e = some t) :
    TaskInv t := by
  obtain ⟨ho, u, hu, ht⟩ := step_operates h
  exact handles_inv hi (next_handles hu) ht ho

/-- The invariant holds of every reachable state. -/
theorem run_taskInv {es : List Label} {s : State w} (h : run State.step (start w) es = some s) :
    TaskInv s := by
  refine run_invariant (fun _ _ _ hi he => step_taskInv hi he) ?_ h
  exact ⟨nofun, nofun, nofun⟩

end TokioCompat.World
