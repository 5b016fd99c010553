import TokioCompat.Tasks

/-!
# What the calls of the entry points have logged

A call keeps a list of the operations it has performed, which its record takes
over at the end. Whatever is in such a list has happened: the reservation is
on its idle tracker and the future is in its queue, and neither is forgotten.
-/

namespace TokioCompat.World

open Context Spawn Transition

variable {w : ℕ}

/-- Some call has logged the operation. -/
def State.logged (s : State w) (o : Op) : Prop :=
  (∃ x ∈ s.threads, ∃ c, x.call = some c ∧ o ∈ c.ops) ∨ ∃ d ∈ s.finished, o ∈ d.ops

/-- The operation has left its mark on the process. -/
def State.happened (s : State w) : Op → Prop
  | .reserve n => n.index < (s.idle n.idle).tracks.length
  | .handOff q f => ∃ y ∈ s.tasks, y.queue = q ∧ y.fut = f

/-- A thread in place of another has logged what it carries. -/
theorem logged_setThread {s : State w} {t : ℕ} {x : Actor} {o : Op}
    (h : (s.setThread t x).logged o) : s.logged o ∨ ∃ c, x.call = some c ∧ o ∈ c.ops := by
  rcases h with ⟨y, hy, c, hc, ho⟩ | hf
  · rcases List.mem_or_eq_of_mem_set hy with hy | rfl
    · exact Or.inl (Or.inl ⟨y, hy, c, hc, ho⟩)
    · exact Or.inr ⟨c, hc, ho⟩
  · exact Or.inl (Or.inr hf)

/-- A call goes on with `new` behind what it had logged before. -/
theorem logged_go {s : State w} {t : ℕ} {x : Actor} {c : SpawnCall} {k : Code Reply} {new : List Op}
    {o : Op} (hx : s.threads[t]? = some x) (hc : x.call = some c)
    (h : (s.setThread t
      { x with call := some { c with code := k, ops := c.ops ++ new } }).logged o) :
    s.logged o ∨ o ∈ new := by
  refine (logged_setThread h).elim Or.inl fun ⟨d, hd, ho⟩ => ?_
  cases hd
  exact (List.mem_append.mp ho).imp_left fun ho => Or.inl ⟨x, List.mem_of_getElem? hx, c, hc, ho⟩

/-- A call ends and its record takes its log over. -/
theorem logged_ends {s v : State w} {t : ℕ} {x y : Actor} {c : SpawnCall} {d : Record} {o : Op}
    (hx : s.threads[t]? = some x) (hc : x.call = some c) (hy : y.call = none) (hd : d.ops = c.ops)
    (ht : v.threads = s.threads.set t y) (hf : v.finished = s.finished ++ [d]) (h : v.logged o) :
    s.logged o := by
  rcases h with ⟨z, hz, e, he, ho⟩ | ⟨e, he, ho⟩
  · rw [ht] at hz
    rcases List.mem_or_eq_of_mem_set hz with hz | rfl
    · exact Or.inl ⟨z, hz, e, he, ho⟩
    · rw [hy] at he
      cases he
  · rw [hf] at he
    rcases List.mem_append.mp he with he | he
    · exact Or.inr ⟨e, he, ho⟩
    · rw [List.mem_singleton.mp he, hd] at ho
      exact Or.inl ⟨x, List.mem_of_getElem? hx, c, hc, ho⟩

/-- What one operation of an entry point adds to the log. -/
theorem exec_logged {s : State w} {t : ℕ} {x : Actor} {c : SpawnCall} {o : Op}
    (hx : s.threads[t]? = some x) (hc : x.call = some c) (h : (s.exec t x c).logged o) :
    s.logged o ∨
      (∃ i k, c.code = .reserve i k ∧ o = .reserve ⟨i, (s.idle i).tracks.length⟩) ∨
      ∃ y ∈ (s.exec t x c).tasks, o = .handOff y.queue y.fut := by
  unfold State.exec at h ⊢
  cases hk : c.code with
  | done a =>
    rw [hk] at h
    exact Or.inl (logged_ends (y := { x with call := none }) hx hc rfl rfl rfl rfl h)
  | reserve i k =>
    rw [hk] at h
    refine (logged_go hx hc h).imp_right fun ho => Or.inl ⟨i, k, rfl, List.mem_singleton.mp ho⟩
  | handOff q f k =>
    rw [hk] at h
    dsimp only at h ⊢
    cases hq : q.queue x.ctx.slots with
    | some q' =>
      rw [hq] at h
      have hm : (⟨q', f, .waiting⟩ : Task) ∈ s.tasks ++ [⟨q', f, .waiting⟩] :=
        List.mem_append_right _ List.mem_cons_self
      exact (logged_go hx hc h).imp_right fun ho => Or.inr ⟨_, hm, List.mem_singleton.mp ho⟩
    | none =>
      rw [hq] at h
      exact Or.inl (logged_ends (y := ⟨x.role, { x.ctx with unwinding := some .noLocalSet }, none⟩)
        hx hc rfl rfl rfl rfl h)
  | currentIdle | defaultExecutor =>
    rw [hk] at h
    exact Or.inl ((logged_go hx hc h).resolve_right List.not_mem_nil)

/-- Only an operation of an entry point adds to the log. -/
theorem next_logged {s u : State w} {e : Label} {o : Op} (h : Next s e u) (ho : u.logged o) :
    s.logged o ∨
      (∃ n t x c k, e = .exec t ∧ s.threads[t]? = some x ∧ x.call = some c ∧
        c.code = .reserve n.idle k ∧ n.index = (s.idle n.idle).tracks.length ∧ o = .reserve n) ∨
      ∃ y ∈ u.tasks, o = .handOff y.queue y.fut := by
  cases h with
  | build | env | wait | track | dropTask => exact Or.inl ho
  | thread =>
    rcases ho with ⟨x, hx, c, hc, ho⟩ | hf
    · rcases List.mem_append.mp hx with hx | hx
      · exact Or.inl (Or.inl ⟨x, hx, c, hc, ho⟩)
      · rw [List.mem_singleton.mp hx] at hc
        cases hc
    · exact Or.inl (Or.inr hf)
  | @act t e x a c _ hx hn =>
    refine Or.inl ((logged_setThread (s := s) ho).resolve_right fun ⟨d, hd, _⟩ => ?_)
    rw [show x.call = some d from hd] at hn
    cases hn
  | spawn =>
    refine Or.inl ((logged_setThread ho).resolve_right fun ⟨d, hd, hm⟩ => ?_)
    cases hd
    exact absurd hm List.not_mem_nil
  | @exec t x c hx hc =>
    refine (exec_logged hx hc ho).imp_right fun h => h.imp_left ?_
    rintro ⟨i, k, hk, rfl⟩
    exact ⟨⟨i, (s.idle i).tracks.length⟩, t, x, c, k, rfl, hx, hc, hk, rfl, rfl⟩

/-- No step forgets a reservation. -/
theorem operates_tracks {s t : State w} {o : Option (ℕ × Idle.Label)} (h : Operates s t o) (r : ℕ) :
    (s.idle r).tracks.length ≤ (t.idle r).tracks.length := by
  cases o with
  | none => rw [show t.idle = s.idle from h]
  | some x =>
    obtain ⟨k, l⟩ := x
    by_cases hr : r = k
    · subst hr
      rcases Idle.step_tracks h.1 with ⟨_, _, _, ht⟩ | ⟨_, _, _, _, _, ht⟩ | ⟨_, _, ht⟩
      · rw [ht, List.length_append]
        exact Nat.le_add_right _ _
      · rw [ht, List.length_set]
      · rw [ht]
    · rw [h.2 r hr]

/-- Another status of a task changes neither its queue nor its future. -/
theorem mark_mem {s : State w} {y : Task} (hy : y ∈ s.tasks) (k : ℕ) (p : Status) :
    ∃ z ∈ s.mark k p, z.queue = y.queue ∧ z.fut = y.fut := by
  obtain ⟨j, hj⟩ := List.mem_iff_getElem?.mp hy
  have hm : (s.mark k p)[j]? = some (if k = j then { y with status := p } else y) := by
    rw [State.mark, List.getElem?_modify, hj]
    split <;> rfl
  refine ⟨_, List.mem_of_getElem? hm, ?_⟩
  split <;> exact ⟨rfl, rfl⟩

/-- No step forgets a task, where it went or which future it is. -/
theorem handles_mem {s : State w} {o : Option (ℕ × Idle.Label)} {ys : List Task}
    (h : Handles s o ys) {y : Task} (hy : y ∈ s.tasks) :
    ∃ z ∈ ys, z.queue = y.queue ∧ z.fut = y.fut := by
  have remarked : ∀ k a, ∃ z ∈ s.remark k a, z.queue = y.queue ∧ z.fut = y.fut := fun k a => by
    cases a with
    | none => exact ⟨y, hy, rfl, rfl⟩
    | some p => exact mark_mem hy k p
  cases h with
  | same | other | abandon => exact ⟨y, hy, rfl, rfl⟩
  | queue | handOff => exact ⟨y, List.mem_append_left _ hy, rfl, rfl⟩
  | untracked | task => exact remarked _ _
  | finish => exact mark_mem hy _ _

/-- What has happened has happened for good. -/
theorem step_happened {s t : State w} {e : Label} (h : s.step e = some t) {o : Op}
    (ho : s.happened o) : t.happened o := by
  obtain ⟨hop, u, hu, ht⟩ := step_operates h
  cases o with
  | reserve n => exact Nat.lt_of_lt_of_le ho (operates_tracks hop n.idle)
  | handOff q f =>
    obtain ⟨y, hy, rfl, rfl⟩ := ho
    rw [State.happened, ht]
    exact handles_mem (next_handles hu) hy

/-- What a call logs has happened. -/
theorem step_logged {s t : State w} {e : Label} (hi : ∀ o, s.logged o → s.happened o)
    (h : s.step e = some t) {o : Op} (ho : t.logged o) : t.happened o := by
  obtain ⟨u, hu, hs⟩ := step_cases h
  have hl : u.logged o ∧ t.tasks = u.tasks := by
    rcases hs with ⟨_, rfl⟩ | ⟨_, _, _, _, _, rfl⟩
    · exact ⟨ho, rfl⟩
    · exact ⟨ho, rfl⟩
  rcases next_logged hu hl.1 with hold | ⟨n, v, x, c, k, rfl, hx, hc, hk, hn, rfl⟩ | ⟨y, hy, rfl⟩
  · exact step_happened h (hi o hold)
  · have he : s.effect (.exec v) = some (n.idle, .reserve (s.parent x n.idle)) := by
      simp [State.effect, hx, hc, hk]
    obtain ⟨hop, _⟩ := step_operates h
    rw [he] at hop
    obtain ⟨_, _, ht⟩ := Idle.step_reserve.mp hop.1
    rw [State.happened, ← ht, Idle.State.reserve, List.length_append, hn]
    exact Nat.lt_succ_self _
  · exact ⟨y, hl.2 ▸ hy, rfl, rfl⟩

/-- Every operation that a call has logged has happened. -/
theorem run_logged {es : List Label} {s : State w} (h : run State.step (start w) es = some s) :
    ∀ o, s.logged o → s.happened o := by
  refine run_invariant (P := fun s : State w => ∀ o, s.logged o → s.happened o)
    (fun s e t hi ht o => step_logged hi ht) (fun o ho => ?_) h
  rcases ho with ⟨_, hx, _⟩ | ⟨_, hd, _⟩
  · exact absurd hx List.not_mem_nil
  · exact absurd hd List.not_mem_nil

end TokioCompat.World
