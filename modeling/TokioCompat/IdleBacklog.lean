import TokioCompat.IdleWait

/-!
# Notifications nobody waits for

The channel of an idle tracker is unbounded and every fall of the count sends
to it, while only a running call of `idle` receives. A runtime that becomes
busy and idle again therefore keeps one notification per busy period. The file
runs one task after another, without any wait, and reads off the queue.
-/

namespace TokioCompat.Idle

open Channel Transition

variable {w : ℕ}

/-- Task `n` alone: reserved, run to completion, decremented and notified, as
by one `block_on` of a ready future. -/
def busyPeriod (n : ℕ) : List Label :=
  [.reserve none, .move n .handOff, .move n .poll, .move n .resolve, .fetchSub n, .send n]

/-- The next `k` tasks one after another, the first of them being task `n`. -/
def busyPeriods : ℕ → ℕ → List Label
  | _, 0 => []
  | n, k + 1 => busyPeriod n ++ busyPeriods (n + 1) k

/-- `n` finished tasks followed by one in phase `p`, at count `a` with `m`
senders and `q` queued notifications. -/
def alone (w n : ℕ) (p : Phase) (a : BitVec w) (m q : ℕ) : State w :=
  { spawned := a
    chan := ⟨List.replicate q (), m, true⟩
    tracks := List.replicate n ⟨none, .finished⟩ ++ [⟨none, p⟩]
    own := true
    clones := 0
    waiter := .outside }

/-- `n` busy periods are over and nobody has waited. -/
def quiet (w n : ℕ) : State w :=
  { spawned := 0
    chan := ⟨List.replicate n (), 1, true⟩
    tracks := List.replicate n ⟨none, .finished⟩
    own := true
    clones := 0
    waiter := .outside }

theorem alone_track (w n : ℕ) (p : Phase) (a : BitVec w) (m q : ℕ) :
    (alone w n p a m q).tracks[n]? = some ⟨none, p⟩ := by
  simp [alone]

theorem alone_setPhase (w n : ℕ) (p r : Phase) (a : BitVec w) (m q : ℕ) :
    (alone w n p a m q).setPhase n ⟨none, p⟩ r = alone w n r a m q := by
  simp [alone, State.setPhase]

theorem alone_live (w n : ℕ) (p : Phase) (a : BitVec w) (m q : ℕ) :
    (alone w n p a m q).phases Phase.live ≤ 1 := by
  have h0 : (List.replicate n (⟨none, .finished⟩ : Cell)).countP (fun c => c.phase.live) = 0 :=
    List.countP_eq_zero.mpr fun c hc => by simp [List.eq_of_mem_replicate hc, Phase.live]
  rw [State.phases, alone, List.countP_append, h0, Nat.zero_add]
  exact List.countP_le_length

theorem quiet_live (w n : ℕ) : (quiet w n).phases Phase.live = 0 :=
  List.countP_eq_zero.mpr fun c hc => by simp [List.eq_of_mem_replicate hc, Phase.live]

/-- The states of one busy period, step by step. -/
theorem busyPeriod_steps (hw : 3 ≤ w) (n : ℕ) :
    (quiet w n).step (.reserve none) = some (alone w n .reserved 1 2 n) ∧
      (alone w n .reserved 1 2 n).step (.move n .handOff) = some (alone w n .handed 1 2 n) ∧
      (alone w n .handed 1 2 n).step (.move n .poll) = some (alone w n .polling 1 2 n) ∧
      (alone w n .polling 1 2 n).step (.move n .resolve) = some (alone w n .resolved 1 2 n) ∧
      (alone w n .resolved 1 2 n).step (.fetchSub n) = some (alone w n .notifying 0 2 n) ∧
      (alone w n .notifying 0 2 n).step (.send n) = some (quiet w (n + 1)) := by
  have hmove : ∀ m p r, Move.next m p = some r →
      (alone w n p 1 2 n).step (.move n m) = some (alone w n r 1 2 n) := fun m p r h =>
    step_move.mpr ⟨_, alone_track .., r, h, alone_setPhase ..⟩
  refine ⟨?_, hmove _ _ _ rfl, hmove _ _ _ rfl, hmove _ _ _ rfl, ?_, ?_⟩
  · refine step_reserve.mpr ⟨⟨Or.inl rfl, ?_⟩, nofun, ?_⟩
    · -- the runtime's own sender and the receiver leave room from three bits on
      have : 2 ^ (3 - 1) ≤ 2 ^ (w - 1) := Nat.pow_le_pow_right (by omega) (by omega)
      change 1 + 1 ≤ 2 ^ (w - 1) - 1
      omega
    · simp [State.reserve, quiet, alone, Chan.cloneTx]
  · refine step_fetchSub.mpr ⟨_, alone_track .., rfl, ?_⟩
    rw [State.fetchSub, if_pos (show (alone w n .resolved 1 2 n).spawned = 1 from rfl)]
    simp [alone, State.setPhase]
  · refine step_send.mpr ⟨_, alone_track .., rfl, ?_⟩
    simp [State.send, State.setPhase, State.dropIdle, Chan.send, Chan.dropTx, alone, quiet,
      List.replicate_succ']

/-- One busy period adds one notification. -/
theorem run_busyPeriod (hw : 3 ≤ w) (n : ℕ) :
    run State.step (quiet w n) (busyPeriod n) = some (quiet w (n + 1)) := by
  obtain ⟨h1, h2, h3, h4, h5, h6⟩ := busyPeriod_steps hw n
  simp only [busyPeriod, run, h1, h2, h3, h4, h5, h6, Option.bind_some]

/-- After `k` busy periods `k` more notifications are queued. -/
theorem run_busyPeriods (hw : 3 ≤ w) (n k : ℕ) :
    run State.step (quiet w n) (busyPeriods n k) = some (quiet w (n + k)) := by
  induction k generalizing n with
  | zero => rfl
  | succ k ih =>
    rw [busyPeriods, run_append, run_busyPeriod hw, Option.bind_some, ih, Nat.add_right_comm,
      Nat.add_assoc]

/-- At no moment of these runs is more than one task alive. -/
theorem busyPeriods_live (hw : 3 ≤ w) {n k : ℕ} {u : State w}
    (h : Visits State.step (quiet w n) (busyPeriods n k) u) : u.phases Phase.live ≤ 1 := by
  induction k generalizing n with
  | zero =>
    obtain ⟨xs, ys, he, hx⟩ := h
    obtain ⟨rfl, _⟩ := List.append_eq_nil_iff.mp he.symm
    cases hx
    rw [quiet_live]
    exact Nat.zero_le 1
  | succ k ih =>
    obtain ⟨h1, h2, h3, h4, h5, h6⟩ := busyPeriod_steps hw n
    rcases visits_step h1 h with rfl | h
    · rw [quiet_live]
      exact Nat.zero_le 1
    rcases visits_step h2 h with rfl | h
    · exact alone_live ..
    rcases visits_step h3 h with rfl | h
    · exact alone_live ..
    rcases visits_step h4 h with rfl | h
    · exact alone_live ..
    rcases visits_step h5 h with rfl | h
    · exact alone_live ..
    rcases visits_step h6 h with rfl | h
    · exact alone_live ..
    exact ih h

/-- Nobody waits in these runs. -/
theorem busyPeriods_no_call (n k : ℕ) : (busyPeriods n k).count .callIdle = 0 := by
  induction k generalizing n with
  | zero => rfl
  | succ k ih => simpa [busyPeriods, busyPeriod] using ih (n + 1)

/-- No bound on the queue depends only on how many tasks are alive at once. -/
theorem backlog_not_bounded_by_live :
    ¬∃ B, ∀ (k : ℕ) (es : List Label) (s : State 64), run State.step (new 64) es = some s →
      (∀ u, Visits State.step (new 64) es u → u.phases Phase.live ≤ k) →
      s.chan.queue.length ≤ B + k := by
  rintro ⟨B, hB⟩
  have h := hB 1 (busyPeriods 0 (B + 2)) _ (run_busyPeriods (by decide) 0 (B + 2))
    fun u hu => busyPeriods_live (by decide) hu
  rw [Nat.zero_add, quiet, List.length_replicate] at h
  omega

/-- The backlog is exactly the falls of the count that no receive has consumed
and no `Track` is still to report, and it reaches every length although only
one task is alive at a time. -/
theorem backlog_eq_unconsumed_falls (hw : 3 ≤ w) :
    (∀ (es : List Label) (s : State w), run State.step (new w) es = some s →
        s.chan.rxAlive = true →
        s.chan.queue.length =
          count State.step falls (new w) es - es.count .recv - s.toSend) ∧
      ∀ n, ∃ es s, run State.step (new w) es = some s ∧
        (∀ u, Visits State.step (new w) es u → u.phases Phase.live ≤ 1) ∧
        es.count .callIdle = 0 ∧ s.chan.queue.length = n := by
  constructor
  · intro es s h hr
    have := (run_accounted h).1 hr
    rw [recv_count h]
    omega
  · intro n
    refine ⟨busyPeriods 0 n, quiet w (0 + n), run_busyPeriods hw 0 n,
      fun u hu => busyPeriods_live hw hu, busyPeriods_no_call 0 n, ?_⟩
    simp [quiet]

/-- The smallest usual target: three `block_on` calls leave three. -/
theorem backlog_eq_unconsumed_falls_word :
    ∃ es s, run State.step (new 32) es = some s ∧
      (∀ u, Visits State.step (new 32) es u → u.phases Phase.live ≤ 1) ∧
      es.count .callIdle = 0 ∧ s.chan.queue.length = 3 :=
  (backlog_eq_unconsumed_falls (w := 32) (by decide)).2 3

end TokioCompat.Idle
