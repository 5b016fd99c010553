import TokioCompat.IdleCount

/-!
# Wake-ups of the idle wait

Every fall of the count from 1 to 0 owes exactly one notification, which is
received, queued, or still to be sent by the `Track` that saw the 1. A waiter
suspended on an empty queue therefore always has a reason to be woken later.
The same accounting shows that notifications nobody waits for accumulate.
-/

namespace TokioCompat.Idle

open Channel Transition

variable {w : ℕ}

/-- The step is a decrement that returns 1. -/
def falls (s : State w) : Label → Bool
  | .fetchSub _ => s.spawned == 1
  | _ => false

/-- The step receives a notification. -/
def receives (s : State w) : Label → Bool
  | .recv => s.chan.queue != []
  | _ => false

/-- Reservations between a decrement that returned 1 and its send. -/
def State.toSend (s : State w) : ℕ := s.phases (· == .notifying)

/-- Reservations dropped before their decrement. -/
def State.lost (s : State w) : ℕ := s.phases (· == .lost)

/-- A live or lost reservation is not about to notify. -/
theorem live_not_notifying {p : Phase} (h : p.live = true) : (p == .notifying) = false := by
  cases p <;> first | rfl | cases h

/-- While a call of `idle` runs, the runtime's own sender keeps the channel
open, so a completed `recv` has delivered a notification. -/
theorem step_recv_open {s t : State w} (hi : Inv s) (h : s.step .recv = some t) :
    ∃ rest, s.chan.queue = () :: rest ∧
      t = { s with chan := { s.chan with queue := rest }, waiter := .checking } := by
  obtain ⟨hw, ⟨rest, hq, rfl⟩ | ⟨_, hs, _⟩⟩ := step_recv.mp h
  · exact ⟨rest, hq, rfl⟩
  · have ho := hi.waiter_own (by rw [hw]; decide)
    have he := hi.senders_eq
    rw [ho, Bool.toNat_true] at he
    omega

/-- Notifications owed and settled: with a live receiver every fall is
received, queued or still to be sent, and receives never outnumber falls. -/
def Accounted (received fallen : ℕ) (s : State w) : Prop :=
  (s.chan.rxAlive = true → received + s.chan.queue.length + s.toSend = fallen) ∧
    received ≤ fallen

/-- The account only reads the queue, the receiver and the pending sends. -/
theorem accounted_congr {r f : ℕ} {s t : State w} (ha : Accounted r f s)
    (hq : t.chan.queue = s.chan.queue) (hr : t.chan.rxAlive = s.chan.rxAlive)
    (hs : t.toSend = s.toSend) : Accounted r f t := by
  unfold Accounted
  rw [hq, hr, hs]
  exact ha

/-- The labels that neither notify nor lose a pending send keep `toSend`. -/
theorem toSend_stay {s t : State w} {i : ℕ} {c : Cell} {p : Phase}
    (hc : s.tracks[i]? = some c) (h : t.tracks = s.tracks.set i { c with phase := p })
    (h1 : (c.phase == .notifying) = false) (h2 : (p == .notifying) = false) :
    t.toSend = s.toSend :=
  phases_stay (q := (· == .notifying)) hc h (h1.trans h2.symm)

/-- One step keeps the account. -/
theorem step_accounted {r f : ℕ} {s t : State w} {e : Label} (hi : Inv s)
    (ha : Accounted r f s) (h : s.step e = some t) :
    Accounted (r + (receives s e).toNat) (f + (falls s e).toNat) t := by
  cases e with
  | reserve parent =>
    obtain ⟨_, _, rfl⟩ := step_reserve.mp h
    exact accounted_congr ha rfl rfl (phases_append (· == .notifying) rfl)
  | move i m =>
    obtain ⟨c, hc, p, hm, rfl⟩ := step_move.mp h
    obtain ⟨h1, h2⟩ := next_live hm
    exact accounted_congr ha rfl rfl
      (toSend_stay hc rfl (live_not_notifying h1) (live_not_notifying h2))
  | lose i l =>
    obtain ⟨c, hc, hl, rfl⟩ := step_lose.mp h
    exact accounted_congr ha rfl rfl
      (toSend_stay hc rfl (hl ▸ live_not_notifying (loss_live l)) rfl)
  | fetchSub i =>
    obtain ⟨c, hc, hp, rfl⟩ := step_fetchSub.mp h
    by_cases h1 : s.spawned = 1
    · -- a fall: one more notification is to be sent
      have hf : falls s (.fetchSub i) = true := beq_iff_eq.mpr h1
      have hs : (s.fetchSub i c).toSend = s.toSend + 1 := by
        unfold State.fetchSub
        rw [if_pos h1]
        exact phases_enter (q := (· == .notifying)) hc rfl (by rw [hp]; rfl) rfl
      have hch : (s.fetchSub i c).chan = s.chan := by
        unfold State.fetchSub
        rw [if_pos h1]
        rfl
      unfold Accounted at ha ⊢
      rw [hch, hs, hf]
      simp only [receives, Bool.toNat_false, Bool.toNat_true]
      exact ⟨fun hr => by have := ha.1 hr; omega, by omega⟩
    · have hf : falls s (.fetchSub i) = false := beq_eq_false_iff_ne.mpr h1
      rw [hf]
      unfold State.fetchSub
      rw [if_neg h1]
      exact accounted_congr ha rfl rfl (toSend_stay hc rfl (by rw [hp]; rfl) rfl)
  | send i =>
    obtain ⟨c, hc, hp, rfl⟩ := step_send.mp h
    refine ⟨fun hr => ?_, ha.2⟩
    have hrx : s.chan.rxAlive = true := by
      rwa [State.send, State.dropIdle, dropTx_rxAlive, State.setPhase, send_rxAlive] at hr
    have hq := ha.1 hrx
    have hs : (s.send i c).toSend + 1 = s.toSend :=
      phases_leave (q := (· == .notifying)) hc rfl (by rw [hp]; rfl) rfl
    have hl : (s.send i c).chan.queue = s.chan.queue ++ [()] := send_queue hrx ()
    rw [hl, List.length_append, List.length_singleton]
    simp only [receives, falls, Bool.toNat_false]
    omega
  | cloneIdle => obtain ⟨_, rfl⟩ := step_cloneIdle.mp h; exact ha
  | dropClone => obtain ⟨_, rfl⟩ := step_dropClone.mp h; exact ha
  | dropOwn => obtain ⟨_, _, rfl⟩ := step_dropOwn.mp h; exact ha
  | dropRx => obtain ⟨_, _, rfl⟩ := step_dropRx.mp h; exact ⟨fun hr => Bool.noConfusion hr, ha.2⟩
  | callIdle => obtain ⟨_, _, rfl⟩ := step_callIdle.mp h; exact ha
  | load => obtain ⟨_, rfl⟩ := step_load.mp h; exact ha
  | recv =>
    obtain ⟨rest, hq, rfl⟩ := step_recv_open hi h
    have hw := (step_recv.mp h).1
    have hrx := hi.own_rx (hi.waiter_own (by rw [hw]; decide))
    have he := ha.1 hrx
    have hr : receives s .recv = true := by simp [receives, hq]
    rw [hq, List.length_cons] at he
    simp only [hr, falls, Bool.toNat_true, Bool.toNat_false]
    refine ⟨fun _ => ?_, by omega⟩
    change r + 1 + rest.length + s.toSend = f + 0
    omega
  | cancel => obtain ⟨_, rfl⟩ := step_cancel.mp h; exact ha

/-- Every run keeps the account of its own falls and receives. -/
theorem run_accounted {es : List Label} {s : State w}
    (h : run State.step (new w) es = some s) :
    Accounted (count State.step receives (new w) es) (count State.step falls (new w) es) s := by
  refine run_history (P := fun es s => Accounted (count State.step receives (new w) es)
    (count State.step falls (new w) es) s) ⟨fun _ => rfl, le_rfl⟩ ?_ h
  intro es t e u hr ha he
  rw [count_concat receives hr he, count_concat falls hr he]
  exact step_accounted (run_inv hr) ha he

/-! ### Nobody sleeps for ever -/

/-- A suspended waiter has a non-zero count, a queued notification, or a
`Track` about to send one. -/
def Awake (s : State w) : Prop :=
  s.waiter = .receiving → s.spawned ≠ 0 ∨ s.chan.queue ≠ [] ∨ 0 < s.toSend

theorem awake_congr {s t : State w} (ha : Awake s) (hw : t.waiter = s.waiter)
    (hn : t.spawned = s.spawned) (hq : t.chan.queue = s.chan.queue)
    (hs : t.toSend = s.toSend) : Awake t := by
  unfold Awake
  rw [hw, hn, hq, hs]
  exact ha

/-- One step keeps the waiter wakeable, provided the count has not wrapped. -/
theorem step_awake {s t : State w} {e : Label} (hi : Inv s) (hl : t.lost < 2 ^ (w - 1))
    (ha : Awake s) (h : s.step e = some t) : Awake t := by
  -- a suspended waiter borrows the runtime, so its channel has both ends
  have hown : s.waiter = .receiving → s.own = true := fun hw => hi.waiter_own (by rw [hw]; decide)
  cases e with
  | reserve parent =>
    intro _
    left
    rw [ne_eq, spawned_zero_iff (step_inv hi h) (outstanding_lt (step_inv hi h) hl)]
    obtain ⟨_, _, rfl⟩ := step_reserve.mp h
    rw [phases_append (s := s) Phase.outstanding rfl]
    exact Nat.succ_ne_zero _
  | move i m =>
    obtain ⟨c, hc, p, hm, rfl⟩ := step_move.mp h
    obtain ⟨h1, h2⟩ := next_live hm
    exact awake_congr ha rfl rfl rfl
      (toSend_stay hc rfl (live_not_notifying h1) (live_not_notifying h2))
  | lose i l =>
    obtain ⟨c, hc, hp, rfl⟩ := step_lose.mp h
    exact awake_congr ha rfl rfl rfl
      (toSend_stay hc rfl (hp ▸ live_not_notifying (loss_live l)) rfl)
  | fetchSub i =>
    intro _
    obtain ⟨c, hc, hp, rfl⟩ := step_fetchSub.mp h
    unfold State.fetchSub
    dsimp only
    by_cases h1 : s.spawned = 1
    · rw [if_pos h1]
      have hs := phases_enter (t := { s with spawned := s.spawned - 1 }.setPhase i c .notifying)
        (q := (· == .notifying)) hc rfl (by rw [hp]; rfl) rfl
      exact Or.inr (Or.inr (by rw [State.toSend, hs]; omega))
    · rw [if_neg h1]
      left
      intro hz
      change s.spawned - 1 = 0 at hz
      rw [← BitVec.sub_add_cancel s.spawned 1, hz] at h1
      exact h1 (BitVec.zero_add 1)
  | send i =>
    intro hwait
    obtain ⟨c, hc, hp, rfl⟩ := step_send.mp h
    have hl : (s.send i c).chan.queue = s.chan.queue ++ [()] :=
      send_queue (hi.own_rx (hown hwait)) ()
    exact Or.inr (Or.inl (by rw [hl]; simp))
  | cloneIdle => obtain ⟨_, rfl⟩ := step_cloneIdle.mp h; exact ha
  | dropClone => obtain ⟨_, rfl⟩ := step_dropClone.mp h; exact ha
  | dropOwn =>
    obtain ⟨_, ho, rfl⟩ := step_dropOwn.mp h
    intro hwait
    rw [show s.waiter = .receiving from hwait] at ho
    cases ho
  | dropRx =>
    obtain ⟨ho, _, rfl⟩ := step_dropRx.mp h
    intro hwait
    rw [hown hwait] at ho
    cases ho
  | callIdle => obtain ⟨_, _, rfl⟩ := step_callIdle.mp h; exact nofun
  | load =>
    obtain ⟨_, rfl⟩ := step_load.mp h
    intro hwait
    left
    intro hz
    dsimp only at hwait hz
    rw [if_neg (not_not_intro hz)] at hwait
    cases hwait
  | recv => obtain ⟨_, ⟨_, _, rfl⟩ | ⟨_, _, rfl⟩⟩ := step_recv.mp h <;> exact nofun
  | cancel => obtain ⟨_, rfl⟩ := step_cancel.mp h; exact nofun

/-- Along a run that has lost less than half a word of reservations, the
waiter can always be woken. -/
theorem run_awake {es : List Label} {s : State w}
    (h : run State.step (new w) es = some s) (hl : s.lost < 2 ^ (w - 1)) : Awake s := by
  refine run_history (P := fun _ s => s.lost < 2 ^ (w - 1) → Awake s) ?_ ?_ h hl
  · intro _ hwait
    cases hwait
  · intro es t e u hr ha he hu
    exact step_awake (run_inv hr) hu (ha ((step_lost_le he).trans_lt hu)) he

/-- Once every reservation has finished, the waiter alone returns: at once, or
after the one receive it is suspended in. -/
theorem waiter_returns {es : List Label} {s : State w}
    (h : run State.step (new w) es = some s) (hl : s.lost < 2 ^ (w - 1))
    (hf : ∀ c ∈ s.tracks, c.phase = .finished) (hw : s.waiter ≠ .outside) :
    ∃ ws t, (∀ e ∈ ws, e = .load ∨ e = .recv) ∧ ws.count .recv ≤ 1 ∧
      run State.step s ws = some t ∧ t.waiter = .outside := by
  have hno : ∀ q : Phase → Bool, q .finished = false → s.phases q = 0 := fun q hq =>
    List.countP_eq_zero.mpr fun c hc => by simp [hf c hc, hq]
  have hz : s.spawned = 0 :=
    (spawned_zero_iff (run_inv h) (outstanding_lt (run_inv h) hl)).mpr (hno _ rfl)
  cases hwt : s.waiter with
  | outside => exact absurd hwt hw
  | checking =>
    refine ⟨[.load], { s with waiter := .outside }, by simp, by simp, ?_, rfl⟩
    rw [run_single, step_load]
    exact ⟨hwt, by simp [hz]⟩
  | receiving =>
    rcases run_awake h hl hwt with hs | hq | hs
    · exact absurd hz hs
    · obtain ⟨u, rest, hrest⟩ := List.exists_cons_of_ne_nil hq
      refine ⟨[.recv, .load], { s with chan := { s.chan with queue := rest }, waiter := .outside },
        by simp, by simp, ?_, rfl⟩
      rw [run_cons]
      refine ⟨_, step_recv.mpr ⟨hwt, Or.inl ⟨rest, hrest, rfl⟩⟩, ?_⟩
      rw [run_single, step_load]
      exact ⟨rfl, by simp [hz]⟩
    · have h0 : s.toSend = 0 := hno _ rfl
      omega

theorem fetchSub_waiter (s : State w) (i : ℕ) (c : Cell) : (s.fetchSub i c).waiter = s.waiter := by
  unfold State.fetchSub
  split <;> rfl

/-- Every load is paid for by a call of `idle` or by a completed receive. -/
theorem loads_le {es : List Label} {s : State w} (h : run State.step (new w) es = some s) :
    es.count .load + (s.waiter == .checking).toNat ≤ es.count .callIdle + es.count .recv := by
  refine run_history (P := fun es s => es.count .load + (s.waiter == .checking).toNat ≤
    es.count .callIdle + es.count .recv) le_rfl ?_ h
  intro es s e t _ ih he
  simp only [List.count_append, List.count_singleton]
  cases e with
  | reserve parent => obtain ⟨_, _, rfl⟩ := step_reserve.mp he; exact ih
  | move i m => obtain ⟨_, _, _, _, rfl⟩ := step_move.mp he; exact ih
  | lose i l => obtain ⟨_, _, _, rfl⟩ := step_lose.mp he; exact ih
  | fetchSub i =>
    obtain ⟨c, _, _, rfl⟩ := step_fetchSub.mp he
    rw [fetchSub_waiter]
    exact ih
  | send i => obtain ⟨_, _, _, rfl⟩ := step_send.mp he; exact ih
  | cloneIdle => obtain ⟨_, rfl⟩ := step_cloneIdle.mp he; exact ih
  | dropClone => obtain ⟨_, rfl⟩ := step_dropClone.mp he; exact ih
  | dropOwn => obtain ⟨_, _, rfl⟩ := step_dropOwn.mp he; exact ih
  | dropRx => obtain ⟨_, _, rfl⟩ := step_dropRx.mp he; exact ih
  | callIdle =>
    obtain ⟨_, hw, rfl⟩ := step_callIdle.mp he
    simp [hw] at ih ⊢
    omega
  | load =>
    obtain ⟨hw, rfl⟩ := step_load.mp he
    have hn : ((if s.spawned ≠ 0 then Waiter.receiving else .outside) == .checking) = false := by
      split <;> rfl
    rw [show (s.waiter == .checking) = true by rw [hw]; rfl] at ih
    simp only [hn, Bool.toNat_true, Bool.toNat_false] at ih ⊢
    simp
    omega
  | recv =>
    obtain ⟨hw, ⟨_, _, rfl⟩ | ⟨_, _, rfl⟩⟩ := step_recv.mp he <;>
      simp [hw] at ih ⊢ <;> omega
  | cancel =>
    obtain ⟨_, rfl⟩ := step_cancel.mp he
    simp only [show ((Waiter.outside == .checking) = false) from rfl, Bool.toNat_false]
    simp
    omega

/-- Every completed receive delivers one notification. -/
theorem recv_count {es : List Label} {s : State w} (h : run State.step (new w) es = some s) :
    es.count .recv = count State.step receives (new w) es := by
  refine run_history (P := fun es _ => es.count .recv = count State.step receives (new w) es)
    rfl ?_ h
  intro es s e t hr ih he
  rw [count_concat receives hr he, List.count_append, ih, List.count_singleton]
  by_cases h1 : e = .recv
  · subst h1
    obtain ⟨rest, hq, _⟩ := step_recv_open (run_inv hr) he
    have h2 : receives s .recv = true := by simp [receives, hq]
    rw [if_pos (beq_self_eq_true _), h2]
    rfl
  · have h2 : receives s e = false := by
      cases e <;> first | rfl | exact absurd rfl h1
    simp [h1, h2]

/-- The idle wait neither misses a wake-up nor spins. A suspended waiter has a
reason to be woken; the notifications balance the falls of the count, which
bound the receives; once all work is finished the waiter returns after at most
one receive; and during a call the channel is open, so each turn of the loop
consumes a notification. A run in which reservations complete has `lost = 0`. -/
theorem idle_no_lost_wakeup {es : List Label} {s : State w}
    (h : run State.step (new w) es = some s) (hl : s.lost < 2 ^ (w - 1)) :
    ¬(s.waiter = .receiving ∧ s.chan.queue = [] ∧ s.spawned = 0 ∧ s.toSend = 0) ∧
      (s.chan.rxAlive = true →
        es.count .recv + s.chan.queue.length + s.toSend =
          count State.step falls (new w) es) ∧
      es.count .recv ≤ count State.step falls (new w) es ∧
      ((∀ c ∈ s.tracks, c.phase = .finished) → s.waiter ≠ .outside →
        ∃ ws t, (∀ e ∈ ws, e = .load ∨ e = .recv) ∧ ws.count .recv ≤ 1 ∧
          run State.step s ws = some t ∧ t.waiter = .outside) ∧
      (s.waiter ≠ .outside → 0 < s.chan.senders ∧ ∀ t, s.step .recv = some t →
        ∃ rest, s.chan.queue = () :: rest ∧
          t = { s with chan := { s.chan with queue := rest }, waiter := .checking }) ∧
      es.count .load ≤ es.count .callIdle + es.count .recv := by
  have hi := run_inv h
  obtain ⟨ha, hr⟩ := run_accounted h
  rw [← recv_count h] at ha hr
  refine ⟨?_, ha, hr, waiter_returns h hl, ?_, ?_⟩
  · rintro ⟨hw, hq, hz, hs⟩
    rcases run_awake h hl hw with h1 | h1 | h1
    · exact h1 hz
    · exact h1 hq
    · omega
  · intro hw
    have he := hi.senders_eq
    rw [hi.waiter_own hw, Bool.toNat_true] at he
    exact ⟨by omega, fun t ht => step_recv_open hi ht⟩
  · have := loads_le h
    omega

/-- A waiter with a stale notification: the first task went idle before the
call, the second finishes while the call is suspended. -/
theorem idle_no_lost_wakeup_run :
    ∃ s : State 64, run State.step (new 64)
        [.reserve none, .move 0 .handOff, .move 0 .poll, .move 0 .resolve, .fetchSub 0, .send 0,
          .reserve none, .callIdle, .load, .recv, .load, .move 1 .handOff, .move 1 .poll,
          .move 1 .resolve, .fetchSub 1] = some s ∧
      ¬(s.waiter = .receiving ∧ s.chan.queue = [] ∧ s.spawned = 0 ∧ s.toSend = 0) :=
  ⟨_, rfl, (@idle_no_lost_wakeup 64 [.reserve none, .move 0 .handOff, .move 0 .poll,
    .move 0 .resolve, .fetchSub 0, .send 0, .reserve none, .callIdle, .load, .recv, .load,
    .move 1 .handOff, .move 1 .poll, .move 1 .resolve, .fetchSub 1] _ rfl (by decide)).1⟩

end TokioCompat.Idle
