import TokioCompat.Idle

/-!
# What the idle count counts

The count always equals, modulo the word size, the number of reservations
that have not executed their decrement: the live ones and the lost ones.
Every live `Track` owns an `Arc` of the counter, so the live ones alone can
never wrap it. The phase of a reservation determines which of its steps the
run has taken, so facts about phases are facts about the run itself.
-/

namespace TokioCompat.Idle

open Channel Transition

variable {w : ℕ}

/-- Number of reservations whose phase satisfies `q`. -/
def State.phases (s : State w) (q : Phase → Bool) : ℕ := s.tracks.countP fun c => q c.phase

/-- Reserved and never decremented: live, or lost for good. -/
def Phase.outstanding (p : Phase) : Bool := p.live || p == .lost

/-- The reservation `i` exists and its phase satisfies `q`. -/
def State.phaseIs (s : State w) (i : ℕ) (q : Phase → Bool) : Bool :=
  (s.tracks[i]?).any fun c => q c.phase

/-- The label moves reservation `i` from the first phase to the second. -/
inductive Advances : Label → ℕ → Phase → Phase → Prop where
  | move {i m p p'} (h : Move.next m p = some p') : Advances (.move i m) i p p'
  | lose {i l} : Advances (.lose i l) i l.phase .lost
  | notify {i} : Advances (.fetchSub i) i .resolved .notifying
  | finish {i} : Advances (.fetchSub i) i .resolved .finished
  | send {i} : Advances (.send i) i .notifying .finished

/-- The reservation a label is about. -/
def Label.track : Label → Option ℕ
  | .move i _ | .lose i _ | .fetchSub i | .send i => some i
  | _ => none

/-- The label makes a reservation. -/
def Label.reserves : Label → Bool
  | .reserve _ => true
  | _ => false

/-- Everything one step can do to the table of reservations. -/
theorem step_tracks {s t : State w} {e : Label} (h : s.step e = some t) :
    (∃ parent, e = .reserve parent ∧ s.ParentPolling parent ∧
        t.tracks = s.tracks ++ [⟨parent, .reserved⟩]) ∨
      (∃ i c p, s.tracks[i]? = some c ∧ Advances e i c.phase p ∧
        t.tracks = s.tracks.set i { c with phase := p }) ∨
      (e.track = none ∧ e.reserves = false ∧ t.tracks = s.tracks) := by
  cases e with
  | reserve parent =>
    obtain ⟨_, hp, rfl⟩ := step_reserve.mp h
    exact Or.inl ⟨parent, rfl, hp, rfl⟩
  | move i m =>
    obtain ⟨c, hc, p, hp, rfl⟩ := step_move.mp h
    exact Or.inr (Or.inl ⟨i, c, p, hc, .move hp, rfl⟩)
  | lose i l =>
    obtain ⟨c, hc, hl, rfl⟩ := step_lose.mp h
    exact Or.inr (Or.inl ⟨i, c, .lost, hc, hl ▸ .lose, rfl⟩)
  | fetchSub i =>
    obtain ⟨c, hc, hr, rfl⟩ := step_fetchSub.mp h
    refine Or.inr (Or.inl ⟨i, c, if s.spawned = 1 then .notifying else .finished, hc, ?_, ?_⟩)
    · rw [hr]
      split
      · exact .notify
      · exact .finish
    · unfold State.fetchSub
      split <;> rfl
  | send i =>
    obtain ⟨c, hc, hn, rfl⟩ := step_send.mp h
    exact Or.inr (Or.inl ⟨i, c, .finished, hc, hn ▸ .send, rfl⟩)
  | cloneIdle =>
    obtain ⟨_, rfl⟩ := step_cloneIdle.mp h
    exact Or.inr (Or.inr ⟨rfl, rfl, rfl⟩)
  | dropClone =>
    obtain ⟨_, rfl⟩ := step_dropClone.mp h
    exact Or.inr (Or.inr ⟨rfl, rfl, rfl⟩)
  | dropOwn =>
    obtain ⟨_, _, rfl⟩ := step_dropOwn.mp h
    exact Or.inr (Or.inr ⟨rfl, rfl, rfl⟩)
  | dropRx =>
    obtain ⟨_, _, rfl⟩ := step_dropRx.mp h
    exact Or.inr (Or.inr ⟨rfl, rfl, rfl⟩)
  | callIdle =>
    obtain ⟨_, _, rfl⟩ := step_callIdle.mp h
    exact Or.inr (Or.inr ⟨rfl, rfl, rfl⟩)
  | load =>
    obtain ⟨_, rfl⟩ := step_load.mp h
    exact Or.inr (Or.inr ⟨rfl, rfl, rfl⟩)
  | recv =>
    obtain ⟨_, ⟨_, _, rfl⟩ | ⟨_, _, rfl⟩⟩ := step_recv.mp h <;>
      exact Or.inr (Or.inr ⟨rfl, rfl, rfl⟩)
  | cancel =>
    obtain ⟨_, rfl⟩ := step_cancel.mp h
    exact Or.inr (Or.inr ⟨rfl, rfl, rfl⟩)

theorem advances_track {e : Label} {i : ℕ} {p p' : Phase} (h : Advances e i p p') :
    e.track = some i := by
  cases h <;> rfl

/-- A step about reservation `i` advances its phase and touches no other. -/
theorem step_phase {s t : State w} {e : Label} {i : ℕ} (h : s.step e = some t)
    (hi : e.track = some i) :
    ∃ p p', (s.tracks[i]?).map Cell.phase = some p ∧ (t.tracks[i]?).map Cell.phase = some p' ∧
      Advances e i p p' ∧ ∀ j, j ≠ i → t.tracks[j]? = s.tracks[j]? := by
  rcases step_tracks h with ⟨parent, rfl, _⟩ | ⟨j, c, p, hc, ha, ht⟩ | ⟨hn, _⟩
  · cases hi
  · obtain rfl : j = i := Option.some.inj ((advances_track ha).symm.trans hi)
    have hj := (List.getElem?_eq_some_iff.mp hc).1
    refine ⟨c.phase, p, by rw [hc]; rfl, ?_, ha, fun k hk => ?_⟩
    · rw [ht, List.getElem?_set_self hj]
      rfl
    · rw [ht, List.getElem?_set_ne (Ne.symm hk)]
  · rw [hi] at hn
    cases hn

/-- Any other step leaves the phases alone; a new reservation is `reserved`. -/
theorem step_phase_other {s t : State w} {e : Label} (h : s.step e = some t)
    (he : e.track = none) (j : ℕ) :
    t.tracks[j]? = s.tracks[j]? ∨
      s.tracks[j]? = none ∧ ∀ p, (t.tracks[j]?).map Cell.phase = some p → p = .reserved := by
  rcases step_tracks h with ⟨parent, rfl, _, ht⟩ | ⟨i, c, p, hc, ha, ht⟩ | ⟨_, _, ht⟩
  · by_cases hj : j < s.tracks.length
    · exact Or.inl (by rw [ht, List.getElem?_append_left hj])
    · refine Or.inr ⟨List.getElem?_eq_none_iff.mpr (by omega), fun p hp => ?_⟩
      obtain ⟨c, hc, rfl⟩ := Option.map_eq_some_iff.mp hp
      rw [ht, List.getElem?_append_right (by omega)] at hc
      rw [List.mem_singleton.mp (List.mem_of_getElem? hc)]
  · rw [advances_track ha] at he
    cases he
  · exact Or.inl (by rw [ht])

/-- The effect of a label on the count. -/
def Label.onCount (e : Label) (n : BitVec w) : BitVec w :=
  match e with
  | .reserve _ => n + 1
  | .fetchSub _ => n - 1
  | _ => n

/-- Only `reserve` and the decrement touch the count. -/
theorem step_spawned {s t : State w} {e : Label} (h : s.step e = some t) :
    t.spawned = e.onCount s.spawned := by
  cases e with
  | reserve parent => obtain ⟨_, _, rfl⟩ := step_reserve.mp h; rfl
  | move i m => obtain ⟨_, _, _, _, rfl⟩ := step_move.mp h; rfl
  | lose i l => obtain ⟨_, _, _, rfl⟩ := step_lose.mp h; rfl
  | fetchSub i =>
    obtain ⟨c, _, _, rfl⟩ := step_fetchSub.mp h
    unfold State.fetchSub
    split <;> rfl
  | send i => obtain ⟨_, _, _, rfl⟩ := step_send.mp h; rfl
  | cloneIdle => obtain ⟨_, rfl⟩ := step_cloneIdle.mp h; rfl
  | dropClone => obtain ⟨_, rfl⟩ := step_dropClone.mp h; rfl
  | dropOwn => obtain ⟨_, _, rfl⟩ := step_dropOwn.mp h; rfl
  | dropRx => obtain ⟨_, _, rfl⟩ := step_dropRx.mp h; rfl
  | callIdle => obtain ⟨_, _, rfl⟩ := step_callIdle.mp h; rfl
  | load => obtain ⟨_, rfl⟩ := step_load.mp h; rfl
  | recv => obtain ⟨_, ⟨_, _, rfl⟩ | ⟨_, _, rfl⟩⟩ := step_recv.mp h <;> rfl
  | cancel => obtain ⟨_, rfl⟩ := step_cancel.mp h; rfl

/-- A move starts and ends in a live phase. -/
theorem next_live {m : Move} {p p' : Phase} (h : m.next p = some p') :
    p.live = true ∧ p'.live = true := by
  cases m <;> cases p <;> simp only [Move.next, Option.some.injEq, reduceCtorEq] at h <;>
    subst h <;> exact ⟨rfl, rfl⟩

/-! ### Counting reservations by phase -/

/-- Replacing one entry of a list moves each count by that entry alone. -/
theorem countP_set_add {α : Type*} {l : List α} {i : ℕ} {a : α} (q : α → Bool) (b : α)
    (h : l[i]? = some a) :
    (l.set i b).countP q + (q a).toNat = l.countP q + (q b).toNat := by
  obtain ⟨hi, ha⟩ := List.getElem?_eq_some_iff.mp h
  have hpos : q a = true → 0 < l.countP q := fun hq =>
    List.countP_pos_iff.mpr ⟨a, ha ▸ List.getElem_mem hi, hq⟩
  rw [List.countP_set hi, ha]
  cases hqa : q a <;> cases hqb : q b <;> simp
  all_goals have := hpos hqa; omega

/-- A reservation adds one entry in phase `reserved`. -/
theorem phases_append {s t : State w} {parent : Option ℕ} (q : Phase → Bool)
    (h : t.tracks = s.tracks ++ [⟨parent, .reserved⟩]) :
    t.phases q = s.phases q + (q .reserved).toNat := by
  simp only [State.phases, h, List.countP_append, List.countP_singleton]
  cases q .reserved <;> rfl

/-- A phase change moves one entry between the counts. -/
theorem phases_set {s t : State w} {i : ℕ} {c : Cell} {p : Phase} (q : Phase → Bool)
    (hc : s.tracks[i]? = some c) (h : t.tracks = s.tracks.set i { c with phase := p }) :
    t.phases q + (q c.phase).toNat = s.phases q + (q p).toNat := by
  simp only [State.phases, h]
  exact countP_set_add (fun c => q c.phase) { c with phase := p } hc

/-- The change leaves the set `q` of phases. -/
theorem phases_leave {s t : State w} {i : ℕ} {c : Cell} {p : Phase} {q : Phase → Bool}
    (hc : s.tracks[i]? = some c) (h : t.tracks = s.tracks.set i { c with phase := p })
    (h1 : q c.phase = true) (h2 : q p = false) : t.phases q + 1 = s.phases q := by
  simpa [h1, h2] using phases_set q hc h

/-- The change enters the set `q` of phases. -/
theorem phases_enter {s t : State w} {i : ℕ} {c : Cell} {p : Phase} {q : Phase → Bool}
    (hc : s.tracks[i]? = some c) (h : t.tracks = s.tracks.set i { c with phase := p })
    (h1 : q c.phase = false) (h2 : q p = true) : t.phases q = s.phases q + 1 := by
  simpa [h1, h2] using phases_set q hc h

/-- The change stays inside or outside the set `q` of phases. -/
theorem phases_stay {s t : State w} {i : ℕ} {c : Cell} {p : Phase} {q : Phase → Bool}
    (hc : s.tracks[i]? = some c) (h : t.tracks = s.tracks.set i { c with phase := p })
    (hq : q c.phase = q p) : t.phases q = s.phases q := by
  simpa [hq] using phases_set q hc h

theorem phases_eq {s t : State w} (q : Phase → Bool) (h : t.tracks = s.tracks) :
    t.phases q = s.phases q := by
  simp only [State.phases, h]

theorem phases_mono {s : State w} {q r : Phase → Bool} (h : ∀ p, q p = true → r p = true) :
    s.phases q ≤ s.phases r :=
  List.countP_mono_left fun c _ hc => h c.phase hc

/-- Every live `Track` still owns its `Idle`. -/
theorem live_le_holding (s : State w) : s.phases Phase.live ≤ s.phases Phase.holding :=
  phases_mono fun p h => by cases p <;> first | rfl | cases h

/-- The outstanding reservations are the live and the lost ones. -/
theorem outstanding_eq (s : State w) :
    s.phases Phase.outstanding = s.phases Phase.live + s.phases (· == .lost) := by
  unfold State.phases
  induction s.tracks with
  | nil => rfl
  | cons c cs ih =>
    simp only [List.countP_cons, ih]
    cases c.phase <;> simp [Phase.outstanding, Phase.live] <;> omega

theorem phases_pos {s : State w} {q : Phase → Bool} {i : ℕ} (h : s.phaseIs i q = true) :
    0 < s.phases q := by
  unfold State.phaseIs at h
  cases hc : s.tracks[i]? with
  | none => simp [hc] at h
  | some c =>
    rw [hc, Option.any_some] at h
    exact List.countP_pos_iff.mpr ⟨c, List.mem_of_getElem? hc, h⟩

/-- A count of zero rules the phase out for every reservation. -/
theorem phaseIs_of_phases_zero {s : State w} {q : Phase → Bool} (h : s.phases q = 0) (i : ℕ) :
    s.phaseIs i q = false := by
  cases hq : s.phaseIs i q with
  | false => rfl
  | true =>
    have hp := phases_pos hq
    omega

/-! ### The phase of one reservation along a step -/

theorem phaseIs_of_tracks {s : State w} {i : ℕ} {c : Cell} (h : s.tracks[i]? = some c)
    (q : Phase → Bool) : s.phaseIs i q = q c.phase := by
  simp only [State.phaseIs, h, Option.any_some]

theorem phaseIs_congr {s t : State w} {i : ℕ} (q : Phase → Bool)
    (h : t.tracks[i]? = s.tracks[i]?) : t.phaseIs i q = s.phaseIs i q := by
  simp only [State.phaseIs, h]

/-- A new reservation changes no earlier one and starts out `reserved`. -/
theorem phaseIs_append {s t : State w} {parent : Option ℕ} (i : ℕ) (q : Phase → Bool)
    (h : t.tracks = s.tracks ++ [⟨parent, .reserved⟩]) :
    t.phaseIs i q = if i = s.tracks.length then q .reserved else s.phaseIs i q := by
  simp only [State.phaseIs, h, List.getElem?_append]
  split
  · rw [if_neg (by omega)]
  · rename_i hi
    split
    · rename_i he
      simp [he]
    · rw [List.getElem?_eq_none (by simp; omega), List.getElem?_eq_none (by omega)]

/-- A phase change is visible at its own reservation only. -/
theorem phaseIs_set {s t : State w} {j : ℕ} {c : Cell} {p : Phase} (i : ℕ) (q : Phase → Bool)
    (hc : s.tracks[j]? = some c) (h : t.tracks = s.tracks.set j { c with phase := p }) :
    t.phaseIs i q = if i = j then q p else s.phaseIs i q := by
  have hj : j < s.tracks.length := (List.getElem?_eq_some_iff.mp hc).1
  simp only [State.phaseIs, h, List.getElem?_set]
  by_cases he : j = i
  · subst he
    simp [hj]
  · simp [he, Ne.symm he]

/-! ### The invariant of the tracker -/

/-- What holds of the counter, the senders and the waiter in every state. -/
structure Inv (s : State w) : Prop where
  spawned_eq : s.spawned = BitVec.ofNat w (s.phases Phase.outstanding)
  senders_eq : s.chan.senders = s.own.toNat + s.clones + s.phases Phase.holding
  holding_le : s.phases Phase.holding ≤ isizeMax w
  waiter_own : s.waiter ≠ .outside → s.own = true
  own_rx : s.own = true → s.chan.rxAlive = true

theorem inv_new (w : ℕ) : Inv (new w) := ⟨rfl, rfl, Nat.zero_le _, fun h => absurd rfl h, fun _ => rfl⟩

/-- A move starts and ends holding its `Idle`. -/
theorem next_holding {m : Move} {p p' : Phase} (h : m.next p = some p') :
    p.holding = true ∧ p'.holding = true := by
  obtain ⟨h1, h2⟩ := next_live h
  constructor
  · cases p <;> first | rfl | cases h1
  · cases p' <;> first | rfl | cases h2

/-- A loss happens to a live reservation. -/
theorem loss_live (l : Loss) : l.phase.live = true := by cases l <;> rfl

theorem loss_holding (l : Loss) : l.phase.holding = true := by cases l <;> rfl

/-- The count after a step still matches the outstanding reservations. -/
theorem step_spawned_eq {s t : State w} {e : Label} (hi : Inv s) (h : s.step e = some t) :
    t.spawned = BitVec.ofNat w (t.phases Phase.outstanding) := by
  rw [step_spawned h, hi.spawned_eq]
  rcases step_tracks h with ⟨parent, rfl, _, ht⟩ | ⟨i, c, p, hc, ha, ht⟩ | ⟨hn, hr, ht⟩
  · rw [phases_append _ ht, BitVec.ofNat_add]
    rfl
  · generalize hq : c.phase = q at ha
    cases ha with
    | move hm =>
      obtain ⟨h1, h2⟩ := next_live hm
      rw [phases_stay hc ht (by simp [Phase.outstanding, hq, h1, h2])]
      rfl
    | @lose i l =>
      rw [phases_stay hc ht (by simp [Phase.outstanding, hq, loss_live])]
      rfl
    | notify | finish =>
      rw [← phases_leave hc ht (by rw [hq]; rfl) rfl, BitVec.ofNat_add]
      exact BitVec.add_sub_cancel _ _
    | send =>
      rw [phases_stay hc ht (by rw [hq]; rfl)]
      rfl
  · rw [phases_eq _ ht]
    cases e with
    | reserve parent => cases hr
    | fetchSub i => cases hn
    | _ => rfl

/-- Counting the senders: `Idle`s outside the tracks, and the holding tracks. -/
theorem step_senders {s t : State w} {e : Label} (hi : Inv s) (h : s.step e = some t) :
    t.chan.senders = t.own.toNat + t.clones + t.phases Phase.holding ∧
      t.phases Phase.holding ≤ isizeMax w := by
  have hs := hi.senders_eq
  have hb := hi.holding_le
  cases e with
  | reserve parent =>
    obtain ⟨⟨hown, harc⟩, _, rfl⟩ := step_reserve.mp h
    have hp : (s.reserve parent).phases Phase.holding = s.phases Phase.holding + 1 :=
      phases_append _ rfl
    -- the `Idle` being cloned is itself a sender, so the tracks stay below the bound
    have ho : 0 < s.own.toNat + s.clones := by
      rcases hown with ho | hc
      · rw [ho, Bool.toNat_true]
        omega
      · omega
    unfold State.arcs at harc
    rw [hp]
    constructor
    · simp only [State.reserve, cloneTx_senders]
      omega
    · omega
  | move i m =>
    obtain ⟨c, hc, p, hm, rfl⟩ := step_move.mp h
    obtain ⟨h1, h2⟩ := next_holding hm
    rw [phases_stay hc rfl (h1.trans h2.symm)]
    exact ⟨hs, hb⟩
  | lose i l =>
    obtain ⟨c, hc, hl, rfl⟩ := step_lose.mp h
    have hp := phases_leave (t := (s.setPhase i c .lost).dropIdle) (q := Phase.holding) hc rfl
      (by rw [hl]; exact loss_holding l) rfl
    simp only [State.dropIdle, State.setPhase, dropTx_senders] at hp ⊢
    omega
  | fetchSub i =>
    obtain ⟨c, hc, hr, rfl⟩ := step_fetchSub.mp h
    unfold State.fetchSub
    dsimp only
    split
    · rw [phases_stay (s := s) hc rfl (by rw [hr]; rfl)]
      exact ⟨hs, hb⟩
    · have hp := phases_leave (q := Phase.holding) (p := .finished) hc
        (t := ({ s with spawned := s.spawned - 1 }.setPhase i c .finished).dropIdle) rfl
        (by rw [hr]; rfl) rfl
      simp only [State.dropIdle, State.setPhase, dropTx_senders] at hp ⊢
      omega
  | send i =>
    obtain ⟨c, hc, hn, rfl⟩ := step_send.mp h
    have hp := phases_leave (t := s.send i c) (q := Phase.holding) hc rfl (by rw [hn]; rfl) rfl
    simp only [State.send, State.dropIdle, State.setPhase, dropTx_senders, send_senders] at hp ⊢
    omega
  | cloneIdle =>
    obtain ⟨_, rfl⟩ := step_cloneIdle.mp h
    refine ⟨?_, hb⟩
    change s.chan.senders + 1 = s.own.toNat + (s.clones + 1) + s.phases Phase.holding
    omega
  | dropClone =>
    obtain ⟨_, rfl⟩ := step_dropClone.mp h
    refine ⟨?_, hb⟩
    change s.chan.senders - 1 = s.own.toNat + (s.clones - 1) + s.phases Phase.holding
    omega
  | dropOwn =>
    obtain ⟨ho, _, rfl⟩ := step_dropOwn.mp h
    refine ⟨?_, hb⟩
    change s.chan.senders - 1 = 0 + s.clones + s.phases Phase.holding
    rw [ho, Bool.toNat_true] at hs
    omega
  | dropRx => obtain ⟨_, _, rfl⟩ := step_dropRx.mp h; exact ⟨hs, hb⟩
  | callIdle => obtain ⟨_, _, rfl⟩ := step_callIdle.mp h; exact ⟨hs, hb⟩
  | load => obtain ⟨_, rfl⟩ := step_load.mp h; exact ⟨hs, hb⟩
  | recv => obtain ⟨_, ⟨_, _, rfl⟩ | ⟨_, _, rfl⟩⟩ := step_recv.mp h <;> exact ⟨hs, hb⟩
  | cancel => obtain ⟨_, rfl⟩ := step_cancel.mp h; exact ⟨hs, hb⟩

/-- The effect of a label on the borrow of the runtime by a call of `idle`. -/
theorem step_waiter {s t : State w} {e : Label} (h : s.step e = some t)
    (hw : s.waiter ≠ .outside → s.own = true) (hr : s.own = true → s.chan.rxAlive = true) :
    (t.waiter ≠ .outside → t.own = true) ∧ (t.own = true → t.chan.rxAlive = true) := by
  cases e with
  | reserve parent => obtain ⟨_, _, rfl⟩ := step_reserve.mp h; exact ⟨hw, hr⟩
  | move i m => obtain ⟨_, _, _, _, rfl⟩ := step_move.mp h; exact ⟨hw, hr⟩
  | lose i l => obtain ⟨_, _, _, rfl⟩ := step_lose.mp h; exact ⟨hw, hr⟩
  | fetchSub i =>
    obtain ⟨c, _, _, rfl⟩ := step_fetchSub.mp h
    unfold State.fetchSub
    split <;> exact ⟨hw, hr⟩
  | send i =>
    obtain ⟨c, _, _, rfl⟩ := step_send.mp h
    refine ⟨hw, fun ho => ?_⟩
    simp only [State.send, State.dropIdle, State.setPhase, dropTx_rxAlive, send_rxAlive] at ho ⊢
    exact hr ho
  | cloneIdle => obtain ⟨_, rfl⟩ := step_cloneIdle.mp h; exact ⟨hw, hr⟩
  | dropClone => obtain ⟨_, rfl⟩ := step_dropClone.mp h; exact ⟨hw, hr⟩
  | dropOwn =>
    obtain ⟨_, ho, rfl⟩ := step_dropOwn.mp h
    exact ⟨fun hn => absurd ho hn, fun hf => nomatch hf⟩
  | dropRx =>
    obtain ⟨ho, _, rfl⟩ := step_dropRx.mp h
    exact ⟨hw, fun hf => by rw [ho] at hf; cases hf⟩
  | callIdle => obtain ⟨ho, _, rfl⟩ := step_callIdle.mp h; exact ⟨fun _ => ho, hr⟩
  | load =>
    obtain ⟨hc, rfl⟩ := step_load.mp h
    exact ⟨fun _ => hw (by rw [hc]; decide), hr⟩
  | recv =>
    obtain ⟨hc, ⟨_, _, rfl⟩ | ⟨_, _, rfl⟩⟩ := step_recv.mp h <;>
      exact ⟨fun _ => hw (by rw [hc]; decide), hr⟩
  | cancel => obtain ⟨_, rfl⟩ := step_cancel.mp h; exact ⟨fun hn => absurd rfl hn, hr⟩

/-- Only its own step drops the runtime's `idle` field. -/
theorem step_own {s t : State w} {e : Label} (h : s.step e = some t) (he : e ≠ .dropOwn) :
    t.own = s.own := by
  cases e with
  | dropOwn => exact absurd rfl he
  | reserve parent => obtain ⟨_, _, rfl⟩ := step_reserve.mp h; rfl
  | move i m => obtain ⟨_, _, _, _, rfl⟩ := step_move.mp h; rfl
  | lose i l => obtain ⟨_, _, _, rfl⟩ := step_lose.mp h; rfl
  | fetchSub i =>
    obtain ⟨c, _, _, rfl⟩ := step_fetchSub.mp h
    unfold State.fetchSub
    split <;> rfl
  | send i => obtain ⟨_, _, _, rfl⟩ := step_send.mp h; rfl
  | cloneIdle => obtain ⟨_, rfl⟩ := step_cloneIdle.mp h; rfl
  | dropClone => obtain ⟨_, rfl⟩ := step_dropClone.mp h; rfl
  | dropRx => obtain ⟨_, _, rfl⟩ := step_dropRx.mp h; rfl
  | callIdle => obtain ⟨_, _, rfl⟩ := step_callIdle.mp h; rfl
  | load => obtain ⟨_, rfl⟩ := step_load.mp h; rfl
  | recv => obtain ⟨_, ⟨_, _, rfl⟩ | ⟨_, _, rfl⟩⟩ := step_recv.mp h <;> rfl
  | cancel => obtain ⟨_, rfl⟩ := step_cancel.mp h; rfl

/-- One step keeps the invariant. -/
theorem step_inv {s t : State w} {e : Label} (hi : Inv s) (h : s.step e = some t) : Inv t := by
  obtain ⟨hs, hb⟩ := step_senders hi h
  obtain ⟨hw, hr⟩ := step_waiter h hi.waiter_own hi.own_rx
  exact ⟨step_spawned_eq hi h, hs, hb, hw, hr⟩

/-- Every reachable state satisfies the invariant. -/
theorem run_inv {s : State w} {es : List Label} (h : run State.step (new w) es = some s) :
    Inv s :=
  run_invariant (fun _ _ _ hi he => step_inv hi he) (inv_new w) h

/-! ### Wrap-around -/

/-- Fewer outstanding reservations than machine words: the count is exact. -/
theorem spawned_toNat {s : State w} (hi : Inv s) (h : s.phases Phase.outstanding < 2 ^ w) :
    s.spawned.toNat = s.phases Phase.outstanding := by
  rw [hi.spawned_eq, BitVec.toNat_ofNat, Nat.mod_eq_of_lt h]

/-- Below the word size, a zero count means that nothing is outstanding. -/
theorem spawned_zero_iff {s : State w} (hi : Inv s) (h : s.phases Phase.outstanding < 2 ^ w) :
    s.spawned = 0 ↔ s.phases Phase.outstanding = 0 := by
  rw [← spawned_toNat hi h]
  exact ⟨fun h0 => by rw [h0]; rfl, fun h0 => BitVec.eq_of_toNat_eq h0⟩

/-- The live reservations alone never reach the word size. -/
theorem live_lt {s : State w} (hi : Inv s) : s.phases Phase.live < 2 ^ (w - 1) := by
  have h1 := live_le_holding s
  have h2 := hi.holding_le
  have h3 : 0 < 2 ^ (w - 1) := Nat.two_pow_pos _
  unfold isizeMax at h2
  omega

/-- While fewer than half the machine words have been lost, nothing wraps. -/
theorem outstanding_lt {s : State w} (hi : Inv s)
    (hl : s.phases (· == .lost) < 2 ^ (w - 1)) : s.phases Phase.outstanding < 2 ^ w := by
  have h1 := live_lt hi
  rw [outstanding_eq]
  cases w with
  | zero => simp at h1 hl ⊢; omega
  | succ n =>
    rw [Nat.add_sub_cancel] at h1 hl
    rw [pow_succ]
    omega

theorem live_not_lost {p : Phase} (h : p.live = true) : (p == .lost) = false := by
  cases p <;> first | rfl | cases h

/-- Losses are for good. -/
theorem step_lost_le {s t : State w} {e : Label} (h : s.step e = some t) :
    s.phases (· == .lost) ≤ t.phases (· == .lost) := by
  rcases step_tracks h with ⟨parent, rfl, _, ht⟩ | ⟨i, c, p, hc, ha, ht⟩ | ⟨_, _, ht⟩
  · rw [phases_append _ ht]
    omega
  · have hq : (c.phase == Phase.lost) = false := by
      generalize c.phase = q at ha
      cases ha with
      | move hm => exact live_not_lost (next_live hm).1
      | lose => exact live_not_lost (loss_live _)
      | _ => rfl
    have hp := phases_set (· == .lost) hc ht
    rw [hq, Bool.toNat_false] at hp
    omega
  · rw [phases_eq _ ht]

/-- No other step loses a reservation. -/
theorem step_lost_eq {s t : State w} {e : Label} (h : s.step e = some t)
    (he : ∀ i l, e ≠ .lose i l) : t.phases (· == .lost) = s.phases (· == .lost) := by
  rcases step_tracks h with ⟨parent, rfl, _, ht⟩ | ⟨i, c, p, hc, ha, ht⟩ | ⟨_, _, ht⟩
  · exact phases_append _ ht
  · refine phases_stay hc ht ?_
    generalize c.phase = q at ha
    cases ha with
    | move hm => rw [live_not_lost (next_live hm).1, live_not_lost (next_live hm).2]
    | lose => exact absurd rfl (he _ _)
    | _ => rfl
  · exact phases_eq _ ht

/-- A loss ends a live reservation and leaves the count alone. -/
theorem step_lose_live {s t : State w} {i : ℕ} {l : Loss} (h : s.step (.lose i l) = some t) :
    t.spawned = s.spawned ∧ t.phases Phase.live + 1 = s.phases Phase.live := by
  obtain ⟨c, hc, hl, rfl⟩ := step_lose.mp h
  exact ⟨rfl, phases_leave hc rfl (hl ▸ loss_live l) rfl⟩

theorem step_lose_lost {s t : State w} {i : ℕ} {l : Loss} (h : s.step (.lose i l) = some t) :
    t.phases (· == .lost) = s.phases (· == .lost) + 1 := by
  obtain ⟨c, hc, hl, rfl⟩ := step_lose.mp h
  exact phases_enter hc rfl (by rw [hl]; exact live_not_lost (loss_live l)) rfl

end TokioCompat.Idle
