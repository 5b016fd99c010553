import TokioCompat.CallLog
import TokioCompat.IdleHistory
import TokioCompat.KeepAlive

/-!
# The entry points refine one rule for what keeps a runtime alive

Every run of the process is a run of the abstract rule: `Idle::reserve` incurs
an obligation of its runtime and the decrement in `Track::with` discharges it,
and the idle count is the number of obligations. A call of a counted entry
point incurs one obligation of the runtime that receives its task and then
hands the task over; a call of an uncounted one incurs none. The obligation
of a task is its own and is discharged once, after the future has resolved.
-/

namespace TokioCompat.Idle

open Transition

variable {w : ℕ}

/-- The reservations that have not been decremented. -/
def State.outstanding (s : State w) : Finset ℕ :=
  (Finset.range s.tracks.length).filter fun i => s.phaseIs i Phase.outstanding = true

theorem mem_outstanding {s : State w} {i : ℕ} :
    i ∈ s.outstanding ↔ s.phaseIs i Phase.outstanding = true := by
  rw [State.outstanding, Finset.mem_filter, Finset.mem_range, and_iff_right_iff_imp]
  intro h
  by_contra hi
  rw [State.phaseIs, List.getElem?_eq_none (by omega)] at h
  cases h

/-- Counting the places of a list that satisfy `p`. -/
theorem card_filter_range {α : Type*} (l : List α) (p : α → Bool) :
    ((Finset.range l.length).filter fun i => (l[i]?).any p = true).card = l.countP p := by
  induction l using List.reverseRecOn with
  | nil => rfl
  | append_singleton l a ih =>
    have hsame : (Finset.range l.length).filter (fun i => ((l ++ [a])[i]?).any p = true) =
        (Finset.range l.length).filter fun i => (l[i]?).any p = true :=
      Finset.filter_congr fun i hi => by
        rw [List.getElem?_append_left (Finset.mem_range.mp hi)]
    rw [List.length_append, List.length_singleton, Finset.range_add_one, Finset.filter_insert, hsame,
      List.getElem?_concat_length, List.countP_append, List.countP_singleton]
    cases hp : p a with
    | true => simp [hp, ih]
    | false => simp [hp, ih]

/-- Their number is what the count counts. -/
theorem card_outstanding (s : State w) : s.outstanding.card = s.phases Phase.outstanding :=
  card_filter_range s.tracks fun c => Phase.outstanding c.phase

/-- A change of phase within or outside the outstanding ones keeps their set. -/
theorem outstanding_stay {s t : State w} {i : ℕ} {c : Cell} {p : Phase}
    (hc : s.tracks[i]? = some c) (ht : t.tracks = s.tracks.set i { c with phase := p })
    (hq : c.phase.outstanding = p.outstanding) : t.outstanding = s.outstanding := by
  ext j
  rw [mem_outstanding, mem_outstanding, phaseIs_set j _ hc ht]
  split
  next hj => rw [hj, phaseIs_of_tracks hc, hq]
  next => rfl

/-- The reservations that have not been decremented after a step. -/
theorem step_outstanding {s t : State w} {e : Label} (h : s.step e = some t) :
    (∃ parent, e = .reserve parent ∧ s.tracks.length ∉ s.outstanding ∧
        t.outstanding = insert s.tracks.length s.outstanding) ∨
      (∃ i, e = .fetchSub i ∧ i ∈ s.outstanding ∧ t.outstanding = s.outstanding.erase i) ∨
      (e.reserves = false ∧ (∀ i, e ≠ .fetchSub i) ∧ t.outstanding = s.outstanding) := by
  rcases step_tracks h with ⟨parent, rfl, _, ht⟩ | ⟨i, c, p, hc, ha, ht⟩ | ⟨hn, hr, ht⟩
  · refine Or.inl ⟨parent, rfl, fun hm => ?_, ?_⟩
    · exact absurd (Finset.mem_range.mp (Finset.mem_filter.mp hm).1) (Nat.lt_irrefl _)
    · ext j
      rw [Finset.mem_insert, mem_outstanding, mem_outstanding, phaseIs_append j _ ht]
      split
      next hj => simp [hj, Phase.outstanding, Phase.live]
      next hj => simp [hj]
  · -- the decrement is the only step that leaves the outstanding phases
    generalize hp : c.phase = q at ha
    cases ha with
    | move hm =>
      obtain ⟨h1, h2⟩ := next_live hm
      exact Or.inr (Or.inr ⟨rfl, fun _ => Label.noConfusion, outstanding_stay hc ht (by
        rw [hp, Phase.outstanding, Phase.outstanding, h1, h2]; rfl)⟩)
    | lose =>
      refine Or.inr (Or.inr ⟨rfl, fun _ => Label.noConfusion, outstanding_stay hc ht ?_⟩)
      rw [hp, Phase.outstanding, loss_live]
      rfl
    | send => exact Or.inr (Or.inr ⟨rfl, fun _ => Label.noConfusion, outstanding_stay hc ht (by rw [hp]; rfl)⟩)
    | notify | finish =>
      refine Or.inr (Or.inl ⟨i, rfl, ?_, ?_⟩)
      · rw [mem_outstanding, phaseIs_of_tracks hc, hp]
        rfl
      · ext j
        rw [Finset.mem_erase, mem_outstanding, mem_outstanding, phaseIs_set j _ hc ht]
        split
        next hj => simp [hj, Phase.outstanding, Phase.live]
        next hj => simp [hj]
  · refine Or.inr (Or.inr ⟨hr, ?_, ?_⟩)
    · rintro i rfl
      cases hn
    · ext j
      have hj : t.tracks[j]? = s.tracks[j]? := by rw [ht]
      rw [mem_outstanding, mem_outstanding, phaseIs_congr _ hj]

end TokioCompat.Idle

namespace TokioCompat.World

open Context Spawn Transition

variable {w : ℕ}

/-! ### The simulation -/

/-- The obligations of a step of the process. -/
def State.obligations (s : State w) (e : Label) : List (KeepAlive.Label ℕ ℕ) :=
  match s.effect e with
  | some (r, .reserve _) => [.incur r (s.idle r).tracks.length]
  | some (r, .fetchSub i) => [.discharge r i]
  | _ => []

/-- The obligations of each runtime: its reservations not decremented so far. -/
def State.alive (s : State w) : KeepAlive.State ℕ ℕ := fun r => (s.idle r).outstanding

/-- An operation changes the obligations of its own runtime only. -/
theorem alive_update {s t : State w} {r : ℕ} {l : Idle.Label} (h : Operates s t (some (r, l))) :
    t.alive = Function.update s.alive r (t.idle r).outstanding := by
  funext k
  by_cases hk : k = r
  · subst hk
    rw [Function.update_self]
    rfl
  · rw [Function.update_of_ne hk]
    exact congrArg Idle.State.outstanding (h.2 k hk)

/-- Each step of the process is a step of the abstract rule, or none. -/
theorem step_alive {s t : State w} {e : Label} (h : s.step e = some t) :
    run KeepAlive.step s.alive (s.obligations e) = some t.alive := by
  obtain ⟨ho, _⟩ := step_operates h
  unfold State.obligations
  cases he : s.effect e with
  | none =>
    rw [he] at ho
    exact congrArg some (funext fun r => congrArg Idle.State.outstanding (congrFun ho r).symm)
  | some x =>
    obtain ⟨r, l⟩ := x
    rw [he] at ho
    rw [alive_update ho]
    rcases Idle.step_outstanding ho.1 with ⟨parent, rfl, hn, ht⟩ | ⟨i, rfl, hm, ht⟩ | ⟨hr, hf, ht⟩
    · rw [ht, run_single]
      exact if_pos hn
    · rw [ht, run_single]
      exact if_pos hm
    · rw [ht, show (s.idle r).outstanding = s.alive r from rfl, Function.update_eq_self]
      cases l with
      | reserve => cases hr
      | fetchSub i => exact absurd rfl (hf i)
      | _ => rfl

/-- The process refines the abstract rule. -/
def keepAlive (w : ℕ) : Simulation (State.step (w := w)) (KeepAlive.step (ρ := ℕ) (κ := ℕ)) where
  good _ := True
  abs := State.alive
  emit := State.obligations
  step_good _ _ _ _ _ := trivial
  step_abs _ _ _ _ h := step_alive h

/-! ### What each call does -/

/-- The entry points whose tasks keep the runtime alive. -/
def counted : Point → Bool
  | .compatSpawn | .compatSpawnTyped | .poolSpawn | .poolSpawnStd | .executorSpawn
  | .executorSpawnStd | .executorExecute | .executorTrait | .executorTyped | .handleSpawn
  | .handleSpawnStd | .currentSpawn | .currentSpawnStd | .localSpawn | .localSpawnStd
  | .localExecute | .localTrait | .localTyped | .defaultExecutor => true
  | .poolSpawnHandle | .poolSpawnHandleStd | .executorSpawnHandle | .executorSpawnHandleStd
  | .handleSpawnHandle | .handleSpawnHandleStd | .localSpawnHandle | .localSpawnHandleStd => false

/-- The runtime that a call of a counted entry point spawns on: that of its
receiver, the current one, or that of the default tokio 0.1 executor. -/
def Record.target (d : Record) : Option ℕ :=
  match d.point with
  | .localSpawn | .localSpawnStd | .localExecute | .localTrait | .localTyped => d.slots.currentIdle
  | .defaultExecutor =>
    match d.slots.executor with
    | some (.compat sp) => some sp.idle
    | some (.foreign _) | none => none
  | _ => some d.rt

/-- The runtime a queue belongs to. -/
def runtimeOf : Queue → Option ℕ
  | .scheduler r | .localSet r => some r
  | .root _ => none

/-- A call of a counted entry point makes one reservation, on the runtime that
receives the task, and then hands the task over with it; without a runtime it
does nothing. A call of any other entry point only hands the task over. -/
def Record.Obeys (d : Record) : Prop :=
  if counted d.point then
    match d.target with
    | some r => ∃ n q f, d.ops = [.reserve ⟨r, n⟩, .handOff q f] ∧ runtimeOf q = some r ∧
        f.user = d.user ∧ f.tracks = [⟨r, n⟩] ∧ d.reply = some .ok
    | none => d.ops = []
  else
    ∃ q f h, d.ops = [.handOff q f] ∧ f.user = d.user ∧ f.tracks = [] ∧ d.reply = some (.handle h)

/-- A rule is in keeping with the call `d`. -/
def RuleFits (d : Record) : Rule → Prop
  | .counted i q => counted d.point = true ∧ d.target = some i ∧ runtimeOf q = some i
  | .uncounted _ => counted d.point = false
  | .refused _ | .elsewhere => counted d.point = true ∧ d.target = none
  | .panics _ => True

theorem localRule_fits {d : Record} {e : Reply} (hc : counted d.point = true)
    (ht : d.target = d.slots.currentIdle)
    (hl : ∀ l, d.slots.localSet = some l → d.slots.currentIdle = some l) :
    RuleFits d (Slots.localRule d.slots e) := by
  unfold Slots.localRule
  cases hi : d.slots.currentIdle with
  | none => exact ⟨hc, ht.trans hi⟩
  | some i =>
    cases hs : d.slots.localSet with
    | none => trivial
    | some l => exact ⟨hc, ht.trans hi, (hl l hs).symm.trans hi⟩

/-- The rule of each entry point is in keeping with its calls. -/
theorem rule_fits {d : Record} (he : SameRuntime d.slots)
    (hl : ∀ l, d.slots.localSet = some l → d.slots.currentIdle = some l) :
    RuleFits d (d.point.rule (ofId d.rt) d.user d.slots) := by
  obtain ⟨p, r, u, s, ops, o⟩ := d
  cases p with
  | compatSpawn | compatSpawnTyped | poolSpawn | poolSpawnStd | executorSpawn | executorSpawnStd
  | executorExecute | executorTrait | executorTyped | handleSpawn | handleSpawnStd | currentSpawn
  | currentSpawnStd => exact ⟨rfl, rfl, rfl⟩
  | poolSpawnHandle | poolSpawnHandleStd | executorSpawnHandle | executorSpawnHandleStd
  | handleSpawnHandle | handleSpawnHandleStd => rfl
  | localSpawnHandle | localSpawnHandleStd =>
    unfold Point.rule
    dsimp only
    split
    · rfl
    · trivial
  | localSpawn | localSpawnStd | localTrait | localTyped | localExecute =>
    exact localRule_fits rfl rfl hl
  | defaultExecutor =>
    unfold Point.rule
    dsimp only at he ⊢
    cases hs : s.executor with
    | none => exact ⟨rfl, by simp [Record.target, hs]⟩
    | some x =>
      cases x with
      | compat sp =>
        exact ⟨rfl, by simp [Record.target, hs], congrArg some (he sp hs)⟩
      | foreign k => exact ⟨rfl, by simp [Record.target, hs]⟩

/-- Every call that returns obeys. -/
theorem record_obeys {d : Record} (h : RecordInv d) (hr : d.reply ≠ none) : d.Obeys := by
  have ha := performs_rule h.performs
  have hf := rule_fits h.executor h.localSet
  unfold Record.Obeys
  cases hrule : d.point.rule (ofId d.rt) d.user d.slots with
  | counted i q =>
    rw [hrule] at ha hf
    obtain ⟨hc, ht, hq⟩ := hf
    obtain ⟨n, f, ho, hu, htr, hr⟩ := ha
    rw [hc, ht]
    exact ⟨n, q, f, ho, hq, hu, htr, hr⟩
  | uncounted q =>
    rw [hrule] at ha hf
    obtain ⟨f, j, ho, hu, htr, hr⟩ := ha
    rw [show counted d.point = false from hf]
    exact ⟨q, f, j, ho, hu, htr, hr⟩
  | refused e =>
    rw [hrule] at ha hf
    rw [hf.1, hf.2]
    exact ha.1
  | elsewhere =>
    rw [hrule] at ha hf
    rw [hf.1, hf.2]
    exact ha.1
  | panics i =>
    rw [hrule] at ha
    cases i with
    | none => exact absurd ha.2 hr
    | some i =>
      obtain ⟨_, _, hn⟩ := ha
      exact absurd hn hr

/-! ### Where the tasks are -/

/-- Every program can be run to its end. -/
theorem performs_exists {α : Type} (s : Slots) (c : Code α) : ∃ ops o, Performs s c ops o := by
  induction c with
  | done a => exact ⟨[], some a, .done a⟩
  | reserve i k ih =>
    obtain ⟨ops, o, h⟩ := ih ⟨i, 0⟩
    exact ⟨_, o, .reserve h⟩
  | handOff q f k ih =>
    cases hq : q.queue s with
    | none => exact ⟨[], none, .panic hq⟩
    | some q' =>
      obtain ⟨ops, o, h⟩ := ih ()
      exact ⟨_, o, .handOff hq h⟩
  | currentIdle k ih =>
    obtain ⟨ops, o, h⟩ := ih s.currentIdle
    exact ⟨ops, o, .currentIdle h⟩
  | defaultExecutor k ih =>
    obtain ⟨ops, o, h⟩ := ih s.executor
    exact ⟨ops, o, .defaultExecutor h⟩

/-- The only hand-offs a rule allows. -/
theorem allows_handOff {rule : Rule} {u : ℕ} {ops : List Op} {o : Option Reply} {q : Queue} {f : Fut}
    (h : rule.Allows u ops o) (hq : .handOff q f ∈ ops) :
    (∃ i n, rule = .counted i q ∧ f.tracks = [⟨i, n⟩]) ∨ f.tracks = [] := by
  cases rule with
  | counted i q' =>
    obtain ⟨n, f', rfl, _, ht, _⟩ := h
    simp only [List.mem_cons, reduceCtorEq, Op.handOff.injEq, List.not_mem_nil, or_false,
      false_or] at hq
    obtain ⟨rfl, rfl⟩ := hq
    exact Or.inl ⟨i, n, rfl, ht⟩
  | uncounted q' =>
    obtain ⟨f', j, rfl, _, ht, _⟩ := h
    simp only [List.mem_singleton, Op.handOff.injEq] at hq
    obtain ⟨rfl, rfl⟩ := hq
    exact Or.inr ht
  | refused | elsewhere =>
    rw [h.1] at hq
    exact absurd hq List.not_mem_nil
  | panics i =>
    cases i with
    | none =>
      rw [h.1] at hq
      exact absurd hq List.not_mem_nil
    | some i =>
      obtain ⟨n, rfl, _⟩ := h
      cases List.mem_singleton.mp hq

/-- Tracked tasks are in the queues of the runtime that counts them. -/
def Placed (ys : List Task) : Prop :=
  ∀ y ∈ ys, ∀ n, track y.fut = some n → isRoot y.queue = true ∨ runtimeOf y.queue = some n.idle

/-- The future that an entry point hands over goes to the runtime that counts it. -/
theorem handOff_placed {x : Actor} {c : SpawnCall} {q : Target} {q' : Queue} {f : Fut}
    {k : Unit → Code Reply} (h : ActorInv x) (hc : x.call = some c) (hk : c.code = .handOff q f k)
    (hq : q.queue x.ctx.slots = some q') {n : Track} (hn : track f = some n) :
    runtimeOf q' = some n.idle := by
  obtain ⟨ops, o, hp⟩ := performs_exists x.ctx.slots (k ())
  have hrun := h.call c hc _ o (hk ▸ Performs.handOff hq hp)
  have hm : Op.handOff q' f ∈ c.ops ++ .handOff q' f :: ops := by simp
  rcases allows_handOff (performs_rule hrun) hm with ⟨i, j, hrule, ht⟩ | ht
  · have hf := rule_fits (d := ⟨c.point, c.rt, c.user, x.ctx.slots, [], none⟩) (actor_executor h)
      fun l hl => actor_localSet h hl
    rw [hrule] at hf
    rw [track, ht] at hn
    cases hn
    exact hf.2.2
  · rw [track, ht] at hn
    cases hn

theorem mem_mark {s : State w} {k : ℕ} {p : Status} {y : Task} (h : y ∈ s.mark k p) :
    ∃ z ∈ s.tasks, z.queue = y.queue ∧ z.fut = y.fut := by
  obtain ⟨j, hj⟩ := List.mem_iff_getElem?.mp h
  rw [State.mark, List.getElem?_modify] at hj
  obtain ⟨z, hz, rfl⟩ := Option.map_eq_some_iff.mp hj
  refine ⟨z, List.mem_of_getElem? hz, ?_⟩
  split <;> exact ⟨rfl, rfl⟩

theorem mark_placed {s : State w} (h : Placed s.tasks) (k : ℕ) (p : Status) :
    Placed (s.mark k p) := by
  intro y hy n hn
  obtain ⟨z, hz, hq, hf⟩ := mem_mark hy
  rw [← hq]
  exact h z hz n (hf ▸ hn)

theorem append_placed {ys zs : List Task} (hy : Placed ys) (hz : Placed zs) : Placed (ys ++ zs) :=
  fun y h => (List.mem_append.mp h).elim (hy y) (hz y)

theorem root_placed (s : State w) (t u : ℕ) : Placed (s.root t u) := by
  unfold State.root
  split
  · intro y hy n _
    rw [List.mem_singleton.mp hy]
    exact Or.inl rfl
  · exact fun y hy => absurd hy List.not_mem_nil

theorem endPoll_placed {s : State w} (h : Placed s.tasks) (x : Actor) (p : Status) :
    Placed (s.endPoll x p) := by
  unfold State.endPoll
  split
  · exact mark_placed h _ p
  · exact h

/-- A step keeps every task where it belongs. -/
theorem next_placed {s u : State w} {e : Label} (hi : Inv s) (hp : Placed s.tasks)
    (h : Next s e u) : Placed u.tasks := by
  cases h with
  | build | thread | env | wait | track | spawn => exact hp
  | @act t e x =>
    cases e with
    | setup => exact append_placed hp (root_placed s _ _)
    | poll => exact mark_placed hp _ _
    | pending | finishPoll | unwind => exact endPoll_placed hp _ _
    | _ => exact hp
  | @exec t x c hx hc =>
    unfold State.exec
    cases hk : c.code with
    | handOff q f k =>
      dsimp only
      cases hq : q.queue x.ctx.slots with
      | none => exact hp
      | some q' =>
        refine append_placed hp fun y hy n hn => ?_
        rw [List.mem_singleton.mp hy] at hn ⊢
        exact Or.inr (handOff_placed (hi.actors x (List.mem_of_getElem? hx)) hc hk hq hn)
    | _ => exact hp
  | dropTask => exact mark_placed hp _ _

theorem run_placed {es : List Label} {s : State w} (h : run State.step (start w) es = some s) :
    Placed s.tasks := by
  refine (run_invariant (P := fun s => Inv s ∧ Placed s.tasks) (fun s e t hi ht => ?_) ?_ h).2
  · obtain ⟨_, u, hu, he⟩ := step_operates ht
    exact ⟨step_inv hi.1 ht, he ▸ next_placed hi.1 hi.2 hu⟩
  · exact ⟨@run_inv w _ [] rfl, fun y hy => absurd hy List.not_mem_nil⟩

/-! ### The refinement -/

/-- How often a run decrements the count for the reservation `n`. -/
def decrements (w : ℕ) (es : List Label) (n : Track) : ℕ :=
  (idleLabels w n.idle es).count (.fetchSub n.index)

theorem decrements_eq {es : List Label} {u : State w} (h : run State.step (start w) es = some u)
    {n : Track} {p : Idle.Phase} (hp : u.phase n = some p) :
    decrements w es n = p.decremented.toNat := by
  obtain ⟨c, hc, rfl⟩ := Option.map_eq_some_iff.mp hp
  rw [decrements, Idle.fetchSub_count (run_idle h n.idle), Idle.phaseIs_of_tracks hc]

/-- What the rule asks of task `k`, which has the reservation `n`, after the run `es`. -/
structure TaskObeys (es : List Label) (u : State w) (k : ℕ) (y : Task) (n : Track) : Prop where
  /-- It is the future of a `block_on`, or in a queue of the runtime that counts it. -/
  placed : isRoot y.queue = true ∨ runtimeOf y.queue = some n.idle
  /-- No other task has its reservation. -/
  own : ∀ j z, u.tasks[j]? = some z → track z.fut = some n → j = k
  once : decrements w es n ≤ 1
  resolved : y.status = .resolved → decrements w es n = 1
  /-- Only a resolved future is counted down. -/
  unresolved : y.status ∈ [.waiting, .dropped, .panicked] → decrements w es n = 0

theorem task_obeys {es : List Label} {u : State w} (h : run State.step (start w) es = some u)
    {k : ℕ} {y : Task} {n : Track} (hy : u.tasks[k]? = some y) (hn : track y.fut = some n) :
    TaskObeys es u k y n := by
  have hi := run_taskInv h
  obtain ⟨p, hp, hf⟩ := hi.fits k n _ (owner_task hy hn)
  refine ⟨run_placed h y (List.mem_of_getElem? hy) n hn, fun j z hz hm => ?_, ?_, fun hs => ?_,
    fun hs => ?_⟩
  · exact hi.distinct j k n _ _ (owner_task hz hm) (owner_task hy hn)
  · rw [decrements_eq h hp]
    exact Bool.toNat_le _
  · rw [hs] at hf
    rw [decrements_eq h hp]
    cases p <;> first | rfl | cases hf
  · simp only [List.mem_cons, List.not_mem_nil, or_false] at hs
    rw [decrements_eq h hp]
    rcases hs with hs | hs | hs <;> rw [hs] at hf <;> cases p <;> first | rfl | cases hf

end TokioCompat.World

