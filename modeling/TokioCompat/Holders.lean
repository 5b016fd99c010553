import TokioCompat.SpawnRefinement
import TokioCompat.WorldContext

/-!
# Every reservation has one holder

A reservation is made in an entry point or in the set-up of a `block_on`, and a
future takes it over there. In between it is in the hands of the thread that
made it: the programs of the entry points use what they hold exactly once, a
set-up line hands it over or gives it up, and no other step of the process
touches it. No reservation is shared, used twice or forgotten.
-/

namespace TokioCompat.Spawn

/-- A program that holds the reservation given, if any, hands over a future around
it next, takes no other before that and ends with none. -/
def Code.Linear {α : Type} : Code α → Option Track → Prop
  | .done _, p => p = none
  | .reserve i k, p => p = none ∧ ∀ n, (k ⟨i, n⟩).Linear (some ⟨i, n⟩)
  | .handOff _ f k, p => f.tracks = p.toList ∧ (k ()).Linear none
  | .currentIdle k, p => ∀ i, (k i).Linear p
  | .defaultExecutor k, p => ∀ e, (k e).Linear p

/-- Every entry point keeps to that. -/
theorem point_linear (q : Point) (rt : Context.Runtime) (u : ℕ) : (q.code rt u).Linear none := by
  cases q with
  | compatSpawn | compatSpawnTyped | poolSpawn | poolSpawnStd | executorSpawn | executorSpawnStd
  | executorExecute | executorTrait | executorTyped | handleSpawn | handleSpawnStd | currentSpawn
  | currentSpawnStd => exact ⟨rfl, fun _ => ⟨rfl, rfl⟩⟩
  | poolSpawnHandle | poolSpawnHandleStd | executorSpawnHandle | executorSpawnHandleStd
  | handleSpawnHandle | handleSpawnHandleStd | localSpawnHandle | localSpawnHandleStd =>
    exact ⟨rfl, rfl⟩
  | localSpawn | localSpawnStd | localTrait | localTyped | localExecute =>
    intro i
    cases i with
    | none => exact rfl
    | some i => exact ⟨rfl, fun _ => ⟨rfl, rfl⟩⟩
  | defaultExecutor =>
    intro e
    cases e with
    | none => exact rfl
    | some e =>
      cases e with
      | compat sp => exact ⟨rfl, fun _ => ⟨rfl, rfl⟩⟩
      | foreign k => exact rfl

/-- The reservation that these operations made last, if nothing was handed over since. -/
def pending (ops : List Op) : Option Track :=
  match ops.getLast? with
  | some (.reserve n) => some n
  | some (.handOff ..) | none => none

theorem pending_reserve (ops : List Op) (n : Track) : pending (ops ++ [.reserve n]) = some n := by
  rw [pending, List.getLast?_concat]

theorem pending_handOff (ops : List Op) (q : Queue) (f : Fut) :
    pending (ops ++ [.handOff q f]) = none := by
  rw [pending, List.getLast?_concat]

end TokioCompat.Spawn

namespace TokioCompat.World

open Context Spawn Transition

variable {w : ℕ}

/-- The reservation in the hands of a thread: that of its entry point in progress
or, during the set-up of a call, that of the call. -/
def Actor.holds (x : Actor) : Option Track :=
  match x.call with
  | some c => pending c.ops
  | none => x.top.bind fun c => if c.todo = [] then none else c.track.map (Track.mk c.rt.idle)

/-! ### A table of holders -/

/-- Exactly the reservations in this phase are held, each by one thread. -/
structure Held (holder : ℕ → Option Track) (phase : Track → Option Idle.Phase) : Prop where
  reserved : ∀ {t n}, holder t = some n → phase n = some .reserved
  distinct : ∀ {t t' n}, holder t = some n → holder t' = some n → t = t'
  held : ∀ {n}, phase n = some .reserved → ∃ t, holder t = some n

section Held

variable {holder holder' : ℕ → Option Track} {phase phase' : Track → Option Idle.Phase} {t : ℕ}
  {n : Track} (h : Held holder phase)
include h

/-- Nothing is taken or given. -/
theorem held_same (hh : ∀ i, holder' i = holder i)
    (hp : ∀ m, phase' m = some .reserved ↔ phase m = some .reserved) : Held holder' phase' := by
  obtain rfl : holder' = holder := funext hh
  exact ⟨fun hi => (hp _).mpr (h.reserved hi), h.distinct, fun hm => h.held ((hp _).mp hm)⟩

/-- Thread `t` takes a new reservation. -/
theorem held_take (ht : holder' t = some n) (hh : ∀ i, i ≠ t → holder' i = holder i)
    (h0 : holder t = none) (hn : phase n = none) (hp : phase' n = some .reserved)
    (hother : ∀ m, m ≠ n → phase' m = phase m) : Held holder' phase' := by
  -- nobody held it before
  have fresh : ∀ i, holder i ≠ some n := fun i hi => by
    have hr := h.reserved hi
    rw [hn] at hr
    cases hr
  have old : ∀ {i m}, i ≠ t → holder' i = some m → holder i = some m := fun hi hm => hh _ hi ▸ hm
  constructor
  · intro i m hm
    by_cases hi : i = t
    · rw [hi, ht] at hm
      exact Option.some.inj hm ▸ hp
    · have hm' := old hi hm
      have hne : m ≠ n := fun he => fresh i (he ▸ hm')
      rw [hother m hne]
      exact h.reserved hm'
  · intro i j m hi hj
    by_cases hit : i = t
    · by_cases hjt : j = t
      · rw [hit, hjt]
      · rw [hit, ht] at hi
        exact absurd (old hjt (Option.some.inj hi ▸ hj)) (fresh j)
    · by_cases hjt : j = t
      · rw [hjt, ht] at hj
        exact absurd (old hit (Option.some.inj hj ▸ hi)) (fresh i)
      · exact h.distinct (old hit hi) (old hjt hj)
  · intro m hm
    by_cases hmn : m = n
    · exact ⟨t, hmn ▸ ht⟩
    · obtain ⟨i, hi⟩ := h.held (hother m hmn ▸ hm)
      have hit : i ≠ t := fun he => by
        rw [he, h0] at hi
        cases hi
      exact ⟨i, (hh i hit).trans hi⟩

/-- Thread `t` gives its reservation away. -/
theorem held_give (ht : holder t = some n) (ht' : holder' t = none)
    (hh : ∀ i, i ≠ t → holder' i = holder i) (hp : phase' n ≠ some .reserved)
    (hother : ∀ m, m ≠ n → phase' m = phase m) : Held holder' phase' := by
  have old : ∀ {i m}, holder' i = some m → i ≠ t ∧ holder i = some m := fun {i m} hm => by
    have hi : i ≠ t := fun he => by
      rw [he, ht'] at hm
      cases hm
    exact ⟨hi, hh i hi ▸ hm⟩
  constructor
  · intro i m hm
    obtain ⟨hi, hm'⟩ := old hm
    have hne : m ≠ n := fun he => hi (h.distinct (he ▸ hm') ht)
    rw [hother m hne]
    exact h.reserved hm'
  · exact fun hi hj => h.distinct (old hi).2 (old hj).2
  · intro m hm
    have hne : m ≠ n := fun he => hp (he ▸ hm)
    obtain ⟨i, hi⟩ := h.held (hother m hne ▸ hm)
    have hit : i ≠ t := fun he => by
      rw [he, ht] at hi
      exact hne (Option.some.inj hi).symm
    exact ⟨i, (hh i hit).trans hi⟩

end Held

/-! ### What a step does to the table -/

/-- The operation leaves the reservations that are still to be handed over alone. -/
def keepsReserved : Idle.Label → Bool
  | .reserve _ | .move _ .handOff | .lose _ .abandoned => false
  | _ => true

/-- Neither the phase such an operation starts in nor the one it leads to is theirs. -/
theorem advances_kept {l : Idle.Label} {i : ℕ} {p p' : Idle.Phase} (h : Idle.Advances l i p p')
    (hl : keepsReserved l = true) : p ≠ .reserved ∧ p' ≠ .reserved := by
  cases h with
  | @move i m p p' hm =>
    cases m with
    | handOff => cases hl
    | poll | pend | resolve =>
      cases p <;> cases hm
      exact ⟨by decide, by decide⟩
  | @lose i loss =>
    cases loss with
    | abandoned => cases hl
    | dropped | panicked => exact ⟨by decide, by decide⟩
  | notify | finish | send => exact ⟨by decide, by decide⟩

/-- No other operation makes a reservation or takes one over. -/
theorem operates_kept {s v : State w} {o : Option (ℕ × Idle.Label)} (h : Operates s v o)
    (hk : ∀ r l, o = some (r, l) → keepsReserved l = true) (m : Track) :
    v.phase m = some .reserved ↔ s.phase m = some .reserved := by
  cases o with
  | none => rw [State.phase, State.phase, show v.idle = s.idle from h]
  | some x =>
    obtain ⟨r, l⟩ := x
    have hl := hk r l rfl
    cases ht : l.track with
    | none =>
      have hsame : v.phase m = s.phase m := by
        unfold State.phase
        by_cases hr : m.idle = r
        · subst hr
          rcases Idle.step_tracks h.1 with ⟨_, rfl, _⟩ | ⟨i, c, p, _, ha, _⟩ | ⟨_, _, htracks⟩
          · cases hl
          · rw [Idle.advances_track ha] at ht
            cases ht
          · rw [htracks]
        · rw [h.2 _ hr]
      rw [hsame]
    | some i =>
      obtain ⟨p, p', hp, hp', ha, hother⟩ := operates_track (n := ⟨r, i⟩) h ht
      by_cases hm : m = ⟨r, i⟩
      · obtain ⟨hne, hne'⟩ := advances_kept ha hl
        rw [hm, hp, hp']
        exact ⟨fun he => absurd (Option.some.inj he) hne', fun he => absurd (Option.some.inj he) hne⟩
      · rw [hother m hm]

/-- A new reservation is the next one of its tracker. -/
theorem operates_reserve {s v : State w} {i : ℕ} {parent : Option ℕ}
    (h : Operates s v (some (i, .reserve parent))) :
    s.phase ⟨i, (s.idle i).tracks.length⟩ = none ∧
      v.phase ⟨i, (s.idle i).tracks.length⟩ = some .reserved ∧
      ∀ m, m ≠ ⟨i, (s.idle i).tracks.length⟩ → v.phase m = s.phase m := by
  obtain ⟨-, -, hv⟩ := Idle.step_reserve.mp h.1
  have htracks : (v.idle i).tracks = (s.idle i).tracks ++ [⟨parent, .reserved⟩] := by
    rw [← hv]
    rfl
  refine ⟨by simp [State.phase], by simp [State.phase, htracks], fun m hm => ?_⟩
  unfold State.phase
  by_cases hi : m.idle = i
  · subst hi
    have hne : m.index ≠ (s.idle m.idle).tracks.length := fun he => hm (by rw [← he])
    rw [htracks, List.getElem?_append]
    split
    next => rfl
    next hlt =>
      rw [List.getElem?_eq_none (by simp; omega), List.getElem?_eq_none (by omega)]
  · rw [h.2 _ hi]

/-- The holder of each thread of a process. -/
def State.holder (s : State w) (t : ℕ) : Option Track := (s.threads[t]?).bind Actor.holds

/-- What a thread holds before and after an operation that it performs. -/
inductive Exchange (s : State w) (before after : Option Track) : Option (ℕ × Idle.Label) → Prop
  | quiet (h : after = before) : Exchange s before after none
  | other {r l} (h : after = before) (hl : keepsReserved l = true) :
    Exchange s before after (some (r, l))
  | take {i parent} (hb : before = none) (ha : after = some ⟨i, (s.idle i).tracks.length⟩) :
    Exchange s before after (some (i, .reserve parent))
  | handOver {n : Track} (hb : before = some n) (ha : after = none) :
    Exchange s before after (some (n.idle, .move n.index .handOff))
  | giveUp {n : Track} (hb : before = some n) (ha : after = none) :
    Exchange s before after (some (n.idle, .lose n.index .abandoned))

/-- An exchange on one thread keeps the table. -/
theorem exchange_held {s v : State w} {t : ℕ} {x y : Actor} {o : Option (ℕ × Idle.Label)}
    (h : Held s.holder s.phase) (hx : s.threads[t]? = some x)
    (hv : v.threads = s.threads.set t y) (he : Exchange s x.holds y.holds o)
    (ho : Operates s v o) : Held v.holder v.phase := by
  have before : s.holder t = x.holds := by rw [State.holder, hx, Option.bind_some]
  have after : v.holder t = y.holds := by
    rw [State.holder, hv, List.getElem?_set_self (List.getElem?_eq_some_iff.mp hx).1,
      Option.bind_some]
  have others : ∀ i, i ≠ t → v.holder i = s.holder i := fun i hi => by
    rw [State.holder, State.holder, hv, List.getElem?_set_ne (Ne.symm hi)]
  have same : y.holds = x.holds → ∀ i, v.holder i = s.holder i := fun hxy i => by
    by_cases hi : i = t
    · rw [hi, after, before, hxy]
    · exact others i hi
  cases he with
  | quiet hxy => exact held_same h (same hxy) (operates_kept ho (fun _ _ hn => by cases hn))
  | other hxy hl =>
    refine held_same h (same hxy) (operates_kept ho fun r l hrl => ?_)
    cases hrl
    exact hl
  | take hb ha =>
    obtain ⟨hnone, hres, hother⟩ := operates_reserve ho
    exact held_take h (after.trans ha) others (before.trans hb) hnone hres hother
  | handOver hb ha =>
    obtain ⟨p, p', -, hp', hadv, hother⟩ := operates_track ho rfl
    refine held_give h (before.trans hb) (after.trans ha) others (fun hr => ?_) hother
    rw [hp'] at hr
    cases hr
    cases hadv with
    | move hm => cases p <;> cases hm
  | giveUp hb ha =>
    obtain ⟨p, p', -, hp', hadv, hother⟩ := operates_track ho rfl
    refine held_give h (before.trans hb) (after.trans ha) others (fun hr => ?_) hother
    rw [hp'] at hr
    cases hr
    cases hadv

/-! ### One thread -/

section Thread

variable {s : State w} {x : Actor} {t : ℕ}

/-- Where no set-up is going on, nothing is held. -/
theorem holds_none (hn : x.call = none) (ht : ∀ c, x.top = some c → c.todo = []) :
    x.holds = none := by
  unfold Actor.holds
  rw [hn]
  dsimp only
  cases hc : x.top with
  | none => rfl
  | some c => rw [Option.bind_some, if_pos (ht c hc)]

theorem top_frames {c : Call} (h : x.top = some c) :
    x.ctx.unwinding = none ∧ ∃ fs, x.ctx.frames = .call c :: fs := by
  unfold Actor.top at h
  split at h
  next d fs hu hf => exact ⟨hu, fs, Option.some.inj h ▸ hf⟩
  next => cases h

theorem holds_userCode (hn : x.call = none) (hu : x.ctx.userCode = true) : x.holds = none :=
  holds_none hn fun c hc => by
    obtain ⟨-, fs, hf⟩ := top_frames hc
    exact userCode_top hu c fs hf

/-- Apart from set-up lines no step of a thread's context is taken while it holds a
reservation, or leads to that. -/
theorem act_holds {a : Act} {c : Thread} (hs : x.ctx.Settled) (hn : x.call = none)
    (hc : x.ctx.step a = some c) (ha : ∀ i, a ≠ .setup i) :
    x.holds = none ∧ Actor.holds { x with ctx := c } = none := by
  have low : ∀ {u : Thread} {f : Frame}, x.ctx.frames = f :: u.frames →
      ∀ d, Actor.top { x with ctx := u } = some d → d.todo = [] := fun {u f} hf d hd => by
    obtain ⟨-, fs, hfs⟩ := top_frames hd
    refine hs d (mem_calls.mpr ?_)
    rw [hf, List.tail_cons, show u.frames = .call d :: fs from hfs]
    exact List.mem_cons_self
  have before : ∀ {σ : Slots} {f : Frame} {fs : List Frame} {p : Option Panic},
      x.ctx = ⟨σ, f :: fs, p⟩ → (∀ d, f = .call d → p = none → d.todo = []) → x.holds = none :=
    fun hx hd => holds_none hn fun d ht => by
      obtain ⟨hu, gs, hf⟩ := top_frames ht
      rw [hx] at hu hf
      exact hd d (List.cons.inj hf).1 hu
  generalize hx : x.ctx = th at hc
  cases Context.step_cases hc with
  | call hu =>
    subst hx
    refine ⟨holds_userCode hn hu, ?_⟩
    unfold Actor.holds
    rw [hn]
    dsimp only [Actor.top]
    cases x.ctx.unwinding <;> simp
  | setup | setupPanic => exact absurd rfl (ha _)
  | retCall hd =>
    exact ⟨before hx fun d he _ => by cases he; exact hd, holds_none hn (low (by rw [hx]))⟩
  | retCatching | retPoll =>
    exact ⟨before hx (fun d he _ => by cases he), holds_none hn (low (by rw [hx]))⟩
  | unwindCall | unwindCatching | unwindPoll =>
    exact ⟨before hx (fun d _ hp => by cases hp), holds_none hn (low (by rw [hx]))⟩
  | panic hu =>
    subst hx
    exact ⟨holds_userCode hn hu, holds_none hn fun d hd => by cases (top_frames hd).1⟩
  | catchUnwind hu =>
    subst hx
    exact ⟨holds_userCode hn hu, holds_none hn fun d hd => by
      obtain ⟨-, fs, hf⟩ := top_frames hd
      cases hf⟩
  | poll hp =>
    subst hx
    refine ⟨holds_none hn fun d hd => ?_, holds_none hn fun d hd => ?_⟩
    · obtain ⟨-, fs, hf⟩ := top_frames hd
      exact polls_top hp d fs hf
    · obtain ⟨-, fs, hf⟩ := top_frames hd
      cases hf

/-- The line that makes the reservation comes once, and not last. -/
theorem reserve_once {c : Call} {gs : List Guard} (ho : c.Ordered) (hn : c.todo = .reserve :: gs) :
    .reserve ∉ c.held ∧ gs ≠ [] := by
  have hnodup : c.api.setup.Nodup := by cases c.api <;> decide
  have hlast : c.api.setup.getLast? ≠ some .reserve := by cases c.api <;> decide
  rw [← (ho : c.held.reverse ++ c.todo = c.api.setup), hn] at hnodup hlast
  constructor
  · intro hm
    exact (List.nodup_append.mp hnodup).2.2 _ (List.mem_reverse.mpr hm) _ List.mem_cons_self rfl
  · rintro rfl
    exact hlast List.getLast?_concat

/-- The body of a call with a reservation takes it over. -/
theorem body_handOff {c : Call} {n : ℕ} (ho : c.Ordered)
    (hr : c.track.isSome = c.held.contains .reserve) (hn : c.track = some n) :
    body c = some (.move n .handOff) := by
  have hmem : Guard.reserve ∈ c.api.setup := by
    rw [hn] at hr
    have hheld : Guard.reserve ∈ c.held := by simpa using hr.symm
    rw [← (ho : c.held.reverse ++ c.todo = c.api.setup)]
    exact List.mem_append_left _ (List.mem_reverse.mpr hheld)
  unfold body
  cases hapi : c.api <;> rw [hapi] at hmem <;>
    first | (rw [hn]; rfl) | exact absurd hmem (by decide)

/-- What a set-up line does with the reservation of its call. -/
theorem setup_exchange {u : ℕ} {c : Call} {y : Thread} (hx : s.threads[t]? = some x)
    (ha : ActorInv x) (hr : x.ctx.Reserved) (hn : x.call = none) (hc : x.top = some c)
    (hy : x.ctx.step (.setup (s.idle c.rt.idle).tracks.length) = some y) :
    Exchange s x.holds (Actor.holds { x with ctx := y }) (s.effect (.setup t u)) := by
  have he : s.effect (.setup t u) =
      (setupEffect c x.ctx.slots (s.parent x c.rt.idle)).map fun l => (c.rt.idle, l) := by
    simp only [State.effect, hx, hc, Option.bind_eq_bind, Option.bind_some, Option.pure_def]
    cases setupEffect c x.ctx.slots (s.parent x c.rt.idle) <;> rfl
  obtain ⟨hunw, fs, hf⟩ := top_frames hc
  have hm : .call c ∈ x.ctx.frames := by
    rw [hf]
    exact List.mem_cons_self
  have hord := ha.ctx.ordered c hm
  have htrack : .reserve ∉ c.held → c.track = none := fun hh => by
    have hs := hr c hm
    rw [show c.held.contains .reserve = false by simpa using hh] at hs
    exact Option.isNone_iff_eq_none.mp (Option.isSome_eq_false_iff.mp hs)
  have before : c.todo ≠ [] → x.holds = c.track.map (Track.mk c.rt.idle) := fun hd => by
    unfold Actor.holds
    rw [hn]
    dsimp only
    rw [hc, Option.bind_some, if_neg hd]
  rw [he]
  generalize hth : x.ctx = th at hy
  cases Context.step_cases hy with
  | @setup σ ρ d g gs fs' i hd hacq =>
    rw [hth] at hf hunw
    obtain ⟨hcd, rfl⟩ := List.cons.inj hf
    obtain rfl := Frame.call.inj hcd
    rw [before (by rw [hd]; exact List.cons_ne_nil g gs)]
    have after : ∀ e : Call, Actor.holds { x with ctx := ⟨ρ, .call e :: fs', none⟩ } =
        if e.todo = [] then none else e.track.map (Track.mk e.rt.idle) := fun e => by
      unfold Actor.holds
      rw [hn]
      rfl
    rw [after]
    dsimp only
    unfold setupEffect
    rw [hd]
    dsimp only
    rw [hacq]
    dsimp only
    by_cases hg : g = .reserve
    · subst hg
      obtain ⟨hnot, hgs⟩ := reserve_once hord hd
      rw [if_pos rfl, if_neg hgs, if_pos rfl, htrack hnot]
      exact .take rfl rfl
    · rw [if_neg hg, if_neg hg]
      by_cases hgs : gs = []
      · rw [if_pos hgs, if_pos hgs]
        cases hk : d.track with
        | some n =>
          rw [body_handOff hord (hr d hm) hk]
          exact .handOver (n := ⟨d.rt.idle, n⟩) rfl rfl
        | none =>
          unfold body
          rw [hk]
          cases d.api
          case poolShutdownOnIdle | currentRun => exact .other rfl rfl
          all_goals exact .quiet rfl
      · rw [if_neg hgs, if_neg hgs]
        exact .quiet rfl
  | @setupPanic σ ρ d g gs fs' i p hd hacq =>
    rw [hth] at hf hunw
    obtain ⟨hcd, rfl⟩ := List.cons.inj hf
    obtain rfl := Frame.call.inj hcd
    rw [before (by rw [hd]; exact List.cons_ne_nil g gs)]
    have after : Actor.holds { x with ctx := ⟨d.leave ρ, fs', some p⟩ } = none := by
      refine holds_none hn fun e ht => ?_
      cases (top_frames ht).1
    rw [after]
    unfold setupEffect
    rw [hd]
    dsimp only
    rw [hacq]
    cases hk : d.track with
    | none => exact .quiet rfl
    | some n => exact .giveUp (n := ⟨d.rt.idle, n⟩) rfl rfl

/-- What one operation of an entry point does with its reservation. -/
theorem exec_exchange {c : SpawnCall} (hx : s.threads[t]? = some x) (hc : x.call = some c)
    (hl : c.code.Linear (pending c.ops)) (hu : x.ctx.userCode = true) :
    ∃ y, (s.exec t x c).threads = s.threads.set t y ∧
      (∀ d, y.call = some d → d.code.Linear (pending d.ops)) ∧
      Exchange s x.holds y.holds (s.effect (.exec t)) := by
  have before : x.holds = pending c.ops := by
    unfold Actor.holds
    rw [hc]
  rw [before]
  unfold State.exec
  cases hk : c.code with
  | done a =>
    rw [hk] at hl
    have he : s.effect (.exec t) = none := by simp [State.effect, hx, hc, hk]
    refine ⟨{ x with call := none }, rfl, fun d hd => (by cases hd), ?_⟩
    rw [he, show pending c.ops = none from hl]
    exact .quiet (holds_userCode rfl hu)
  | reserve i k =>
    rw [hk] at hl
    obtain ⟨hnone, hcode⟩ := hl
    have he : s.effect (.exec t) = some (i, .reserve (s.parent x i)) := by
      simp [State.effect, hx, hc, hk]
    refine ⟨_, rfl, fun (d : SpawnCall) hd => ?_, ?_⟩
    · obtain rfl := Option.some.inj hd
      rw [pending_reserve]
      exact hcode _
    · rw [he, hnone]
      exact .take rfl (pending_reserve c.ops _)
  | handOff q f k =>
    rw [hk] at hl
    obtain ⟨htracks, hcode⟩ := hl
    have htrack : track f = pending c.ops := by
      rw [track, htracks]
      cases pending c.ops <;> rfl
    have he : s.effect (.exec t) = (track f).map fun n =>
        (n.idle, if (q.queue x.ctx.slots).isSome then .move n.index .handOff
          else .lose n.index .abandoned) := by
      simp only [State.effect, hx, hc, hk, Option.bind_eq_bind, Option.bind_some, Option.pure_def]
      cases track f <;> rfl
    rw [he, htrack]
    dsimp only
    cases hq : q.queue x.ctx.slots with
    | some q' =>
      refine ⟨_, rfl, fun (d : SpawnCall) hd => ?_, ?_⟩
      · obtain rfl := Option.some.inj hd
        rw [pending_handOff]
        exact hcode
      · unfold Actor.holds
        dsimp only
        rw [pending_handOff]
        cases pending c.ops with
        | none => exact .quiet rfl
        | some n => exact .handOver rfl rfl
    | none =>
      refine ⟨⟨x.role, { x.ctx with unwinding := some .noLocalSet }, none⟩, rfl,
        fun d hd => (by cases hd), ?_⟩
      have after : Actor.holds ⟨x.role, { x.ctx with unwinding := some .noLocalSet }, none⟩ = none :=
        holds_none rfl fun e ht => by cases (top_frames ht).1
      cases hp : pending c.ops with
      | none => exact .quiet after
      | some n => exact .giveUp rfl after
  | currentIdle k =>
    rw [hk] at hl
    have he : s.effect (.exec t) = none := by simp [State.effect, hx, hc, hk]
    refine ⟨_, rfl, fun (d : SpawnCall) hd => ?_, ?_⟩
    · obtain rfl := Option.some.inj hd
      rw [List.append_nil]
      exact hl _
    · rw [he]
      exact .quiet (congrArg pending (List.append_nil c.ops))
  | defaultExecutor k =>
    rw [hk] at hl
    have he : s.effect (.exec t) = none := by simp [State.effect, hx, hc, hk]
    refine ⟨_, rfl, fun (d : SpawnCall) hd => ?_, ?_⟩
    · obtain rfl := Option.some.inj hd
      rw [List.append_nil]
      exact hl _
    · rw [he]
      exact .quiet (congrArg pending (List.append_nil c.ops))

end Thread

/-! ### Every reservation of a process -/

/-- The entry points in progress use what they hold once, and the table is right. -/
structure Holding (s : State w) : Prop where
  linear : ∀ x ∈ s.threads, ∀ c, x.call = some c → c.code.Linear (pending c.ops)
  table : Held s.holder s.phase

/-- Only entry points and set-up lines deal with reservations still to be handed over. -/
theorem effect_keeps {s : State w} {e : Label} {r : ℕ} {l : Idle.Label}
    (h : s.effect e = some (r, l)) (hv : ∀ k i, e = .env k i → environment i = true)
    (hs : ∀ t u, e ≠ .setup t u) (he : ∀ t, e ≠ .exec t) : keepsReserved l = true := by
  cases effect_cases h with
  | env =>
    have hl := hv _ _ rfl
    cases l <;> first | rfl | cases hl
  | setup => exact absurd rfl (hs _ _)
  | load | recv | poll | dropTask => rfl
  | @polled _ t _ _ _ n op hp => cases e <;> cases hp <;> rfl
  | reserve | handOff | abandon => exact absurd rfl (he _)

/-- Replacing a thread by one whose entry point is in order too. -/
theorem linear_set {s : State w} {t : ℕ} {y : Actor}
    (h : ∀ x ∈ s.threads, ∀ c, x.call = some c → c.code.Linear (pending c.ops))
    (hy : ∀ c, y.call = some c → c.code.Linear (pending c.ops)) :
    ∀ x ∈ s.threads.set t y, ∀ c, x.call = some c → c.code.Linear (pending c.ops) := by
  intro x hx
  rcases List.mem_or_eq_of_mem_set hx with hx | rfl
  · exact h x hx
  · exact hy

/-- Every step of the process keeps the table of holders. -/
theorem step_holding {s v : State w} {e : Label} (hi : Inv s) (hst : Stands s) (h : Holding s)
    (hv : s.step e = some v) : Holding v := by
  obtain ⟨u, hu, ho, hth, -⟩ := step_parts hv
  -- a step that has nothing to do with what the threads hold
  have quiet : (∀ i, v.holder i = s.holder i) →
      (∀ r l, s.effect e = some (r, l) → keepsReserved l = true) → Held v.holder v.phase :=
    fun hh hk => held_same h.table hh (operates_kept ho hk)
  have same : v.threads = s.threads → ∀ i, v.holder i = s.holder i := fun heq i => by
    rw [State.holder, State.holder, heq]
  cases hu with
  | build =>
    exact ⟨hth ▸ h.linear, quiet (same hth) fun _ _ he => by cases he⟩
  | @env r l _ henv _ =>
    refine ⟨hth ▸ h.linear, quiet (same hth) fun r l he => effect_keeps he ?_ nofun nofun⟩
    rintro k i ⟨⟩
    exact henv
  | wait he =>
    refine ⟨hth ▸ h.linear, quiet (same hth) fun r l hl => ?_⟩
    rcases he with rfl | rfl <;> exact effect_keeps hl nofun nofun nofun
  | track he =>
    refine ⟨hth ▸ h.linear, quiet (same hth) fun r l hl => ?_⟩
    rcases he with rfl | rfl | rfl <;> exact effect_keeps hl nofun nofun nofun
  | dropTask =>
    exact ⟨hth ▸ h.linear, quiet (same hth) fun _ _ he => effect_keeps he nofun nofun nofun⟩
  | @thread role hr =>
    refine ⟨fun x hx c hc => ?_, quiet (fun i => ?_) fun _ _ he => by cases he⟩
    · rw [hth] at hx
      rcases List.mem_append.mp hx with hx | hx
      · exact h.linear x hx c hc
      · rw [List.mem_singleton.mp hx] at hc
        cases hc
    · rw [State.holder, State.holder, hth, List.getElem?_append]
      split
      next => rfl
      next hlt =>
        rw [List.getElem?_eq_none (Nat.le_of_not_lt hlt)]
        cases hnew : [(⟨role, ⟨role.slots, [], none⟩, none⟩ : Actor)][i - s.threads.length]? with
        | none => rfl
        | some y =>
          rw [List.mem_singleton.mp (List.mem_of_getElem? hnew)]
          rfl
  | @act t e x a c he hx hn ha hc =>
    have hm := List.mem_of_getElem? hx
    have hlin := linear_set (t := t) (y := { x with ctx := c }) h.linear fun d hd => by
      rw [show x.call = some d from hd] at hn
      cases hn
    refine ⟨hth ▸ hlin, exchange_held h.table hx hth ?_ ho⟩
    by_cases hsetup : ∃ i, a = .setup i
    · obtain ⟨i, rfl⟩ := hsetup
      cases e with
      | setup t' v' =>
        cases he
        obtain ⟨d, hd, hact⟩ := Option.bind_eq_some_iff.mp ha
        cases hact
        exact setup_exchange hx (hi.actors x hm) (hst.threads x hm).reserved hn hd hc
      | poll | pending | finishPoll => simp [State.action, Option.bind_eq_some_iff] at ha
      | call | catchUnwind | panic | ret =>
        obtain ⟨-, ⟨⟩⟩ := Option.ite_none_right_eq_some.mp ha
      | _ => cases ha
    · obtain ⟨hb, ha'⟩ := act_holds (hst.threads x hm).settled hn hc fun i hia => hsetup ⟨i, hia⟩
      rw [hb, ha']
      cases heff : s.effect e with
      | none => exact .quiet rfl
      | some o =>
        refine .other rfl (effect_keeps heff ?_ ?_ ?_)
        · rintro k i rfl
          cases he
        · rintro t' u' rfl
          obtain ⟨d, hd, hact⟩ := Option.bind_eq_some_iff.mp ha
          exact hsetup ⟨_, (Option.some.inj hact).symm⟩
        · rintro t' rfl
          cases he
  | @spawn t p r k x hx hf hr =>
    have hn : x.call = none := by
      obtain ⟨hfree, -⟩ := Bool.and_eq_true_iff.mp hf
      exact Option.isNone_iff_eq_none.mp (Bool.and_eq_true_iff.mp hfree).1
    have hlin := linear_set (t := t) (y := { x with call := some ⟨p, r, k, p.code (ofId r) k, []⟩ })
      h.linear fun d hd => by
        obtain rfl := Option.some.inj hd
        exact point_linear p (ofId r) k
    refine ⟨hth ▸ hlin, exchange_held h.table hx hth ?_ ho⟩
    rw [holds_userCode hn (free_userCode hf)]
    exact .quiet rfl
  | @exec t x c hx hc =>
    have hm := List.mem_of_getElem? hx
    have hcode := (hst.threads x hm).code (by rw [hc]; exact Option.some_ne_none c)
    obtain ⟨y, hy, hlin, hex⟩ := exec_exchange hx hc (h.linear x hm c hc) hcode
    exact ⟨hth ▸ hy ▸ linear_set h.linear hlin, exchange_held h.table hx (hth.trans hy) hex ho⟩

theorem run_holding {s : State w} {es : List Label} (h : run State.step (start w) es = some s) :
    Holding s := by
  refine run_history (P := fun _ s => Holding s) ⟨?_, ?_⟩ ?_ h
  · exact fun x hx => absurd hx List.not_mem_nil
  · refine ⟨?_, ?_, ?_⟩
    · intro t n hn
      cases hn
    · intro t t' n hn
      cases hn
    · intro n hn
      cases hn
  · exact fun es s e t hs ih ht => step_holding (run_inv hs) (run_stands hs) ih ht

/-- In every run of the process, each reservation that was made is lost, or in the
hands of exactly one thread, which has not handed it over yet, or in those of
exactly one task, whose status fits how far it has come. -/
theorem reservation_holder {es : List Label} {s : State w} {n : Track} {p : Idle.Phase}
    (h : run State.step (start w) es = some s) (hp : s.phase n = some p) :
    p = .lost ∨ (p = .reserved ∧ ∃! t, s.holder t = some n) ∨
      (p ≠ .reserved ∧ ∃! k, ∃ a, owner s.tasks k = some (n, a) ∧ a.fits p = true) := by
  have ht := (run_holding h).table
  have hi := run_taskInv h
  rcases hi.owned n p hp with rfl | rfl | ⟨k, a, hk⟩
  · obtain ⟨t, hn⟩ := ht.held hp
    exact Or.inr (Or.inl ⟨rfl, t, hn, fun t' hn' => ht.distinct hn' hn⟩)
  · exact Or.inl rfl
  · obtain ⟨q, hq, hfit⟩ := hi.fits k n a hk
    rw [hp] at hq
    obtain rfl := Option.some.inj hq
    have hne : p ≠ .reserved := by
      rintro rfl
      cases a <;> cases hfit
    refine Or.inr (Or.inr ⟨hne, k, ⟨a, hk, hfit⟩, ?_⟩)
    rintro k' ⟨b, hb, -⟩
    exact hi.distinct k' k n b a hb hk

/-- A `block_on` of a thread pool after its first set-up line. -/
theorem reservation_holder_run :
    ∃ u, run State.step (start 64) [.build .threadPool,
        .thread (.program none none none false false), .call 0 .poolBlockOn 0, .setup 0 0] =
        some u ∧ u.phase ⟨0, 0⟩ = some .reserved ∧
      (Idle.Phase.reserved = .lost ∨
        (Idle.Phase.reserved = .reserved ∧ ∃! t, u.holder t = some ⟨0, 0⟩) ∨
        (Idle.Phase.reserved ≠ .reserved ∧
          ∃! k, ∃ a, owner u.tasks k = some (⟨0, 0⟩, a) ∧ a.fits .reserved = true)) :=
  ⟨_, rfl, rfl, @reservation_holder 64 [.build .threadPool,
    .thread (.program none none none false false), .call 0 .poolBlockOn 0, .setup 0 0] _ ⟨0, 0⟩
    .reserved rfl rfl⟩

end TokioCompat.World
