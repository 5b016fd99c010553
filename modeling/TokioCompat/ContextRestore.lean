import TokioCompat.Context

/-!
# Every call restores the context it found

The slots of a thread are determined by the slots it started with and its
nesting: each frame adds what its own guards installed, on slots that were
empty. Popping a frame therefore gives back exactly the slots below it. The
`Enter` token is taken before `CURRENT_IDLE` in every call that sets it, so
the slot is never overwritten while it is in use.
-/

namespace TokioCompat.Context

open Scope Transition

/-- The slots `s` arise from `base` through the listed frames. -/
def Framed (base : Slots) : List Frame → Slots → Prop
  | [], s => s = base
  | .call c :: fs, s => Framed base fs c.before ∧ (guards c.rt).Held c.before c.held s
  | .catching :: fs, s => Framed base fs s
  | .poll _ l _ :: fs, s => Framed base fs { s with localSet := l }

/-- What was installed stays installed. -/
structure Extends (s t : Slots) : Prop where
  timer : s.timer.isSome = true → t.timer.isSome = true
  currentIdle : ∀ i, s.currentIdle = some i → t.currentIdle = some i
  entered01 : s.entered01 = true → t.entered01 = true

theorem Extends.refl (s : Slots) : Extends s s := ⟨id, fun _ => id, id⟩

theorem Extends.trans {a b c : Slots} (h : Extends a b) (k : Extends b c) : Extends a c :=
  ⟨k.timer ∘ h.timer, fun i hi => k.currentIdle i (h.currentIdle i hi), k.entered01 ∘ h.entered01⟩

/-- What a successful set-up line found and did. -/
theorem acquire_cases {rt : Runtime} {g : Guard} {s t : Slots} (h : g.acquire rt s = (none, t)) :
    (g = .timer → s.timer = none ∧ t.timer.isSome = true) ∧
      (g ≠ .timer → t.timer = s.timer) ∧
      (g = .enter01 → s.entered01 = false ∧ t.entered01 = true) ∧
      (g ≠ .enter01 → t.entered01 = s.entered01) ∧
      (g = .currentIdle → s.currentIdle = none ∧ t.currentIdle = some rt.idle) ∧
      (g ≠ .currentIdle → t.currentIdle = s.currentIdle) := by
  obtain ⟨hf, rfl⟩ := acquire_none.mp h
  cases g <;> simp_all [Guard.occupied, Guard.install]

theorem acquire_extends {rt : Runtime} {g : Guard} {s t : Slots}
    (h : g.acquire rt s = (none, t)) : Extends s t := by
  obtain ⟨t1, t2, e1, e2, c1, c2⟩ := acquire_cases h
  refine ⟨fun hs => ?_, fun i hi => ?_, fun hs => ?_⟩
  · by_cases hg : g = .timer
    · exact (t1 hg).2
    · rwa [t2 hg]
  · by_cases hg : g = .currentIdle
    · rw [(c1 hg).1] at hi
      cases hi
    · rwa [c2 hg]
  · by_cases hg : g = .enter01
    · exact (e1 hg).2
    · rwa [e2 hg]

/-- A set-up line that panics leaves the slots alone, unless it is the one that
overwrites `CURRENT_IDLE`. -/
theorem acquire_panic {rt : Runtime} {g : Guard} {s t : Slots} {p : Panic}
    (h : g.acquire rt s = (some p, t)) (hf : g = .currentIdle → s.currentIdle = none) :
    t = s ∧ p ≠ enteredTwice := by
  unfold Guard.acquire at h
  cases ho : g.occupied s with
  | none =>
    rw [ho] at h
    cases h
  | some q =>
    rw [ho] at h
    obtain ⟨hq, rfl⟩ := Prod.mk.inj (h : (some q, _) = (some p, t))
    obtain rfl := Option.some.inj hq
    have hg : g ≠ .currentIdle := by
      rintro rfl
      simp [Guard.occupied, hf rfl] at ho
    refine ⟨if_neg hg, ?_⟩
    rintro rfl
    cases g <;> simp [Guard.occupied, enteredTwice] at ho hg

section Held

variable {rt : Runtime} {s t : Slots} {gs : List Guard}

theorem held_extends (h : (guards rt).Held s gs t) : Extends s t :=
  Guards.held_rel Extends.refl Extends.trans acquire_extends h

theorem held_timer (h : (guards rt).Held s gs t) (hm : .timer ∈ gs) : t.timer.isSome = true :=
  Guards.held_mem (P := fun u => u.timer.isSome = true) (fun ha => ((acquire_cases ha).1 rfl).2)
    (fun ha hp => (acquire_extends ha).timer hp) h hm

theorem held_idle (h : (guards rt).Held s gs t) (hm : .currentIdle ∈ gs) :
    t.currentIdle = some rt.idle :=
  Guards.held_mem (P := fun u => u.currentIdle = some rt.idle)
    (fun ha => ((acquire_cases ha).2.2.2.2.1 rfl).2)
    (fun ha hp => (acquire_extends ha).currentIdle _ hp) h hm

theorem held_entered (h : (guards rt).Held s gs t) (hm : .enter01 ∈ gs) : t.entered01 = true :=
  Guards.held_mem (P := fun u => u.entered01 = true) (fun ha => ((acquire_cases ha).2.2.1 rfl).2)
    (fun ha hp => (acquire_extends ha).entered01 hp) h hm

/-- The token was free when a scope took it. -/
theorem held_token_free (h : (guards rt).Held s gs t) (hm : .enter01 ∈ gs) :
    s.entered01 = false := by
  induction gs generalizing t with
  | nil => cases hm
  | cons g gs ih =>
    obtain ⟨m, hh, ha⟩ := h
    rcases List.mem_cons.mp hm with rfl | hm
    · have hf := ((acquire_cases ha).2.2.1 rfl).1
      by_contra hs
      rw [(held_extends hh).entered01 (by simpa using hs)] at hf
      cases hf
    · exact ih hh hm

/-- Only its own set-up line writes `CURRENT_IDLE`. -/
theorem held_idle_same (h : (guards rt).Held s gs t) (hm : .currentIdle ∉ gs) :
    t.currentIdle = s.currentIdle := by
  induction gs generalizing t with
  | nil => rw [show t = s from h]
  | cons g gs ih =>
    obtain ⟨m, hh, ha⟩ := h
    rw [List.mem_cons, not_or] at hm
    rw [(acquire_cases ha).2.2.2.2.2 (Ne.symm hm.1), ih hh hm.2]

end Held

/-! ### The order of the set-up lines -/

/-- Each `CURRENT_IDLE` in the list comes after the token, taken before or in it. -/
def tokenFirst : Bool → List Guard → Bool
  | _, [] => true
  | b, g :: gs => (g != .currentIdle || b) && tokenFirst (b || g == .enter01) gs

theorem tokenFirst_append {b : Bool} {xs ys : List Guard} (h : tokenFirst b (xs ++ ys) = true) :
    tokenFirst (b || xs.contains .enter01) ys = true ∧
      (.currentIdle ∈ xs → (b || xs.contains .enter01) = true) := by
  induction xs generalizing b with
  | nil => exact ⟨by simpa using h, nofun⟩
  | cons g xs ih =>
    rw [List.cons_append, tokenFirst, Bool.and_eq_true] at h
    obtain ⟨h1, h2⟩ := ih h.2
    have hb : (b || (g :: xs).contains .enter01) = ((b || g == .enter01) || xs.contains .enter01) := by
      rw [List.contains_cons, Bool.beq_comm, Bool.or_assoc]
    rw [hb]
    refine ⟨h1, fun hm => ?_⟩
    rcases List.mem_cons.mp hm with rfl | hm
    · have : b = true := by simpa using h.1
      simp [this]
    · exact h2 hm

/-- In every call the token comes first, the timer is set, no line is repeated,
and exactly the current-thread calls set `CURRENT_IDLE`. -/
theorem setup_order (a : Api) : tokenFirst false a.setup = true ∧ .timer ∈ a.setup ∧
    a.setup.Nodup ∧ (a.currentThread = true → .currentIdle ∈ a.setup) := by
  cases a <;> decide

/-- The call has run its set-up lines in order so far. -/
def Call.Ordered (c : Call) : Prop := c.held.reverse ++ c.todo = c.api.setup

theorem ordered_token {c : Call} (h : c.Ordered) (hm : .currentIdle ∈ c.held) :
    .enter01 ∈ c.held := by
  have ht := (setup_order c.api).1
  rw [← h] at ht
  simpa using (tokenFirst_append ht).2 (List.mem_reverse.mpr hm)

/-- When `CURRENT_IDLE` is next, the token is held and the slot is not. -/
theorem ordered_next {c : Call} {gs : List Guard} (h : c.Ordered) (hn : c.todo = .currentIdle :: gs) :
    .enter01 ∈ c.held ∧ .currentIdle ∉ c.held := by
  have ht := (setup_order c.api).1
  have hd := (setup_order c.api).2.2.1
  rw [← h, hn] at ht hd
  constructor
  · have := (tokenFirst_append ht).1
    rw [tokenFirst, Bool.and_eq_true] at this
    simpa using this.1
  · intro hm
    exact (List.nodup_append.mp hd).2.2 _ (List.mem_reverse.mpr hm) _ List.mem_cons_self rfl

theorem ordered_held {c : Call} (h : c.Ordered) (hn : c.todo = []) {g : Guard}
    (hg : g ∈ c.api.setup) : g ∈ c.held := by
  rw [← h, hn, List.append_nil, List.mem_reverse] at hg
  exact hg

/-! ### Reading the slots off the nesting -/

/-- A call in progress installed its guards below everything on top of it. -/
theorem framed_call {base s : Slots} {fs : List Frame} {c : Call} (h : Framed base fs s)
    (hc : .call c ∈ fs) :
    ∃ m, (guards c.rt).Held c.before c.held m ∧ Extends m s := by
  induction fs generalizing s with
  | nil => cases hc
  | cons f fs ih =>
    cases f with
    | call d =>
      rcases List.mem_cons.mp hc with he | hc
      · cases he
        exact ⟨s, h.2, Extends.refl s⟩
      · obtain ⟨m, hm, he⟩ := ih h.1 hc
        exact ⟨m, hm, he.trans (held_extends h.2)⟩
    | catching =>
      rcases List.mem_cons.mp hc with he | hc
      · cases he
      · exact ih h hc
    | poll k l caught =>
      rcases List.mem_cons.mp hc with he | hc
      · cases he
      · obtain ⟨m, hm, he⟩ := ih h hc
        exact ⟨m, hm, he.trans ⟨id, fun _ => id, id⟩⟩

/-- A thread that did not start inside a runtime has `CURRENT_IDLE` set only
while it holds the `Enter` token. -/
theorem framed_token {base s : Slots} {fs : List Frame} (hb : base.currentIdle = none)
    (ho : ∀ c, .call c ∈ fs → c.Ordered) (h : Framed base fs s)
    (hs : s.currentIdle.isSome = true) : s.entered01 = true := by
  induction fs generalizing s with
  | nil =>
    rw [show s = base from h, hb] at hs
    cases hs
  | cons f fs ih =>
    have ho' : ∀ c, .call c ∈ fs → c.Ordered := fun c hc => ho c (List.mem_cons_of_mem f hc)
    cases f with
    | call c =>
      obtain ⟨hf, hh⟩ := h
      by_cases hm : .currentIdle ∈ c.held
      · exact held_entered hh (ordered_token (ho c List.mem_cons_self) hm)
      · rw [held_idle_same hh hm] at hs
        exact (held_extends hh).entered01 (ih ho' hf hs)
    | catching => exact ih ho' h hs
    | poll k l caught => exact ih (s := { s with localSet := l }) ho' h hs

/-- What holds of every thread in every run. -/
structure Inv (base : Slots) (t : Thread) : Prop where
  framed : Framed base t.frames t.slots
  ordered : ∀ c, .call c ∈ t.frames → c.Ordered
  once : t.unwinding ≠ some enteredTwice

/-- When `with_idle` is entered, `CURRENT_IDLE` is empty. -/
theorem idle_free {base s : Slots} {c : Call} {fs : List Frame} {gs : List Guard}
    (hb : base.currentIdle = none) (ho : ∀ d, .call d ∈ .call c :: fs → d.Ordered)
    (h : Framed base (.call c :: fs) s) (hn : c.todo = .currentIdle :: gs) :
    s.currentIdle = none := by
  obtain ⟨htoken, hfresh⟩ := ordered_next (ho c List.mem_cons_self) hn
  rw [held_idle_same h.2 hfresh]
  by_contra hs
  have hi := framed_token hb (fun d hd => ho d (List.mem_cons_of_mem _ hd)) h.1
    (Option.isSome_iff_ne_none.mpr hs)
  rw [held_token_free h.2 htoken] at hi
  cases hi

/-- Leaving the innermost call gives back the slots it found. -/
theorem leave_framed {base s : Slots} {c : Call} {fs : List Frame}
    (h : Framed base (.call c :: fs) s) : c.leave s = c.before := Guards.releaseAll_held h.2

/-- A set-up line that panics has changed nothing, so unwinding its call gives
back the slots it found; the panic is not the assertion of `with_idle`. -/
theorem setupPanic_restores {base s u : Slots} {c : Call} {fs : List Frame} {g : Guard}
    {gs : List Guard} {p : Panic} (hb : base.currentIdle = none)
    (ho : ∀ d, .call d ∈ .call c :: fs → d.Ordered) (h : Framed base (.call c :: fs) s)
    (hn : c.todo = g :: gs) (ha : g.acquire c.rt s = (some p, u)) :
    c.leave u = c.before ∧ p ≠ enteredTwice := by
  obtain ⟨rfl, hp⟩ := acquire_panic ha fun hg => idle_free hb ho h (hg ▸ hn)
  exact ⟨leave_framed h, hp⟩

/-- The call stays in order when its next line succeeds. -/
theorem ordered_step {c : Call} {g : Guard} {gs : List Guard} (h : c.Ordered)
    (hn : c.todo = g :: gs) (k : Option ℕ) :
    Call.Ordered { c with held := g :: c.held, todo := gs, track := k } := by
  unfold Call.Ordered at h ⊢
  rw [← h, hn, List.reverse_cons, List.append_assoc]
  rfl

/-- Each step of a thread keeps the invariant. -/
theorem step_inv {base : Slots} (hb : base.currentIdle = none) {t u : Thread} {a : Act}
    (hi : Inv base t) (h : t.step a = some u) : Inv base u := by
  obtain ⟨hf, ho, hp⟩ := hi
  -- frames below the innermost one keep their order
  have tail : ∀ {f : Frame} {fs : List Frame}, (∀ c : Call, .call c ∈ f :: fs → c.Ordered) →
      ∀ c : Call, .call c ∈ fs → c.Ordered := fun h c hc => h c (List.mem_cons_of_mem _ hc)
  cases step_cases h with
  | call hu =>
    refine ⟨⟨hf, rfl⟩, fun c hc => ?_, hp⟩
    rcases List.mem_cons.mp hc with he | hc
    · cases he
      rfl
    · exact ho c hc
  | setup hn ha =>
    refine ⟨⟨hf.1, _, hf.2, ha⟩, fun d hd => ?_, hp⟩
    rcases List.mem_cons.mp hd with he | hd
    · cases he
      exact ordered_step (ho _ List.mem_cons_self) hn _
    · exact tail ho d hd
  | setupPanic hn ha =>
    obtain ⟨hl, hq⟩ := setupPanic_restores hb ho hf hn ha
    exact ⟨by rw [hl]; exact hf.1, tail ho, fun he => hq (Option.some.inj he)⟩
  | retCall hn => exact ⟨by rw [leave_framed hf]; exact hf.1, tail ho, nofun⟩
  | retCatching => exact ⟨hf, tail ho, nofun⟩
  | retPoll => exact ⟨hf, tail ho, nofun⟩
  | panic hu => exact ⟨hf, ho, nofun⟩
  | unwindCall => exact ⟨by rw [leave_framed hf]; exact hf.1, tail ho, hp⟩
  | unwindCatching => exact ⟨hf, tail ho, nofun⟩
  | @unwindPoll s k l caught fs p =>
    refine ⟨hf, tail ho, ?_⟩
    cases caught
    · exact hp
    · exact nofun
  | catchUnwind hu =>
    refine ⟨hf, fun c hc => ho c ?_, hp⟩
    exact (List.mem_cons.mp hc).resolve_left nofun
  | poll hl =>
    refine ⟨?_, fun c hc => ho c ((List.mem_cons.mp hc).resolve_left nofun), hp⟩
    change Framed base _ { (if _ then _ else _ : Slots) with localSet := t.slots.localSet }
    split <;> exact hf

/-- A thread outside every current-thread runtime: `CURRENT_IDLE` is empty and
nothing is assumed of the other slots. -/
def Thread.start (executor : Option Executor01) (timer reactor : Option Driver)
    (entered01 entered02 : Bool) (localSet : Option ℕ) : Thread :=
  ⟨⟨executor, timer, reactor, none, entered01, entered02, localSet⟩, [], none⟩

theorem run_inv {t u : Thread} {as : List Act} (hs : t.frames = []) (hn : t.unwinding = none)
    (hb : t.slots.currentIdle = none) (h : run Thread.step t as = some u) : Inv t.slots u := by
  refine run_invariant (fun _ _ _ hi he => step_inv hb hi he) ?_ h
  exact ⟨by rw [hs]; rfl, fun c hc => absurd (hs ▸ hc) List.not_mem_nil, by rw [hn]; exact nofun⟩

/-! ### Calls from within a call -/

/-- A call whose body runs has its timer installed, whatever runs on top. -/
theorem timer_in_force {base : Slots} {t : Thread} (hi : Inv base t) {c : Call}
    (hc : .call c ∈ t.frames) (hn : c.todo = []) : t.slots.timer.isSome = true := by
  obtain ⟨m, hm, he⟩ := framed_call hi.framed hc
  exact he.timer (held_timer hm (ordered_held (hi.ordered c hc) hn (setup_order c.api).2.1))

/-- A current-thread call whose body runs has its own idle tracker installed. -/
theorem idle_in_force {base : Slots} {t : Thread} (hi : Inv base t) {c : Call}
    (hc : .call c ∈ t.frames) (hn : c.todo = []) (ht : c.api.currentThread = true) :
    t.slots.currentIdle = some c.rt.idle := by
  obtain ⟨m, hm, he⟩ := framed_call hi.framed hc
  exact he.currentIdle _
    (held_idle hm (ordered_held (hi.ordered c hc) hn ((setup_order c.api).2.2.2 ht)))

/-- On a thread with a timer the set-up of a call panics before it is complete,
and the slots are again what the call found. -/
theorem setup_fails {base s : Slots} (hb : base.currentIdle = none) {c : Call} {fs : List Frame}
    (hi : Inv base ⟨s, .call c :: fs, none⟩) (hs : s.timer.isSome = true)
    (hm : .timer ∈ c.todo) (i : ℕ) :
    ∃ k p, run Thread.step ⟨s, .call c :: fs, none⟩ (List.replicate k (.setup i)) =
      some ⟨c.before, fs, some p⟩ := by
  generalize hn : c.todo = todo at hm
  induction todo generalizing s c with
  | nil => cases hm
  | cons g gs ih =>
    cases ha : g.acquire c.rt s with
    | mk r u =>
      cases r with
      | some p =>
        obtain ⟨hl, _⟩ := setupPanic_restores hb hi.ordered hi.framed hn ha
        refine ⟨1, p, ?_⟩
        rw [List.replicate_one, run_single]
        simp only [Thread.step, Call.setup, hn, ha, hl]
      | none =>
        have hg : g ≠ .timer := fun hg => by
          rw [((acquire_cases ha).1 hg).1] at hs
          cases hs
        have hstep : Thread.step ⟨s, .call c :: fs, none⟩ (.setup i) = some ⟨u, .call
            { c with held := g :: c.held, todo := gs,
                     track := if g = .reserve then some i else c.track } :: fs, none⟩ := by
          simp only [Thread.step, Call.setup, hn, ha]
        obtain ⟨k, p, hk⟩ := ih (step_inv hb hi hstep) ((acquire_extends ha).timer hs)
          rfl ((List.mem_cons.mp hm).resolve_left (Ne.symm hg))
        exact ⟨k + 1, p, run_cons.mpr ⟨_, hstep, hk⟩⟩

/-- Entering a runtime restores the thread's context on every path: however
calls nest and wherever they panic, a call that ends leaves the slots it found;
the body of a current-thread call sees its own idle tracker; a call from within
the body of another panics and changes nothing; and the assertion of
`with_idle` is never reached. -/
theorem context_restored {executor : Option Executor01} {timer reactor : Option Driver}
    {e1 e2 : Bool} {l : Option ℕ} {as : List Act} {t : Thread}
    (h : run Thread.step (Thread.start executor timer reactor e1 e2 l) as = some t) :
    (∀ c fs a u, t.frames = .call c :: fs → t.step a = some u → u.frames = fs →
        u.slots = c.before) ∧
      (∀ c, .call c ∈ t.frames → c.todo = [] → c.api.currentThread = true →
        t.slots.currentIdle = some c.rt.idle) ∧
      (∀ c, .call c ∈ t.frames → c.todo = [] → t.userCode = true → ∀ api rt i,
        ∃ k p, run Thread.step t (.call api rt :: List.replicate k (.setup i)) =
          some { t with unwinding := some p }) ∧
      t.unwinding ≠ some enteredTwice := by
  have hi := run_inv rfl rfl rfl h
  refine ⟨?_, fun c hc hn ht => idle_in_force hi hc hn ht, ?_, hi.once⟩
  · intro c fs a u hf hs hu
    have hfs : ∀ f : Frame, f :: .call c :: fs ≠ fs := fun f he => by
      have := congrArg List.length he
      simp only [List.length_cons] at this
      omega
    obtain ⟨s, frames, p⟩ := t
    obtain rfl : frames = .call c :: fs := hf
    cases step_cases hs with
    | call hu' => exact absurd hu (hfs _)
    | setup hn ha => exact absurd hu fun he => by simpa using congrArg List.length he
    | setupPanic hn ha => exact (setupPanic_restores rfl hi.ordered hi.framed hn ha).1
    | retCall hn => exact leave_framed hi.framed
    | panic hu' => exact absurd hu fun he => by simpa using congrArg List.length he
    | unwindCall => exact leave_framed hi.framed
    | catchUnwind hu' => exact absurd hu (hfs _)
    | poll hp => exact absurd hu (hfs _)
  · intro c hc hn hu api rt i
    have hcall : t.step (.call api rt) = some
        { t with frames := .call ⟨api, rt, [], api.setup, none, t.slots⟩ :: t.frames } :=
      if_pos hu
    have hq : t.unwinding = none := by
      rw [Thread.userCode, Bool.and_eq_true] at hu
      exact Option.isNone_iff_eq_none.mp hu.1
    have hi' := step_inv rfl hi hcall
    rw [hq] at hi' hcall
    obtain ⟨k, p, hk⟩ := setup_fails rfl hi' (timer_in_force hi hc hn) (setup_order api).2.1 i
    exact ⟨k, p, run_cons.mpr ⟨_, hcall, hk⟩⟩

/-- A thread-pool `enter` inside the closure of a current-thread `enter`: the
attempt panics on the timer, and its caller catches the panic. -/
theorem context_restored_run :
    ∃ t, run Thread.step (Thread.start none none none false false none)
        [.call .currentEnter ⟨0, 0, 0, 0⟩, .setup 0, .setup 0, .setup 0, .setup 0, .setup 0,
          .setup 0, .catchUnwind, .call .poolEnter ⟨1, 1, 1, 1⟩, .setup 0, .setup 0, .unwind] =
        some t ∧ t.unwinding ≠ some enteredTwice :=
  ⟨_, rfl, (@context_restored none none none false false none
    [.call .currentEnter ⟨0, 0, 0, 0⟩, .setup 0, .setup 0, .setup 0, .setup 0, .setup 0,
      .setup 0, .catchUnwind, .call .poolEnter ⟨1, 1, 1, 1⟩, .setup 0, .setup 0, .unwind]
    _ rfl).2.2.2⟩

end TokioCompat.Context
