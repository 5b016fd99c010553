import TokioCompat.ContextRestore

/-!
# The context that user code sees

Wherever a thread runs code of the program, every call on its stack is past its
set-up, and since each call needs the timer slot to be empty there is at most
one. The slots are therefore those the thread began with or what the set-up
lines of that one call make of them. A set-up line fails exactly when its own
slot was occupied as the call began, because no other line writes that slot.
-/

namespace TokioCompat.Context

open Scope Transition

/-- The calls on a stack, the innermost first. -/
def calls (fs : List Frame) : List Call :=
  fs.filterMap fun
    | .call c => some c
    | .catching | .poll .. => none

theorem mem_calls {fs : List Frame} {c : Call} : c ∈ calls fs ↔ .call c ∈ fs := by
  rw [calls, List.mem_filterMap]
  constructor
  · rintro ⟨f, hf, hc⟩
    cases f with
    | call d =>
      cases hc
      exact hf
    | catching | poll k l caught => cases hc
  · exact fun h => ⟨_, h, rfl⟩

/-- What the set-up lines of a call on `rt` make of the slots `s`. -/
def Api.context (a : Api) (rt : Runtime) (s : Slots) : Slots :=
  a.setup.foldl (fun t g => g.install rt t) s

/-- Polls change the current `LocalSet` and calls do not. -/
theorem context_localSet (a : Api) (rt : Runtime) (s : Slots) (l : Option ℕ) :
    a.context rt { s with localSet := l } = { a.context rt s with localSet := l } := by
  cases a <;> rfl

/-- Every call makes its runtime's spawner, timer and reactor the defaults. -/
theorem context_defaults (a : Api) (rt : Runtime) (s : Slots) :
    (a.context rt s).executor = some (.compat rt.spawner) ∧
      (a.context rt s).timer = some (.background rt.compat) ∧
      (a.context rt s).reactor = some (.background rt.compat) := by
  cases a <;> exact ⟨rfl, rfl, rfl⟩

/-- Exactly the calls of a current-thread runtime make it the current one. -/
theorem context_idle (a : Api) (rt : Runtime) (s : Slots) :
    (a.context rt s).currentIdle = if a.currentThread then some rt.idle else s.currentIdle := by
  cases a <;> rfl

/-! ### Set-up lines and their slots -/

/-- A set-up line leaves the slots of the others alone. -/
theorem install_occupied {rt : Runtime} {g g' : Guard} {s : Slots} (h : g ≠ g') :
    g.occupied (g'.install rt s) = g.occupied s := by
  cases g <;> cases g' <;> first | rfl | exact absurd rfl h

/-- A slot that is free after an installation was free before. -/
theorem install_free {rt : Runtime} {g g' : Guard} {s : Slots}
    (h : g.occupied (g'.install rt s) = none) : g.occupied s = none := by
  by_cases hg : g = g'
  · subst hg
    cases g <;> first | rfl | simp [Guard.occupied, Guard.install] at h
  · rwa [install_occupied hg] at h

section Held

variable {rt : Runtime} {s t : Slots} {gs : List Guard}

/-- The guards that are held have installed what they install, in order. -/
theorem held_install (h : (guards rt).Held s gs t) :
    t = gs.reverse.foldl (fun u g => g.install rt u) s := by
  induction gs generalizing t with
  | nil => exact h
  | cons g gs ih =>
    obtain ⟨m, hm, ha⟩ := h
    obtain ⟨-, ht⟩ := acquire_none.mp (ha : g.acquire rt m = (none, t))
    rw [List.reverse_cons, List.foldl_append, ← ih hm]
    exact ht.symm

/-- Each guard that is held found its slot free when the scope began. -/
theorem held_free (h : (guards rt).Held s gs t) {g : Guard} (hg : g ∈ gs) :
    g.occupied s = none := by
  induction gs generalizing t with
  | nil => cases hg
  | cons f gs ih =>
    obtain ⟨m, hm, ha⟩ := h
    obtain ⟨hf, -⟩ := acquire_none.mp (ha : f.acquire rt m = (none, t))
    rcases List.mem_cons.mp hg with rfl | hg
    · have hback : ∀ {u gs}, (guards rt).Held s gs u → g.occupied u = none → g.occupied s = none :=
        fun hu => Guards.held_rel (R := fun a b => g.occupied b = none → g.occupied a = none)
          (fun _ => id) (fun h k => h ∘ k)
          (fun ha hb => by
            obtain ⟨-, rfl⟩ := acquire_none.mp ha
            exact install_free hb) hu
      exact hback hm hf
    · exact ih hm hg

end Held

/-! ### Where a call is refused -/

/-- The first set-up line whose slot is in use, and its panic. -/
def Api.refusal (a : Api) (s : Slots) : Option (Guard × Panic) :=
  a.setup.findSome? fun g => (g.occupied s).map fun p => (g, p)

/-- The call makes a reservation before this line. -/
def Api.reservesBefore (a : Api) (g : Guard) : Bool :=
  (a.setup.takeWhile (· != g)).contains .reserve

section Refusal

variable {a : Api} {s u : Slots} {g : Guard} {gs rest : List Guard} {p : Panic}

/-- The lines before the first slot in use succeed. -/
theorem refusal_split (hs : a.setup = gs ++ g :: rest) (hf : ∀ f ∈ gs, f.occupied s = none)
    (hp : g.occupied s = some p) : a.refusal s = some (g, p) := by
  have hnone : gs.findSome? (fun f => (f.occupied s).map fun q => (f, q)) = none := by
    rw [List.findSome?_eq_none_iff]
    intro f hf'
    rw [hf f hf', Option.map_none]
  rw [Api.refusal, hs, List.findSome?_append, hnone, Option.none_or, List.findSome?_cons, hp]
  rfl

theorem refusal_none (hf : ∀ f ∈ a.setup, f.occupied s = none) : a.refusal s = none := by
  rw [Api.refusal, List.findSome?_eq_none_iff]
  intro f hf'
  rw [hf f hf', Option.map_none]

/-- No set-up line is repeated, so the lines before `g` are those above it. -/
theorem reservesBefore_split (hs : a.setup = gs ++ g :: rest) :
    a.reservesBefore g = gs.contains .reserve := by
  have hd := (setup_order a).2.2.1
  rw [hs] at hd
  have hne : ∀ f ∈ gs, (f != g) = true := fun f hf =>
    bne_iff_ne.mpr ((List.nodup_append.mp hd).2.2 f hf g List.mem_cons_self)
  rw [Api.reservesBefore, hs, List.takeWhile_append_of_pos hne, List.takeWhile_cons]
  simp

variable {c : Call}

/-- The slots looked at by a line that is still to run are as the call found them. -/
theorem held_occupied {rt : Runtime} {t : Slots} (h : (guards rt).Held s gs t) (hg : g ∉ gs) :
    g.occupied t = g.occupied s := by
  induction gs generalizing t with
  | nil => rw [show t = s from h]
  | cons f gs ih =>
    obtain ⟨m, hm, ha⟩ := h
    obtain ⟨-, rfl⟩ := acquire_none.mp (ha : f.acquire rt m = (none, t))
    rw [List.mem_cons, not_or] at hg
    rw [install_occupied hg.1, ih hm hg.2]

/-- A line that panics is the one at which the call is refused. -/
theorem call_refusal (ho : c.Ordered) (hh : (guards c.rt).Held c.before c.held s)
    (hn : c.todo = g :: gs) (ha : g.acquire c.rt s = (some p, u)) :
    c.api.refusal c.before = some (g, p) ∧
      c.api.reservesBefore g = c.held.contains .reserve := by
  have hsplit : c.api.setup = c.held.reverse ++ g :: gs := by rw [← ho, hn]
  have hd := (setup_order c.api).2.2.1
  rw [hsplit] at hd
  have hfresh : g ∉ c.held := fun hm =>
    (List.nodup_append.mp hd).2.2 g (List.mem_reverse.mpr hm) g List.mem_cons_self rfl
  have hp : g.occupied s = some p := by
    unfold Guard.acquire at ha
    cases hocc : g.occupied s with
    | none =>
      rw [hocc] at ha
      cases ha
    | some q =>
      rw [hocc] at ha
      exact (Prod.mk.inj ha).1
  rw [held_occupied hh hfresh] at hp
  constructor
  · exact refusal_split hsplit (fun f hf => held_free hh (List.mem_reverse.mp hf)) hp
  · rw [reservesBefore_split hsplit, List.contains_reverse]

/-- A call whose body runs was not refused, and its body sees its context. -/
theorem call_accepted (ho : c.Ordered) (hh : (guards c.rt).Held c.before c.held s)
    (hn : c.todo = []) : c.api.refusal c.before = none ∧ s = c.api.context c.rt c.before := by
  have hsetup : c.held.reverse = c.api.setup := by rw [← ho, hn, List.append_nil]
  constructor
  · exact refusal_none fun f hf => held_free hh (ordered_held ho hn hf)
  · rw [held_install hh, hsetup]
    rfl

theorem refusal_occupied (h : a.refusal s = some (g, p)) : g.occupied s = some p := by
  obtain ⟨f, -, hf⟩ := List.exists_of_findSome?_eq_some h
  obtain ⟨q, hq, he⟩ := Option.map_eq_some_iff.mp hf
  obtain ⟨rfl, rfl⟩ := Prod.mk.inj he
  exact hq

/-- The lines that have succeeded come before the one at which the call is refused. -/
theorem held_reservesBefore (ho : c.Ordered) (hh : (guards c.rt).Held c.before c.held s)
    (hr : c.api.refusal c.before = some (g, p)) (hm : .reserve ∈ c.held) :
    c.api.reservesBefore g = true := by
  have hne : ∀ f ∈ c.held.reverse, (f != g) = true := fun f hf => by
    rw [bne_iff_ne]
    rintro rfl
    have hfree := held_free hh (List.mem_reverse.mp hf)
    rw [refusal_occupied hr] at hfree
    cases hfree
  rw [Api.reservesBefore, ← ho, List.takeWhile_append_of_pos hne, List.contains_iff_mem]
  exact List.mem_append_left _ (List.mem_reverse.mpr hm)

/-- Where a timer and a reactor are set, a thread-pool call is refused at its timer
and a current-thread call at its token or its reactor. -/
theorem refusal_set (ht : s.timer.isSome = true) (hr : s.reactor.isSome = true) (a : Api) :
    a.refusal s = some (if a.currentThread then
      (if s.entered01 then (.enter01, .enterError) else (.reactor, .reactorSet))
      else (.timer, .timerSet)) := by
  obtain ⟨executor, timer, reactor, idle, e1, e2, l⟩ := s
  obtain ⟨timer, rfl⟩ := Option.isSome_iff_exists.mp (ht : timer.isSome = true)
  obtain ⟨reactor, rfl⟩ := Option.isSome_iff_exists.mp (hr : reactor.isSome = true)
  cases a <;> cases e1 <;> rfl

end Refusal

/-- Each call on a thread has a reservation exactly if it ran the line that makes one. -/
def Thread.Reserved (t : Thread) : Prop :=
  ∀ c, .call c ∈ t.frames → c.track.isSome = c.held.contains .reserve

theorem step_reserved {t u : Thread} {a : Act} (h : t.Reserved) (hs : t.step a = some u) :
    u.Reserved := by
  have tail : ∀ {f : Frame} {fs : List Frame} {s s' : Slots} {p p' : Option Panic},
      Thread.Reserved ⟨s, f :: fs, p⟩ → Thread.Reserved ⟨s', fs, p'⟩ :=
    fun h c hc => h c (List.mem_cons_of_mem _ hc)
  cases step_cases hs with
  | call hu =>
    intro c hc
    rcases List.mem_cons.mp hc with he | hc
    · cases he
      rfl
    · exact h c hc
  | @setup s v c g gs fs i hn ha =>
    intro d hd
    rcases List.mem_cons.mp hd with he | hd
    · cases he
      have hc := h c List.mem_cons_self
      by_cases hg : g = .reserve
      · subst hg
        rfl
      · dsimp only
        rw [if_neg hg, hc, List.contains_cons, beq_eq_false_iff_ne.mpr (Ne.symm hg), Bool.false_or]
    · exact h d (List.mem_cons_of_mem _ hd)
  | setupPanic hn ha => exact tail h
  | retCall hn => exact tail h
  | retCatching => exact tail h
  | retPoll => exact tail h
  | panic hu => exact h
  | unwindCall => exact tail h
  | unwindCatching => exact tail h
  | unwindPoll => exact tail h
  | catchUnwind hu => exact fun c hc => h c ((List.mem_cons.mp hc).resolve_left nofun)
  | poll hp => exact fun c hc => h c ((List.mem_cons.mp hc).resolve_left nofun)

/-! ### Where user code runs -/

/-- Every call below the innermost frame is past its set-up. -/
def Thread.Settled (t : Thread) : Prop := ∀ c ∈ calls t.frames.tail, c.todo = []

/-- Where user code runs or a poll may begin, so is every call. -/
theorem settled_top {t : Thread} (h : t.Settled)
    (ht : ∀ c fs, t.frames = .call c :: fs → c.todo = []) : ∀ c ∈ calls t.frames, c.todo = [] := by
  intro c hc
  cases hf : t.frames with
  | nil =>
    rw [hf] at hc
    cases hc
  | cons f fs =>
    rw [hf, mem_calls] at hc
    rcases List.mem_cons.mp hc with rfl | hc
    · exact ht c fs hf
    · exact h c (mem_calls.mpr (by rw [hf]; exact hc))

theorem userCode_top {t : Thread} (hu : t.userCode = true) (c : Call) (fs : List Frame)
    (hf : t.frames = .call c :: fs) : c.todo = [] := by
  rw [Thread.userCode, hf, Bool.and_eq_true, Bool.and_eq_true] at hu
  exact List.isEmpty_iff.mp hu.2.1

theorem polls_top {t : Thread} {l : Option ℕ} {caught : Bool} (hp : t.polls l caught = true)
    (c : Call) (fs : List Frame) (hf : t.frames = .call c :: fs) : c.todo = [] := by
  rw [Thread.polls, hf, Bool.and_eq_true, Bool.and_eq_true] at hp
  exact List.isEmpty_iff.mp hp.2.1

theorem mem_calls_tail {f : Frame} {fs : List Frame} {c : Call} (h : c ∈ calls fs) :
    c ∈ calls (f :: fs) := mem_calls.mpr (List.mem_cons_of_mem f (mem_calls.mp h))

/-- Each step keeps the set-up at the innermost frame. -/
theorem step_settled {t u : Thread} {a : Act} (h : t.Settled) (hs : t.step a = some u) :
    u.Settled := by
  -- popping a frame leaves calls that were below it
  have pop : ∀ {f : Frame} {fs : List Frame} {s s' : Slots} {p p' : Option Panic},
      Thread.Settled ⟨s, f :: fs, p⟩ → Thread.Settled ⟨s', fs, p'⟩ := fun {f fs _ _ _ _} h c hc => by
    cases fs with
    | nil => cases hc
    | cons g gs => exact h c (mem_calls_tail hc)
  cases step_cases hs with
  | call hu => exact settled_top h (userCode_top hu)
  | setup hn ha => exact h
  | setupPanic hn ha => exact pop h
  | retCall hn => exact pop h
  | retCatching => exact pop h
  | retPoll => exact pop h
  | panic hu => exact h
  | unwindCall => exact pop h
  | unwindCatching => exact pop h
  | unwindPoll => exact pop h
  | catchUnwind hu => exact settled_top h (userCode_top hu)
  | poll hp => exact settled_top h (polls_top hp)

theorem run_settled {t u : Thread} {as : List Act} (hf : t.frames = [])
    (h : run Thread.step t as = some u) : u.Settled := by
  refine run_invariant (fun _ _ _ hi he => step_settled hi he) ?_ h
  intro c hc
  rw [hf] at hc
  cases hc

/-- The slots under a stack whose calls are all past their set-up: there is at
most one call, and it found the timer of the thread unset. -/
theorem framed_calls {base s : Slots} {fs : List Frame} (ho : ∀ c ∈ calls fs, c.Ordered)
    (hn : ∀ c ∈ calls fs, c.todo = []) (h : Framed base fs s) :
    (calls fs = [] ∧ s = { base with localSet := s.localSet }) ∨
      ∃ c, calls fs = [c] ∧ base.timer = none ∧
        s = { c.api.context c.rt base with localSet := s.localSet } := by
  induction fs generalizing s with
  | nil =>
    rw [show s = base from h]
    exact Or.inl ⟨rfl, rfl⟩
  | cons f fs ih =>
    have ho' : ∀ c ∈ calls fs, c.Ordered := fun c hc => ho c (mem_calls_tail hc)
    have hn' : ∀ c ∈ calls fs, c.todo = [] := fun c hc => hn c (mem_calls_tail hc)
    cases f with
    | call c =>
      obtain ⟨hf, hh⟩ := h
      have hc : c ∈ calls (.call c :: fs) := mem_calls.mpr List.mem_cons_self
      have hord := ho c hc
      have htodo := hn c hc
      have htimer : c.before.timer = none := by
        have hfree := held_free hh (ordered_held hord htodo (setup_order c.api).2.1)
        simpa [Guard.occupied] using hfree
      rcases ih ho' hn' hf with ⟨hnone, hb⟩ | ⟨d, -, -, hb⟩
      · right
        have hs : s = c.api.context c.rt c.before := (call_accepted hord hh htodo).2
        refine ⟨c, by rw [calls, List.filterMap_cons, ← calls, hnone], ?_, ?_⟩
        · rw [hb] at htimer
          exact htimer
        · rw [hb, context_localSet] at hs
          rw [hs]
      · -- a call below would have left the timer set
        rw [hb] at htimer
        have hset := (context_defaults d.api d.rt base).2.1
        rw [show (d.api.context d.rt base).timer = none from htimer] at hset
        cases hset
    | catching => exact ih ho' hn' h
    | poll k l caught =>
      have hl : Framed base fs { s with localSet := l } := h
      rcases ih ho' hn' hl with ⟨hnone, hs⟩ | ⟨c, hc, hb, hs⟩
      · refine Or.inl ⟨hnone, ?_⟩
        have hs' := congrArg (fun u : Slots => { u with localSet := s.localSet }) hs
        exact hs'
      · refine Or.inr ⟨c, hc, hb, ?_⟩
        have hs' := congrArg (fun u : Slots => { u with localSet := s.localSet }) hs
        exact hs'

/-- What user code sees: the slots its thread began with, or those that the one
call on the stack made of them. -/
theorem user_slots {base : Slots} {t : Thread} (hi : Inv base t) (hs : t.Settled)
    (hu : t.userCode = true) :
    (calls t.frames = [] ∧ t.slots = { base with localSet := t.slots.localSet }) ∨
      ∃ c, calls t.frames = [c] ∧ base.timer = none ∧
        t.slots = { c.api.context c.rt base with localSet := t.slots.localSet } :=
  framed_calls (fun c hc => hi.ordered c (mem_calls.mp hc)) (settled_top hs (userCode_top hu))
    hi.framed

end TokioCompat.Context
