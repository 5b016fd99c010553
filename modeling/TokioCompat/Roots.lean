import TokioCompat.Holders
import TokioCompat.Polls

/-!
# Every `block_on` has its future in its hands

The future of a `block_on` stays with the call until the call ends. It waits to
be polled by the thread of the call, or the poll right above the call is its
own, or it has resolved, or its panic is about to leave the call: nobody else
polls it, drops it or takes its result.
-/

namespace TokioCompat.World

open Context Spawn Transition

variable {w : ℕ}

/-- What can have become of task `k`, the future of a `block_on`, with these
frames above the call. -/
inductive Above (p : Option Panic) (k : ℕ) : List Frame → Status → Prop
  | waiting (hp : p = none) : Above p k [] .waiting
  /-- The call polls a spawned task, whose panic is caught. -/
  | aside {r j l} : Above p k (r ++ [.poll j l true]) .waiting
  | resolved {pre} : Above p k pre .resolved
  | running {r l} : Above p k (r ++ [.poll k l false]) .running
  | panicked (hp : p.isSome = true) : Above p k [] .panicked

/-- Each call of thread `t` that has handed its reservation over drives one future. -/
def Rooted (ys : List Task) (t : ℕ) (th : Thread) : Prop :=
  ∀ pre c fs n, th.frames = pre ++ .call c :: fs → c.todo = [] → c.track = some n →
    ∃ k y, ys[k]? = some y ∧ y.queue = .root t ∧ track y.fut = some ⟨c.rt.idle, n⟩ ∧
      Above th.unwinding k pre y.status

section Above

variable {p q : Option Panic} {k : ℕ} {pre : List Frame} {f g : Frame} {a : Status}

/-- A panic begins above another frame. -/
theorem above_panic (h : Above none k (f :: pre) a) : Above p k (f :: pre) a := by
  generalize hg : f :: pre = gs at h ⊢
  cases h with
  | waiting => cases hg
  | aside => exact .aside
  | resolved => exact .resolved
  | running => exact .running
  | panicked => cases hg

theorem above_push (h : Above p k (g :: pre) a) : Above p k (f :: g :: pre) a := by
  generalize hg : g :: pre = gs at h ⊢
  cases h with
  | waiting => cases hg
  | @aside r j l => exact .aside (r := f :: r)
  | resolved => exact .resolved
  | @running r l => exact .running (r := f :: r)
  | panicked => cases hg

/-- Another frame takes the place of one that is not a poll. -/
theorem above_swap (h : Above p k (f :: pre) a) (hf : ∀ j l b, f ≠ .poll j l b) :
    Above q k (g :: pre) a := by
  generalize hg : f :: pre = gs at h
  cases h with
  | waiting => cases hg
  | @aside r j l =>
    cases r with
    | nil => exact absurd (List.cons.inj hg).1 (hf j l true)
    | cons i r =>
      rw [(List.cons.inj hg).2]
      exact .aside (r := g :: r)
  | resolved => exact .resolved
  | @running r l =>
    cases r with
    | nil => exact absurd (List.cons.inj hg).1 (hf k l false)
    | cons i r =>
      rw [(List.cons.inj hg).2]
      exact .running (r := g :: r)
  | panicked => cases hg

/-- A frame that is not the poll of the future is left; the poll of a spawned task
ends the panic. -/
theorem above_pop (h : Above p k (f :: pre) a) (hf : ∀ l b, f ≠ .poll k l b)
    (hq : ∀ j l, f = .poll j l true → q = none) : Above q k pre a := by
  generalize hg : f :: pre = gs at h
  cases h with
  | waiting => cases hg
  | @aside r j l =>
    cases r with
    | nil =>
      obtain ⟨rfl, rfl⟩ := List.cons.inj hg
      exact .waiting (hq j l rfl)
    | cons i r =>
      rw [(List.cons.inj hg).2]
      exact .aside
  | resolved => exact .resolved
  | @running qs l =>
    cases qs with
    | nil => exact absurd (List.cons.inj hg).1 (hf l false)
    | cons q qs =>
      rw [(List.cons.inj hg).2]
      exact .running
  | panicked => cases hg

/-- The poll of the future itself is the innermost frame only right above the call. -/
theorem above_top {l : Option ℕ} {b : Bool} (h : Above p k (.poll k l b :: pre) .running)
    (hk : k ∉ polled pre) : pre = [] ∧ b = false := by
  generalize hg : Frame.poll k l b :: pre = gs at h
  cases h with
  | @running qs l' =>
    cases qs with
    | nil =>
      obtain ⟨hp, hpre⟩ := List.cons.inj hg
      cases hp
      exact ⟨hpre, rfl⟩
    | cons q qs =>
      refine absurd (mem_polled.mpr ⟨l', false, ?_⟩) hk
      rw [(List.cons.inj hg).2]
      exact List.mem_append_right qs List.mem_cons_self

/-- Right above the call there is no frame. -/
theorem above_nil (h : Above p k [] a) :
    (a = .waiting ∧ p = none) ∨ a = .resolved ∨ (a = .panicked ∧ p.isSome = true) := by
  generalize hg : ([] : List Frame) = gs at h
  cases h with
  | waiting hp => exact Or.inl ⟨rfl, hp⟩
  | resolved => exact Or.inr (Or.inl rfl)
  | panicked hp => exact Or.inr (Or.inr ⟨rfl, hp⟩)
  | aside | running => simp at hg

end Above

/-- Only its own thread polls the future of a `block_on`, and does not catch its panics. -/
theorem mode_root {x : Actor} {t i : ℕ} {y : Task} {l : Option ℕ} {b : Bool}
    (h : x.mode t y = some (l, b)) (hq : y.queue = .root i) : i = t ∧ b = false := by
  unfold Actor.mode at h
  rw [hq] at h
  split at h
  next he _ => cases he
  next he _ => cases he
  next he _ => cases he
  next t' c fs he hf =>
    cases he
    obtain ⟨⟨ht, -⟩, ⟨⟩⟩ := Option.ite_none_right_eq_some.mp h
    exact ⟨ht, rfl⟩
  next => cases h

/-- A call polls spawned tasks, whose panics are caught, and the future of its own
reservation. -/
theorem mode_spawned {x : Actor} {t : ℕ} {y : Task} {c : Call} {fs : List Frame} {l : Option ℕ}
    {b : Bool} (h : x.mode t y = some (l, b)) (hf : x.ctx.frames = .call c :: fs) :
    b = true ∨ track y.fut = c.track.map (Track.mk c.rt.idle) := by
  unfold Actor.mode at h
  rw [hf] at h
  split at h
  next hnil => cases hnil
  next hfr =>
    obtain ⟨-, ⟨⟩⟩ := Option.ite_none_right_eq_some.mp h
    exact Or.inl rfl
  next =>
    cases h
    exact Or.inl rfl
  next hfr =>
    cases hfr
    obtain ⟨⟨-, htrack⟩, -⟩ := Option.ite_none_right_eq_some.mp h
    exact Or.inr htrack
  next => cases h

/-- Only a `block_on` makes a reservation. -/
theorem track_blockOn {x : Actor} {c : Call} (ha : ActorInv x) (hr : x.ctx.Reserved)
    (hc : .call c ∈ x.ctx.frames) (ht : c.track ≠ none) : c.api = .poolBlockOn ∨ c.api = .currentBlockOn := by
  have hheld : Guard.reserve ∈ c.held := by
    rw [← List.contains_iff_mem, ← hr c hc]
    exact Option.isSome_iff_ne_none.mpr ht
  have hmem : Guard.reserve ∈ c.api.setup := by
    rw [← (ha.ctx.ordered c hc : c.held.reverse ++ c.todo = c.api.setup)]
    exact List.mem_append_left _ (List.mem_reverse.mpr hheld)
  revert hmem
  cases c.api <;> decide

/-- The closure of an `enter` is run without a reservation. -/
theorem closure_bare {x : Actor} {c : Call} {fs : List Frame} (ha : ActorInv x)
    (hr : x.ctx.Reserved) (hu : x.ctx.userCode = true) (hf : x.ctx.frames = .call c :: fs) :
    c.track = none := by
  by_contra ht
  rw [Thread.userCode, hf, Bool.and_eq_true, Bool.and_eq_true] at hu
  have hclosure : c.api.closure = true := hu.2.2
  have hm : .call c ∈ x.ctx.frames := by
    rw [hf]
    exact List.mem_cons_self
  rcases track_blockOn ha hr hm ht with hapi | hapi <;> rw [hapi] at hclosure <;> cases hclosure

/-- A thread that may poll has no call below its innermost frame. -/
theorem polls_split {x : Actor} {l : Option ℕ} {b : Bool} (ha : ActorInv x) (hs : x.ctx.Settled)
    (hp : x.ctx.polls l b = true) {pre fs : List Frame} {c : Call}
    (hf : x.ctx.frames = pre ++ .call c :: fs) : pre = [] := by
  have hone := framed_calls (fun d hd => ha.ctx.ordered d (mem_calls.mp hd))
    (settled_top hs (polls_top hp)) ha.ctx.framed
  cases pre with
  | nil => rfl
  | cons f pre =>
    rw [Thread.polls, hf, List.cons_append, Bool.and_eq_true] at hp
    cases f with
    | catching | poll => cases hp.2
    | call d =>
      have hc : c ∈ calls (pre ++ .call c :: fs) :=
        mem_calls.mpr (List.mem_append_right _ List.mem_cons_self)
      have hcalls : calls x.ctx.frames = d :: calls (pre ++ .call c :: fs) := by
        rw [hf]
        rfl
      rcases hone with ⟨hnone, -⟩ | ⟨e, he, -⟩
      · rw [hnone] at hcalls
        cases hcalls
      · rw [he] at hcalls
        rw [← (List.cons.inj hcalls).2] at hc
        exact absurd hc List.not_mem_nil

/-! ### One thread -/

section Thread

variable {s u v : State w} {e : Label} {t k : ℕ} {x : Actor} {y z : Task}

/-- What the thread `t` makes of task `k` by a step of its context. -/
inductive Handling (x : Actor) (e : Label) (t k : ℕ) (y : Task) (a : Act) : Task → Prop
  | other (hf : ∀ l b fs, x.ctx.frames = .poll k l b :: fs → a ≠ .ret ∧ a ≠ .unwind)
    (ha : ∀ l b, a ≠ .poll k l b) : Handling x e t k y a y
  | begins {l b} (ha : a = .poll k l b) (hm : x.mode t y = some (l, b)) :
    Handling x e t k y a { y with status := .running }
  | ends {l b fs p} (hf : x.ctx.frames = .poll k l b :: fs) (he : e.ends = some (t, p))
    (ha : a = .ret ∨ a = .unwind) : Handling x e t k y a { y with status := p }

theorem turns_handling {a : Act} (h : Turns s e k y z) (he : e.mover = some t)
    (hx : s.threads[t]? = some x) (hy : s.tasks[k]? = some y) (ha : s.action x e = some a) :
    Handling x e t k y a z := by
  cases h with
  | same hb hn =>
    refine .other (fun l b fs hf => ?_) fun l b hab => ?_
    · have ends : (a = .ret ∨ a = .unwind) → False := fun hend => by
        obtain ⟨p, hp⟩ := action_leaves hf he ha hend
        exact hn p ⟨t, x, l, b, fs, hp, hx, hf⟩
      exact ⟨fun h => ends (Or.inl h), fun h => ends (Or.inr h)⟩
    · obtain ⟨i, -, rfl, -⟩ := action_waiting (hab ▸ ha)
      exact hb i rfl
  | @begins i x' l b hpoll hw hx' hm =>
    subst hpoll
    obtain rfl : i = t := Option.some.inj he
    obtain rfl := Option.some.inj (hx.symm.trans hx')
    obtain ⟨y', hy', ha⟩ := Option.bind_eq_some_iff.mp ha
    obtain rfl := Option.some.inj (hy.symm.trans hy')
    obtain ⟨⟨l', b'⟩, hm', ha⟩ := Option.bind_eq_some_iff.mp ha
    obtain ⟨-, ⟨⟩⟩ := Option.ite_none_right_eq_some.mp ha
    exact .begins rfl hm'
  | ends hend =>
    obtain ⟨i, x', l, b, fs, hp, hx', hf⟩ := hend
    have hi : i = t := by
      cases e <;> cases hp <;> exact Option.some.inj he
    subst hi
    obtain rfl := Option.some.inj (hx.symm.trans hx')
    exact .ends hf hp (action_ends hp ha)
  | drops hdrop =>
    subst hdrop
    cases he

theorem handling_kept {a : Act} (h : Handling x e t k y a z) : z.queue = y.queue ∧ z.fut = y.fut := by
  cases h <;> exact ⟨rfl, rfl⟩

theorem handling_other {a : Act} (h : Handling x e t k y a z) (ha : ∀ l b, a ≠ .poll k l b)
    (hf : ∀ l b fs, x.ctx.frames = .poll k l b :: fs → a ≠ .ret ∧ a ≠ .unwind) : z = y := by
  cases h with
  | other => rfl
  | begins hp => exact absurd hp (ha _ _)
  | ends hp _ hend =>
    obtain ⟨hr, hu⟩ := hf _ _ _ hp
    exact absurd hend (not_or.mpr ⟨hr, hu⟩)

/-- The last set-up line of a `block_on` hands its future over. -/
theorem setup_root {c : Call} {g : Guard} {σ ρ : Slots} {fs : List Frame} {n : ℕ} (v : ℕ)
    (hx : s.threads[t]? = some x) (hth : x.ctx = ⟨σ, .call c :: fs, none⟩) (hn : c.todo = [g])
    (hacq : g.acquire c.rt σ = (none, ρ)) (hg : g ≠ .reserve) (ho : c.Ordered)
    (hr : c.track.isSome = c.held.contains .reserve) (htrack : c.track = some n) :
    s.root t v = [⟨.root t, .tracked ⟨c.rt.idle, n⟩ (.std v), .waiting⟩] := by
  have htop : x.top = some c := by
    unfold Actor.top
    rw [hth]
  have hline : ∀ parent, setupEffect c x.ctx.slots parent = some (.move n .handOff) := fun parent => by
    unfold setupEffect
    rw [hn, hth]
    dsimp only
    rw [hacq]
    dsimp only
    rw [if_neg hg, if_pos rfl, body_handOff ho hr htrack]
  have he : s.effect (.setup t v) = some (c.rt.idle, .move n .handOff) := by
    simp only [State.effect, hx, htop, hline, Option.bind_eq_bind, Option.bind_some, Option.pure_def]
  unfold State.root
  rw [he]

/-- The poll of a future of a `block_on` is right above the call. -/
theorem root_top {l : Option ℕ} {b : Bool} {pre fs : List Frame} (hP : Polling s)
    (hx : s.threads[t]? = some x) (hf : x.ctx.frames = .poll k l b :: (pre ++ fs))
    (hy : s.tasks[k]? = some y) (hab : Above x.ctx.unwinding k (.poll k l b :: pre) y.status) :
    pre = [] ∧ b = false := by
  have hk : k ∈ polled x.ctx.frames := by
    rw [hf]
    exact List.mem_cons_self
  obtain ⟨y', hy', hrun⟩ := hP.running hx hk
  obtain rfl := Option.some.inj (hy.symm.trans hy')
  have hnd := hP.once hx
  rw [hf] at hnd
  rw [hrun] at hab
  refine above_top hab fun hpre => ?_
  obtain ⟨l', b', hm⟩ := mem_polled.mp hpre
  exact (List.nodup_cons.mp hnd).1 (mem_polled.mpr ⟨l', b', List.mem_append_left _ hm⟩)

/-- A step of the context of its thread keeps each future with its call. -/
theorem act_rooted {a : Act} {c : Thread} (hT : TaskInv s) (hP : Polling s) (hi : ActorInv x)
    (hst : Standing x) (hu : Next s e u) (he : e.mover = some t) (hx : s.threads[t]? = some x)
    (ha : s.action x e = some a) (hc : x.ctx.step a = some c) (h : Rooted s.tasks t x.ctx) :
    Rooted u.tasks t c := by
  intro pre d fs n hf htodo htrack
  -- the call was on the stack before
  have keep : ∀ pre', x.ctx.frames = pre' ++ .call d :: fs →
      (∀ k y z, s.tasks[k]? = some y → y.queue = .root t → track y.fut = some ⟨d.rt.idle, n⟩ →
        Above x.ctx.unwinding k pre' y.status → Handling x e t k y a z →
        Above c.unwinding k pre z.status) →
      ∃ k y, u.tasks[k]? = some y ∧ y.queue = .root t ∧ track y.fut = some ⟨d.rt.idle, n⟩ ∧
        Above c.unwinding k pre y.status := fun pre' hf' habove => by
    obtain ⟨k, y, hy, hq, hn, hab⟩ := h pre' d fs n hf' htodo htrack
    obtain ⟨z, hz, hturn⟩ := next_turns hu hy
    have hh := turns_handling hturn he hx hy ha
    obtain ⟨hzq, hzf⟩ := handling_kept hh
    exact ⟨k, z, hz, hzq.trans hq, by rw [hzf, hn], habove k y z hy hq hn hab hh⟩
  -- code of the program runs above another frame
  have user : ∀ pre', x.ctx.userCode = true → x.ctx.frames = pre' ++ .call d :: fs →
      ∃ g gs, pre' = g :: gs := fun pre' hcode hf' => by
    cases pre' with
    | nil =>
      rw [closure_bare hi hst.reserved hcode hf'] at htrack
      cases htrack
    | cons g gs => exact ⟨g, gs, rfl⟩
  -- its future is left alone where the step is neither on a poll nor the end of one
  have push : ∀ f pre', x.ctx.userCode = true → x.ctx.frames = pre' ++ .call d :: fs →
      pre = f :: pre' → c.unwinding = x.ctx.unwinding → (∀ k l b, a ≠ .poll k l b) →
      a ≠ .ret ∧ a ≠ .unwind →
      ∃ k y, u.tasks[k]? = some y ∧ y.queue = .root t ∧ track y.fut = some ⟨d.rt.idle, n⟩ ∧
        Above c.unwinding k pre y.status := fun f pre' hcode hf' hpre hun hpoll hend =>
    keep pre' hf' fun k y z _ _ _ hab hh => by
      obtain ⟨g, gs, rfl⟩ := user pre' hcode hf'
      rw [handling_other hh (hpoll k) fun _ _ _ _ => hend, hpre, hun]
      exact above_push hab
  have pop : ∀ f gs, x.ctx.frames = f :: gs → gs = pre ++ .call d :: fs →
      (∀ k l b, f ≠ .poll k l b) → (∀ k l b, a ≠ .poll k l b) →
      ∃ k y, u.tasks[k]? = some y ∧ y.queue = .root t ∧ track y.fut = some ⟨d.rt.idle, n⟩ ∧
        Above c.unwinding k pre y.status := fun f gs hf' hgs hnot hpoll =>
    keep (f :: pre) (hf'.trans (by rw [hgs]; rfl)) fun k y z _ _ _ hab hh => by
      have hz : z = y := handling_other hh (hpoll k) fun l b gs' hg => by
        rw [hf'] at hg
        exact absurd (List.cons.inj hg).1 (hnot k l b)
      rw [hz]
      exact above_pop hab (hnot k) fun j l hj => absurd hj (hnot j l true)
  generalize hth : x.ctx = th at hc
  cases Context.step_cases hc with
  | @call _ api rt hcode =>
    cases pre with
    | nil =>
      obtain ⟨hd, -⟩ := List.cons.inj hf
      cases hd
      cases htrack
    | cons f pre =>
      exact push f pre (hth ▸ hcode) (hth ▸ (List.cons.inj hf).2) rfl (by rw [hth]) (by simp)
        (by simp)
  | @setup σ ρ c1 g gs fs' i hn hacq =>
    cases pre with
    | nil =>
      obtain ⟨hd, -⟩ := List.cons.inj hf
      obtain rfl := Frame.call.inj hd
      have hm : .call c1 ∈ x.ctx.frames := by
        rw [hth]
        exact List.mem_cons_self
      have hord := hi.ctx.ordered c1 hm
      have hgs : gs = [] := htodo
      have hg : g ≠ .reserve := by
        rintro rfl
        exact (reserve_once hord hn).2 hgs
      have htrack' : c1.track = some n := (if_neg hg).symm.trans htrack
      obtain ⟨v, rfl⟩ := action_setup he ha
      have htasks : u.tasks = s.tasks ++ s.root t v := by
        cases hu with
        | act => rfl
        | wait hw => rcases hw with hw | hw <;> cases hw
        | track hw => rcases hw with hw | hw | hw <;> cases hw
      rw [setup_root v hx hth (hgs ▸ hn) hacq hg hord (hst.reserved c1 hm) htrack'] at htasks
      exact ⟨s.tasks.length, _, by rw [htasks, List.getElem?_concat_length], rfl, rfl, .waiting rfl⟩
    | cons f pre =>
      refine keep (.call c1 :: pre) (by rw [hth, (List.cons.inj hf).2]; rfl)
        fun k y z _ _ _ hab hh => ?_
      rw [handling_other hh (by simp) fun _ _ _ _ => by simp]
      exact above_swap hab (by simp)
  | setupPanic hn hacq | retCall hd | retCatching | unwindCall | unwindCatching =>
    exact pop _ _ (congrArg Thread.frames hth) hf (by simp) (by simp)
  | @retPoll σ j l b fs' =>
    have hfs' : fs' = pre ++ .call d :: fs := hf
    refine keep (.poll j l b :: pre) (by rw [hth, hfs']; rfl) fun k y z hy _ _ hab hh => ?_
    cases hh with
    | other hnot =>
      refine above_pop hab (fun l' b' he' => ?_) fun _ _ _ => rfl
      cases he'
      exact (hnot l b fs' (by rw [hth])).1 rfl
    | begins hp => cases hp
    | ends hg hend =>
      rw [hth] at hg
      cases hg
      cases e with
      | pending =>
        cases hend
        obtain ⟨rfl, -⟩ := root_top hP hx (by rw [hth, hfs']) hy hab
        exact .waiting rfl
      | finishPoll => cases hend; exact .resolved
      | unwind => cases ha
      | _ => cases hend
  | @unwindPoll σ j l b fs' p =>
    have hfs' : fs' = pre ++ .call d :: fs := hf
    refine keep (.poll j l b :: pre) (by rw [hth, hfs']; rfl) fun k y z hy _ _ hab hh => ?_
    cases hh with
    | other hnot =>
      refine above_pop hab (fun l' b' he' => ?_) fun j' l' he' => by cases he'; rfl
      cases he'
      exact (hnot l b fs' (by rw [hth])).2 rfl
    | begins hp => cases hp
    | @ends l' b' gs q hg hend =>
      rw [hth] at hg
      cases hg
      have hq : q = .panicked := by
        cases e with
        | unwind => exact (Prod.mk.inj (Option.some.inj hend)).2.symm
        | pending =>
          obtain ⟨_, -, hret⟩ := Option.map_eq_some_iff.mp ha
          cases hret
        | finishPoll =>
          obtain ⟨_, -, hret⟩ := Option.bind_eq_some_iff.mp ha
          cases (Option.ite_none_right_eq_some.mp hret).2
        | _ => cases hend
      obtain ⟨rfl, rfl⟩ := root_top hP hx (by rw [hth, hfs']) hy hab
      rw [hq]
      exact .panicked rfl
  | panic hcode =>
    refine keep pre (hth ▸ hf) fun k y z _ _ _ hab hh => ?_
    obtain ⟨g, gs, rfl⟩ := user pre (hth ▸ hcode) (hth ▸ hf)
    obtain ⟨hun, -⟩ := Bool.and_eq_true_iff.mp hcode
    rw [handling_other hh (by simp) fun _ _ _ _ => by simp]
    rw [hth, Option.isNone_iff_eq_none.mp hun] at hab
    exact above_panic hab
  | catchUnwind hcode =>
    cases pre with
    | nil => cases (List.cons.inj hf).1
    | cons f pre =>
      exact push f pre (hth ▸ hcode) (hth ▸ (List.cons.inj hf).2) rfl (by rw [hth]) (by simp)
        (by simp)
  | @poll _ j l b hp =>
    obtain ⟨hun, -⟩ := Bool.and_eq_true_iff.mp hp
    cases pre with
    | nil => cases (List.cons.inj hf).1
    | cons f pre =>
      obtain ⟨hfe, hfs⟩ := List.cons.inj hf
      rw [← hth] at hp hun hfs hfe
      obtain rfl := polls_split hi hst.settled hp hfs
      refine keep [] hfs fun k y z hy hq hn hab hh => ?_
      rw [Option.isNone_iff_eq_none.mp hun] at hab
      cases hh with
      | other _ hnot =>
        -- a spawned task, since the call has no other reservation
        obtain ⟨i, y', -, hy', -, hmode⟩ := action_waiting ha
        have hb : b = true := (mode_spawned hmode hfs).resolve_right fun hn' => by
          rw [htrack] at hn'
          have hj := hT.distinct j k _ _ _ (owner_task hy' hn') (owner_task hy hn)
          exact hnot l b (by rw [hj])
        subst hb
        rw [← hfe]
        rcases above_nil hab with ⟨hs, -⟩ | hs | ⟨-, hs⟩
        · rw [hs]
          exact .aside (r := [])
        · rw [hs]
          exact .resolved
        · cases hs
      | begins hpoll hmode =>
        cases hpoll
        obtain ⟨-, rfl⟩ := mode_root hmode hq
        rw [← hfe]
        exact .running (r := [])
      | ends _ _ hend => rcases hend with hend | hend <;> cases hend

/-- A step of anything else leaves the futures of this thread alone. -/
theorem moves_rooted (hP : Polling s) (hi : ActorInv x) (hst : Standing x) (hu : Next s e u)
    (hx : s.threads[t]? = some x) {x' : Actor}
    (hm : Moves s e t x x') (ha : ∀ a c, e.mover = some t → s.action x e = some a →
      x.ctx.step a = some c → Rooted u.tasks t c)
    (h : Rooted s.tasks t x.ctx) : Rooted u.tasks t x'.ctx := by
  have same : e.mover ≠ some t → x'.ctx.frames = x.ctx.frames →
      (∀ pre d fs n k a, x.ctx.frames = pre ++ .call d :: fs → d.track = some n →
        Above x.ctx.unwinding k pre a → Above x'.ctx.unwinding k pre a) →
      Rooted u.tasks t x'.ctx :=
    fun he hfr habove pre d fs n hf htodo htrack => by
    obtain ⟨k, y, hy, hq, hn, hab⟩ := h pre d fs n (hfr ▸ hf) htodo htrack
    obtain ⟨z, hz, hturn⟩ := next_turns hu hy
    cases hturn with
    | same => exact ⟨k, y, hz, hq, hn, habove pre d fs n k _ (hfr ▸ hf) htrack hab⟩
    | begins hpoll hw hx' hmode =>
      -- only its own thread could poll it
      obtain ⟨rfl, -⟩ := mode_root hmode hq
      exact absurd (by rw [hpoll]; rfl) he
    | ends hend =>
      obtain ⟨i, y', l, b, gs, hp, hx', hg⟩ := hend
      have hk : k ∈ polled y'.ctx.frames := by
        rw [hg]
        exact List.mem_cons_self
      obtain ⟨q, hq', hrun⟩ := hP.running hx' hk
      obtain rfl := Option.some.inj (hy.symm.trans hq')
      rw [hrun] at hab
      have hkx : k ∈ polled x.ctx.frames := by
        rw [← hfr, hf]
        cases hab with
        | running =>
          exact mem_polled.mpr
            ⟨_, _, List.mem_append_left _ (List.mem_append_right _ List.mem_cons_self)⟩
      obtain rfl := hP.exclusive hx hx' hkx hk
      refine absurd ?_ he
      cases e <;> cases hp <;> rfl
    | drops _ _ hroot =>
      rw [hq] at hroot
      cases hroot
  cases hm with
  | still he => exact same he rfl fun _ _ _ _ _ _ _ _ hab => hab
  | spawn he => exact same (by rw [he]; simp [Label.mover]) rfl fun _ _ _ _ _ _ _ _ hab => hab
  | @exec c _ he hcall hf =>
    refine same (by rw [he]; simp [Label.mover]) hf fun pre d fs n k a hd htrack hab => ?_
    have hcode := hst.code (by rw [hcall]; exact Option.some_ne_none c)
    cases pre with
    | nil =>
      rw [closure_bare hi hst.reserved hcode hd] at htrack
      cases htrack
    | cons g gs =>
      obtain ⟨hun, -⟩ := Bool.and_eq_true_iff.mp hcode
      rw [Option.isNone_iff_eq_none.mp hun] at hab
      exact above_panic hab
  | act he _ hact hc => exact ha _ _ he hact hc

end Thread

/-! ### Every `block_on` of a process -/

theorem step_rooted {s v : State w} {e : Label} (hi : Inv s) (hst : Stands s) (hT : TaskInv s)
    (hP : Polling s) (hv : s.step e = some v) (h : ∀ t x, s.threads[t]? = some x → Rooted s.tasks t x.ctx) :
    ∀ t x, v.threads[t]? = some x → Rooted v.tasks t x.ctx := by
  intro t y hy
  obtain ⟨u, hu, -, hth, hta, -⟩ := step_parts hv
  rw [hth] at hy
  rw [hta]
  by_cases hf : y.ctx.frames = []
  · intro pre c fs n hsplit
    rw [hf] at hsplit
    cases pre <;> cases hsplit
  · obtain ⟨x, hx, hm⟩ := moves_back hi hu hy hf
    have hmem := List.mem_of_getElem? hx
    have hact := hi.actors x hmem
    have hstand := hst.threads x hmem
    exact moves_rooted hP hact hstand hu hx hm
      (fun a c he ha hc => act_rooted hT hP hact hstand hu he hx ha hc (h t x hx)) (h t x hx)

/-- Each `block_on` of a reachable state has its future in its hands. -/
theorem run_rooted {s : State w} {es : List Label} (h : run State.step (start w) es = some s) :
    ∀ t x, s.threads[t]? = some x → Rooted s.tasks t x.ctx := by
  refine run_history (P := fun _ (s : State w) => ∀ t x, s.threads[t]? = some x →
    Rooted s.tasks t x.ctx) ?_ ?_ h
  · intro t x hx
    cases hx
  · exact fun es s e t hs ih ht => step_rooted (run_inv hs) (run_stands hs) (run_taskInv hs)
      (run_polls hs) ht ih

end TokioCompat.World
