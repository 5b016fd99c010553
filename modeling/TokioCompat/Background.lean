import TokioCompat.StartupSettle
import Mathlib.Algebra.Order.BigOperators.Group.Finset

/-!
# The background thread of each runtime

`Background::spawn` starts the thread that drives the tokio 0.1 reactor and
timer before a build does anything else, and dropping the `Background` sends on
its oneshot channel and joins the thread. Here the builders' protocol runs with
these threads and their joins. Every thread finds the background of its runtime
running, and no background thread is left behind, also by a build that failed.
-/

namespace TokioCompat.Background

open Startup Transition

/-- Where the background thread of a build stands. -/
inductive Phase where
  | absent
  /-- The thread is in `rt.block_on(shutdown_rx)`. -/
  | running
  /-- `drop` has sent on `shutdown_tx`. -/
  | signalled
  /-- The thread has returned. -/
  | exited
  /-- `join` has returned. -/
  | joined
  deriving DecidableEq, Repr

/-- A `Builder` with its builds, and the background thread of each. -/
structure State where
  builders : Startup.State
  phase : ℕ → Phase

/-- `Builder::new`. -/
def new : State := ⟨Startup.new, fun _ => .absent⟩

/-- One step of the builders or of a background. -/
inductive Label where
  | step (e : Startup.Label)
  /-- `Background::spawn` fails, and `build` returns its error. -/
  | spawnFails
  /-- `drop` of the `Background` of build `k` sends. -/
  | send (k : ℕ)
  /-- The background thread returns. -/
  | exit (k : ℕ)
  /-- The failed build `k` has joined its background thread and returns. -/
  | joinFailed (k : ℕ)
  deriving DecidableEq, Repr

/-- The `Background` is being dropped: by the runtime that ends, or by the call
of `build` that returns an error, after its other locals. -/
def dropping : Stage → Bool
  | .failed => true
  | .ending ds => ds.head? == some .compatBg
  | _ => false

/-- No call of `build` is still on its way out with an error. -/
def State.returned (s : State) : Prop :=
  ∀ k < s.builders.builds, (s.builders.build k).stage = .failed → s.phase k = .joined

instance (s : State) : Decidable s.returned :=
  inferInstanceAs (Decidable (∀ k < s.builders.builds, _ → _))

/-- The step joins the background thread of the runtime that ends. -/
def State.joins (s : State) : Startup.Label → Option ℕ
  | .dropNext k =>
    match (s.builders.build k).stage with
    | .ending ds => if ds.head? = some .compatBg then some k else none
    | _ => none
  | _ => none

/-- What a step of the builders waits for: `build` takes the `Builder` mutably,
and `join` returns when the background thread has. -/
def State.ready (s : State) (e : Startup.Label) : Prop :=
  (e = .beginBuild ∨ e = .dropBuilder → s.returned) ∧ ∀ k ∈ s.joins e, s.phase k = .exited

instance (s : State) (e : Startup.Label) : Decidable (s.ready e) :=
  inferInstanceAs (Decidable (_ ∧ ∀ k ∈ s.joins e, s.phase k = .exited))

/-- The background threads after a step of the builders. -/
def State.after (s : State) (e : Startup.Label) : ℕ → Phase :=
  if e = .beginBuild then Function.update s.phase s.builders.builds .running
  else match s.joins e with
    | some k => Function.update s.phase k .joined
    | none => s.phase

/-- The effect of a step, or `none` while it is not enabled. -/
def State.step (f : Flavor) (s : State) : Label → Option State
  | .step e =>
    if s.ready e then (s.builders.step f e).map fun t => ⟨t, s.after e⟩ else none
  | .spawnFails =>
    if s.builders.builder = true ∧ s.builders.building = none ∧ s.returned then some s else none
  | .send k =>
    if dropping (s.builders.build k).stage = true ∧ s.phase k = .running then
      some { s with phase := Function.update s.phase k .signalled }
    else none
  | .exit k =>
    if s.phase k = .signalled then some { s with phase := Function.update s.phase k .exited }
    else none
  | .joinFailed k =>
    if (s.builders.build k).stage = .failed ∧ s.phase k = .exited then
      some { s with phase := Function.update s.phase k .joined }
    else none

/-- The builders in the system with background threads take their own steps. -/
def onBuilders (f : Flavor) : Simulation (State.step f) (Startup.State.step f) where
  good _ := True
  abs := State.builders
  emit
    | _, .step e => [e]
    | _, _ => []
  step_good _ _ _ _ _ := trivial
  step_abs s e t _ h := by
    cases e with
    | step e =>
      obtain ⟨-, h⟩ := Option.ite_none_right_eq_some.mp h
      obtain ⟨u, hu, rfl⟩ := Option.map_eq_some_iff.mp h
      rw [run_single]
      exact hu
    | spawnFails | send k | exit k | joinFailed k =>
      obtain ⟨-, ⟨⟩⟩ := Option.ite_none_right_eq_some.mp h
      rfl

/-- The phase that a background thread is in, given how far its build has come. -/
def Phase.Fits (p : Phase) : Stage → Prop
  | .absent => p = .absent
  | .locked | .tokio | .written | .unlocked | .live => p = .running
  | .ending ds =>
    if ds.head? = some .compatBg then p = .running ∨ p = .signalled ∨ p = .exited
    else p = if .compatBg ∈ ds then .running else .joined
  | .gone => p = .joined
  | .failed => p ≠ .absent

/-- What holds of every state with background threads. -/
structure Served (f : Flavor) (s : State) : Prop extends Made f s.builders where
  fits : ∀ k, (s.phase k).Fits (s.builders.build k).stage
  /-- The build in progress is the last one. -/
  last : ∀ k, s.builders.building = some k → k + 1 = s.builders.builds
  /-- Only the last build can have failed and still be on its way out. -/
  failed : ∀ k, (s.builders.build k).stage = .failed → s.phase k = .joined ∨
    (k + 1 = s.builders.builds ∧ s.builders.building = none)

/-- A runtime drops its tokio runtime before its background. -/
theorem runtime_before_background {f : Flavor} {e : Ending} {ds all : List Drop}
    (h : f.drops e = some all) (hsuf : ds <:+ all) :
    (.runtime ∈ ds → .compatBg ∈ ds ∧ ds.head? ≠ some .compatBg) := by
  rw [← List.mem_tails] at hsuf
  unfold Flavor.drops at h
  revert hsuf ds
  cases e <;> cases hk : f.keeps <;> simp only [hk] at h <;> cases h <;> decide

/-- Where the tokio runtime exists, its background thread runs undisturbed. -/
theorem running_of_hasTokio {f : Flavor} {s : State} (h : Served f s) {k : ℕ}
    (hk : (s.builders.build k).stage.hasTokio = true) : s.phase k = .running := by
  have hf := h.fits k
  cases hst : (s.builders.build k).stage with
  | absent | gone | failed | locked =>
    rw [hst] at hk
    cases hk
  | tokio | written | unlocked | live =>
    rw [hst] at hf
    exact hf
  | ending ds =>
    rw [hst] at hf hk
    have hrt : Drop.runtime ∈ ds := by simpa [Stage.hasTokio] using hk
    obtain ⟨-, e, all, he, hsuf⟩ := h.ending k ds hst
    obtain ⟨hbg, hhead⟩ := runtime_before_background he hsuf hrt
    simp only [Phase.Fits, if_neg hhead, if_pos hbg] at hf
    exact hf

section Steps

variable {f : Flavor} {s t : State}

/-- Neither a build nor a background changes. -/
theorem served_same (h : Served f s) (hm : Made f t.builders)
    (hb : t.builders.build = s.builders.build) (hn : t.builders.builds = s.builders.builds)
    (hg : t.builders.building = s.builders.building) (hp : t.phase = s.phase) : Served f t := by
  refine ⟨hm, ?_, ?_, ?_⟩
  · rw [hb, hp]
    exact h.fits
  · rw [hg, hn]
    exact h.last
  · rw [hb, hp, hn, hg]
    exact h.failed

/-- One build moves on, with its background. -/
theorem served_update (h : Served f s) (hm : Made f t.builders) {k : ℕ} {b : Build}
    (hb : t.builders.build = Function.update s.builders.build k b)
    (hn : t.builders.builds = s.builders.builds) (hp : ∀ i, i ≠ k → t.phase i = s.phase i)
    (hfit : (t.phase k).Fits b.stage)
    (hg : t.builders.building = s.builders.building ∨
      (t.builders.building = none ∧ s.builders.building = some k))
    (hf : b.stage = .failed → t.phase k = .joined ∨
      (k + 1 = s.builders.builds ∧ t.builders.building = none)) : Served f t := by
  have hne : ∀ i, i ≠ k → t.builders.build i = s.builders.build i := fun i hi => by
    rw [hb, Function.update_of_ne hi]
  have heq : t.builders.build k = b := by rw [hb, Function.update_self]
  refine ⟨hm, fun i => ?_, fun i hi => ?_, fun i hi => ?_⟩
  · by_cases hik : i = k
    · rw [hik, heq]
      exact hfit
    · rw [hne i hik, hp i hik]
      exact h.fits i
  · rcases hg with hg | ⟨hg, -⟩
    · rw [hn]
      exact h.last i (hg ▸ hi)
    · rw [hg] at hi
      cases hi
  · by_cases hik : i = k
    · rw [hik, heq] at hi
      rw [hik, hn]
      exact hf hi
    · rw [hne i hik] at hi
      rw [hp i hik, hn]
      refine (h.failed i hi).imp_right fun ⟨hi', hnone⟩ => ⟨hi', ?_⟩
      rcases hg with hg | ⟨hg, -⟩
      · rw [hg, hnone]
      · exact hg

/-- A background moves on while its build stands still. -/
theorem served_phase (h : Served f s) {k : ℕ} {p : Phase}
    (hfit : p.Fits (s.builders.build k).stage)
    (hf : (s.builders.build k).stage = .failed → s.phase k = .joined → p = .joined) :
    Served f { s with phase := Function.update s.phase k p } := by
  refine served_update h h.toMade (k := k) (b := s.builders.build k) ?_ rfl (fun i hi => ?_) ?_
    (Or.inl rfl) fun hst => ?_
  · rw [Function.update_eq_self]
  · exact Function.update_of_ne hi ..
  · change Phase.Fits (Function.update s.phase k p k) _
    rw [Function.update_self]
    exact hfit
  · change Function.update s.phase k p k = _ ∨ _
    rw [Function.update_self]
    exact (h.failed k hst).imp_left (hf hst)

/-- Only the next drop of a runtime joins. -/
theorem joins_none {e : Startup.Label} (he : ∀ k, e ≠ .dropNext k) : s.joins e = none := by
  cases e <;> first | rfl | exact absurd rfl (he _)

theorem after_same {e : Startup.Label} (hb : e ≠ .beginBuild) (hj : s.joins e = none) :
    s.after e = s.phase := by
  rw [State.after, if_neg hb, hj]

/-- The background thread is joined where its drop is next, and runs or was
joined before where it is not. -/
theorem served_dropNext (h : Served f s) {k : ℕ} {d : Drop} {ds : List Drop} {u : Startup.State}
    (hl : (s.builders.build k).stage = .ending (d :: ds)) (hm : Made f u)
    (hb : u.build = Function.update s.builders.build k
      { s.builders.build k with stage := if ds = [] then .gone else .ending ds })
    (hn : u.builds = s.builders.builds) (hg : u.building = s.builders.building) :
    Served f ⟨u, s.after (.dropNext k)⟩ := by
  obtain ⟨-, e, all, he, hsuf⟩ := h.ending k _ hl
  have hfit := h.fits k
  rw [hl] at hfit
  have hnodup : (d :: ds).Nodup := hsuf.sublist.nodup (drops_once he).1
  have hst : (if ds = [] then Stage.gone else .ending ds) ≠ .failed := by split <;> nofun
  have hafter : s.after (.dropNext k) =
      if d = .compatBg then Function.update s.phase k .joined else s.phase := by
    by_cases hd : d = .compatBg
    · simp [State.after, State.joins, hl, hd]
    · simp [State.after, State.joins, hl, hd]
  refine served_update h hm hb hn (fun i hi => ?_) ?_ (Or.inl hg) fun hf => absurd hf hst
  · change s.after (.dropNext k) i = _
    rw [hafter]
    split
    · exact Function.update_of_ne hi ..
    · rfl
  · change Phase.Fits (s.after (.dropNext k) k) _
    rw [hafter]
    by_cases hd : d = .compatBg
    · rw [if_pos hd, Function.update_self]
      have hnot : Drop.compatBg ∉ ds := hd ▸ (List.nodup_cons.mp hnodup).1
      split
      · rfl
      · have hhead : ds.head? ≠ some .compatBg := fun hh => hnot (List.mem_of_head? hh)
        simp only [Phase.Fits, if_neg hhead, if_neg hnot]
    · rw [if_neg hd]
      have hhead : (d :: ds).head? ≠ some Drop.compatBg := by simpa using hd
      simp only [Phase.Fits, if_neg hhead, List.mem_cons, Ne.symm hd, false_or] at hfit
      split
      next hnil =>
        rw [hnil] at hfit
        exact hfit
      · simp only [Phase.Fits]
        by_cases hh : ds.head? = some .compatBg
        · rw [if_pos hh]
          rw [if_pos (List.mem_of_head? hh)] at hfit
          exact Or.inl hfit
        · rw [if_neg hh]
          exact hfit

/-- A new build starts its own background thread. -/
theorem served_beginBuild (h : Served f s) {u : Startup.State} (hr : s.returned) (hm : Made f u)
    {b : Build}
    (hb : u.build = Function.update s.builders.build s.builders.builds b) (hst : b.stage = .locked)
    (hn : u.builds = s.builders.builds + 1) (hg : u.building = some s.builders.builds) :
    Served f ⟨u, s.after .beginBuild⟩ := by
  have hne : ∀ i, i ≠ s.builders.builds → u.build i = s.builders.build i := fun i hi => by
    rw [hb, Function.update_of_ne hi]
  have heq : u.build s.builders.builds = b := by rw [hb, Function.update_self]
  have hafter : s.after .beginBuild = Function.update s.phase s.builders.builds .running := if_pos rfl
  refine ⟨hm, fun i => ?_, fun i hi => ?_, fun i hi => ?_⟩
  · change (s.after .beginBuild i).Fits (u.build i).stage
    rw [hafter]
    by_cases hik : i = s.builders.builds
    · rw [hik, heq, Function.update_self, hst]
      rfl
    · rw [hne i hik, Function.update_of_ne hik]
      exact h.fits i
  · have hi' : some s.builders.builds = some i := hg.symm.trans hi
    cases hi'
    exact hn.symm
  · change s.after .beginBuild i = _ ∨ _
    have hik : i ≠ s.builders.builds := fun he => by
      have hi' : (u.build i).stage = .failed := hi
      rw [he, heq, hst] at hi'
      cases hi'
    have hold : (s.builders.build i).stage = .failed := hne i hik ▸ hi
    have hlt := made_lt h.toMade (k := i) (by rw [hold]; nofun)
    rw [hafter, Function.update_of_ne hik]
    exact Or.inl (hr i hlt hold)

/-- Every step of the builders keeps each background where its build needs it. -/
theorem served_builders (h : Served f s) {e : Startup.Label} {u : Startup.State}
    (hr : s.ready e) (hs : s.builders.step f e = some u) : Served f ⟨u, s.after e⟩ := by
  have hm := step_made h.toMade hs
  have hfit := h.fits
  cases step_cases hs with
  | beginBuild hb hn =>
    obtain ⟨hbuild, -, -, -⟩ := dropHook_same s.builders
    have hret := hr.1 (Or.inl rfl)
    refine served_beginBuild h hret hm (b := { s.builders.dropHook.build s.builders.builds with
      stage := .locked }) ?_ rfl rfl rfl
    rw [← hbuild]
    split <;> rfl
  | @tokioBuild k c hk hl hc =>
    refine served_update h hm (k := k) rfl rfl (fun _ _ => rfl) ?_ (Or.inl rfl) nofun
    have := hfit k
    rw [hl] at this
    exact this
  | @tokioFail k hk hl =>
    refine served_update h hm (k := k) rfl rfl (fun _ _ => rfl) ?_ (Or.inr ⟨rfl, hk⟩)
      fun _ => Or.inr ⟨h.last k hk, rfl⟩
    have := hfit k
    rw [hl] at this
    change s.phase k ≠ .absent
    rw [this]
    nofun
  | @writeSlot k hk hl =>
    refine served_update h hm (k := k) rfl rfl (fun _ _ => rfl) ?_ (Or.inl rfl) nofun
    have := hfit k
    rw [hl] at this
    exact this
  | @unlock k hk hl =>
    refine served_update h hm (k := k) rfl rfl (fun _ _ => rfl) ?_ (Or.inl rfl) nofun
    have := hfit k
    rw [hl] at this
    exact this
  | @finish k hk hl =>
    have hrun : s.phase k = .running := by
      have := hfit k
      rw [hl] at this
      exact this
    have hsame : (if f.keeps then s.builders else
        s.builders.drop (.compatSender k) (.sender k)).build = s.builders.build := by
      split <;> rfl
    refine served_update h hm (k := k) (b := { s.builders.build k with stage := .live }) ?_ ?_
      (fun _ _ => rfl) hrun (Or.inr ⟨rfl, hk⟩) nofun
    · rw [← hsame]
      rfl
    · split <;> rfl
  | spawnThread hj hk => exact served_same h hm rfl rfl rfl rfl
  | upgradeStrong hf hj => exact served_same h hm rfl rfl rfl rfl
  | upgrade hf hj ha => exact served_same h hm rfl rfl rfl rfl
  | @upgradeFailed j hf hj ha =>
    obtain ⟨hb, hn, hg, -⟩ := panicWorker_builds s.builders j upgradeFailed
    exact served_same h hm hb hn hg rfl
  | read hj hl hr => exact served_same h hm rfl rfl rfl rfl
  | @readUnset j hj hl hr =>
    obtain ⟨hb, hn, hg, -⟩ := panicWorker_builds s.builders j (.assertion f.unset)
    exact served_same h hm hb hn hg rfl
  | setGuards hj hg =>
    refine served_same h hm ?_ ?_ ?_ rfl <;> split <;> rfl
  | @setGuardsPanic j sp p hj hg =>
    obtain ⟨hb, hn, hg, -⟩ := panicWorker_builds s.builders j p
    exact served_same h hm hb hn hg rfl
  | threadStop hj =>
    refine served_same h hm ?_ ?_ ?_ rfl <;> split <;> rfl
  | threadExit hj => exact served_same h hm rfl rfl rfl rfl
  | clone hc => exact served_same h hm rfl rfl rfl rfl
  | release hr => exact served_same h hm rfl rfl rfl rfl
  | @endRuntime k e ds hl he =>
    have hbg : Drop.compatBg ∈ ds :=
      (runtime_before_background he (List.suffix_refl ds) (drops_once he).2).1
    have hhead : ds.head? ≠ some .compatBg :=
      (runtime_before_background he (List.suffix_refl ds) (drops_once he).2).2
    have hrun : s.phase k = .running := by
      have := hfit k
      rw [hl] at this
      exact this
    have hsame : (if .spawner ∈ ds then s.builders.add (.spawner k) (.handle k)
        else s.builders).build = s.builders.build := by
      split <;> rfl
    refine served_update h hm (k := k) (b := { s.builders.build k with stage := .ending ds }) ?_ ?_
      (fun _ _ => rfl) ?_ (Or.inl ?_) nofun
    · rw [← hsame]
      rfl
    · split <;> rfl
    · change Phase.Fits (s.phase k) (.ending ds)
      simp only [Phase.Fits, if_neg hhead, if_pos hbg]
      exact hrun
    · split <;> rfl
  | @dropNext k d ds hl ht =>
    have hsame : SameBuilds s.builders (s.builders.release k d) := by
      cases d <;> exact ⟨rfl, rfl, rfl, rfl, rfl⟩
    refine served_dropNext h hl hm ?_ hsame.2.1 hsame.2.2.1
    rw [← hsame.1]
    rfl
  | dropBuilder hb hn =>
    obtain ⟨hbuild, -, hbs, hbd⟩ := dropHook_same s.builders
    exact served_same h hm hbuild hbs hbd rfl

/-- Every step keeps each background where its build needs it. -/
theorem step_served (h : Served f s) {e : Label} (hs : s.step f e = some t) : Served f t := by
  cases e with
  | step e =>
    obtain ⟨hr, hs⟩ := Option.ite_none_right_eq_some.mp hs
    obtain ⟨u, hu, rfl⟩ := Option.map_eq_some_iff.mp hs
    exact served_builders h hr hu
  | spawnFails =>
    obtain ⟨-, ⟨⟩⟩ := Option.ite_none_right_eq_some.mp hs
    exact h
  | send k =>
    obtain ⟨⟨hd, hp⟩, ⟨⟩⟩ := Option.ite_none_right_eq_some.mp hs
    have hfit := h.fits k
    refine served_phase h ?_ fun _ hj => by rw [hp] at hj; cases hj
    cases hst : (s.builders.build k).stage with
    | failed => nofun
    | ending ds =>
      have hhead : ds.head? = some .compatBg := by simpa [dropping, hst] using hd
      simp [Phase.Fits, hhead]
    | absent | locked | tokio | written | unlocked | live | gone =>
      rw [hst] at hd
      cases hd
  | exit k =>
    obtain ⟨hp, ⟨⟩⟩ := Option.ite_none_right_eq_some.mp hs
    have hfit := h.fits k
    rw [hp] at hfit
    refine served_phase h ?_ fun _ hj => by rw [hp] at hj; cases hj
    cases hst : (s.builders.build k).stage with
    | failed => nofun
    | ending ds =>
      rw [hst] at hfit
      simp only [Phase.Fits] at hfit
      split at hfit
      next hhead => simp [Phase.Fits, hhead]
      · split at hfit <;> cases hfit
    | absent | locked | tokio | written | unlocked | live | gone =>
      rw [hst] at hfit
      cases hfit
  | joinFailed k =>
    obtain ⟨⟨hst, hp⟩, ⟨⟩⟩ := Option.ite_none_right_eq_some.mp hs
    refine served_phase h ?_ fun _ _ => rfl
    rw [hst]
    nofun

theorem run_served {es : List Label} (h : run (State.step f) new es = some s) : Served f s := by
  refine run_invariant (fun _ _ _ hi he => step_served hi he) ?_ h
  exact ⟨made_new, fun k => rfl, nofun, nofun⟩

end Steps

/-! ### Every shutdown completes -/

/-- The step starts nothing new. -/
def Label.settles : Label → Bool
  | .step e => e.settles
  | .spawnFails => false
  | .send _ | .exit _ | .joinFailed _ => true

/-- Everything has ended: builders, runtimes, threads and backgrounds. -/
structure AtRest (s : State) : Prop extends Quiet s.builders where
  threads : ∀ j, (s.builders.worker j).pc.attached = false
  phases : ∀ k, s.phase k = .absent ∨ s.phase k = .joined

/-- Steps until a background is joined. -/
def Phase.weight : Phase → ℕ
  | .running => 3
  | .signalled => 2
  | .exited => 1
  | .absent | .joined => 0

/-- Steps left in a build with its background. -/
def State.buildWeight (s : State) (k : ℕ) : ℕ :=
  (s.builders.build k).stage.weight + (s.phase k).weight

/-- Settling steps left while no thread has a number from `n` on. -/
def State.weight (n : ℕ) (s : State) : ℕ :=
  ∑ k ∈ Finset.range s.builders.builds, s.buildWeight k +
    ∑ j ∈ Finset.range n, (s.builders.worker j).pc.weight +
    s.builders.users.card + s.builders.builder.toNat

/-- A sum falls when one of its terms does and none rises. -/
theorem sum_lt {g g' : ℕ → ℕ} {n k : ℕ} (hk : k < n) (hlt : g' k < g k)
    (hle : ∀ i, g' i ≤ g i) : ∑ i ∈ Finset.range n, g' i < ∑ i ∈ Finset.range n, g i :=
  Finset.sum_lt_sum (fun i _ => hle i) ⟨k, Finset.mem_range.mpr hk, hlt⟩

section Settle

variable {f : Flavor} {s t : State}

/-- No settling step of the builders starts a background. -/
theorem after_weight {e : Startup.Label} (he : e.settles = true) (k : ℕ) :
    (s.after e k).weight ≤ (s.phase k).weight := by
  have hb : e ≠ .beginBuild := fun h => by
    rw [h] at he
    cases he
  rw [State.after, if_neg hb]
  cases s.joins e with
  | some i =>
    by_cases hk : k = i
    · rw [hk]
      simp only [Function.update_self]
      exact Nat.zero_le _
    · simp only [Function.update_of_ne hk]
      exact le_rfl
  | none => exact le_rfl

/-- A settling step of the builders brings the end nearer. -/
theorem builders_weight (h : Served f s) {n : ℕ}
    (hn : ∀ j, n ≤ j → (s.builders.worker j).pc = .absent) {e : Startup.Label}
    (he : e.settles = true) {u : Startup.State} (hs : s.builders.step f e = some u) :
    (∀ j, n ≤ j → (u.worker j).pc = .absent) ∧ State.weight n ⟨u, s.after e⟩ < s.weight n := by
  have hphase := after_weight (s := s) he
  -- what does not move contributes no more than before
  have hbuilds : u.build = s.builders.build → u.builds = s.builders.builds →
      ∑ k ∈ Finset.range u.builds, State.buildWeight ⟨u, s.after e⟩ k ≤
        ∑ k ∈ Finset.range s.builders.builds, s.buildWeight k := fun hb hbs => by
    rw [hbs]
    refine Finset.sum_le_sum fun k _ => ?_
    have hk := hphase k
    simp only [State.buildWeight, hb]
    omega
  cases settle_cases h.toMade he hs with
  | build k b hk hb hlt hw hu hd hbs =>
    refine ⟨by rw [hw]; exact hn, ?_⟩
    have hsum : ∑ k ∈ Finset.range u.builds, State.buildWeight ⟨u, s.after e⟩ k <
        ∑ k ∈ Finset.range s.builders.builds, s.buildWeight k := by
      rw [hbs]
      refine sum_lt hk ?_ fun i => ?_
      · have := hphase k
        simp only [State.buildWeight, hb, Function.update_self]
        omega
      · have hi := hphase i
        simp only [State.buildWeight, hb]
        by_cases hik : i = k
        · rw [hik] at hi ⊢
          rw [Function.update_self]
          omega
        · rw [Function.update_of_ne hik]
          omega
    have hcard := Finset.card_le_card hu
    simp only [State.weight, hw, hd]
    omega
  | worker j w hw hlt hb hu hd hbs =>
    have hj : j < n := by
      by_contra hle
      rw [hn j (by omega)] at hlt
      exact absurd hlt (Nat.not_lt_zero _)
    refine ⟨fun i hi => ?_, ?_⟩
    · rw [hw, Function.update_of_ne (by omega)]
      exact hn i hi
    · have hsum : ∑ i ∈ Finset.range n, (u.worker i).pc.weight <
          ∑ i ∈ Finset.range n, (s.builders.worker i).pc.weight := by
        refine sum_lt hj ?_ fun i => ?_
        · rw [hw, Function.update_self]
          exact hlt
        · rw [hw]
          by_cases hij : i = j
          · rw [hij, Function.update_self]
            exact hlt.le
          · rw [Function.update_of_ne hij]
      have hle := hbuilds hb hbs
      have hcard := Finset.card_le_card hu
      simp only [State.weight, hd]
      omega
  | user hu hw hb hd hbs =>
    refine ⟨by rw [hw]; exact hn, ?_⟩
    have hle := hbuilds hb hbs
    have hcard := Finset.card_lt_card hu
    simp only [State.weight, hw, hd]
    omega
  | builder hsb htb hw hb hu hbs =>
    refine ⟨by rw [hw]; exact hn, ?_⟩
    have hle := hbuilds hb hbs
    have hcard := Finset.card_le_card hu
    simp only [State.weight, hw, hsb, htb, Bool.toNat_true, Bool.toNat_false]
    omega

/-- A background that moves on brings the end nearer. -/
theorem phase_weight (h : Served f s) {k : ℕ} {p : Phase} (hk : s.phase k ≠ .absent)
    (hlt : p.weight < (s.phase k).weight) (n : ℕ) :
    State.weight n { s with phase := Function.update s.phase k p } < s.weight n := by
  have hst : (s.builders.build k).stage ≠ .absent := fun he => by
    have hfit := h.fits k
    rw [he] at hfit
    exact hk hfit
  have hsum : ∑ i ∈ Finset.range s.builders.builds,
        State.buildWeight { s with phase := Function.update s.phase k p } i <
      ∑ i ∈ Finset.range s.builders.builds, s.buildWeight i := by
    refine sum_lt (made_lt h.toMade hst) ?_ fun i => ?_
    · simp only [State.buildWeight, Function.update_self]
      omega
    · simp only [State.buildWeight]
      by_cases hik : i = k
      · rw [hik, Function.update_self]
        omega
      · rw [Function.update_of_ne hik]
  simp only [State.weight]
  omega

/-- Every settling step brings the end nearer. -/
theorem settle_weight (h : Served f s) {n : ℕ}
    (hn : ∀ j, n ≤ j → (s.builders.worker j).pc = .absent) {e : Label} (he : e.settles = true)
    (hs : s.step f e = some t) :
    (∀ j, n ≤ j → (t.builders.worker j).pc = .absent) ∧ t.weight n < s.weight n := by
  cases e with
  | step e =>
    obtain ⟨-, hs⟩ := Option.ite_none_right_eq_some.mp hs
    obtain ⟨u, hu, rfl⟩ := Option.map_eq_some_iff.mp hs
    exact builders_weight h hn he hu
  | spawnFails => cases he
  | send k =>
    obtain ⟨⟨-, hp⟩, ⟨⟩⟩ := Option.ite_none_right_eq_some.mp hs
    exact ⟨hn, phase_weight h (by rw [hp]; nofun) (by rw [hp]; decide) n⟩
  | exit k =>
    obtain ⟨hp, ⟨⟩⟩ := Option.ite_none_right_eq_some.mp hs
    exact ⟨hn, phase_weight h (by rw [hp]; nofun) (by rw [hp]; decide) n⟩
  | joinFailed k =>
    obtain ⟨⟨-, hp⟩, ⟨⟩⟩ := Option.ite_none_right_eq_some.mp hs
    exact ⟨hn, phase_weight h (by rw [hp]; nofun) (by rw [hp]; decide) n⟩

/-- A background that is being dropped is told to stop, stops and is joined. -/
theorem dropping_progress {k : ℕ} (hd : dropping (s.builders.build k).stage = true)
    (hp : s.phase k = .running ∨ s.phase k = .signalled) :
    ∃ e t, e.settles = true ∧ s.step f e = some t := by
  rcases hp with hp | hp
  · exact ⟨.send k, _, rfl, if_pos ⟨hd, hp⟩⟩
  · exact ⟨.exit k, _, rfl, if_pos hp⟩

/-- A settling step is possible until everything is at rest. -/
theorem rest_or_settles (h : Served f s) (hs : Sound f s.builders) :
    AtRest s ∨ ∃ e t, e.settles = true ∧ s.step f e = some t := by
  by_cases hret : ∃ k, (s.builders.build k).stage = .failed ∧ s.phase k ≠ .joined
  · obtain ⟨k, hk, hj⟩ := hret
    have hfit := h.fits k
    rw [hk] at hfit
    have hd : dropping (s.builders.build k).stage = true := by rw [hk]; rfl
    right
    cases hp : s.phase k with
    | absent => exact absurd hp hfit
    | joined => exact absurd hp hj
    | running => exact dropping_progress hd (Or.inl hp)
    | signalled => exact dropping_progress hd (Or.inr hp)
    | exited => exact ⟨.joinFailed k, _, rfl, if_pos ⟨hk, hp⟩⟩
  have hfailed : ∀ k, (s.builders.build k).stage = .failed → s.phase k = .joined := by
    simpa using hret
  have hreturned : s.returned := fun k _ => hfailed k
  rcases settle_progress hs with hq | ⟨e, u, he, hu⟩
  · left
    refine ⟨hq, quiet_detached hs hq, fun k => ?_⟩
    have hfit := h.fits k
    rcases hq.builds k with hk | hk | hk
    · rw [hk] at hfit
      exact Or.inl hfit
    · exact Or.inr (hfailed k hk)
    · rw [hk] at hfit
      exact Or.inr hfit
  · right
    by_cases hj : ∀ k ∈ s.joins e, s.phase k = .exited
    · refine ⟨.step e, ⟨u, s.after e⟩, he, ?_⟩
      have hready : s.ready e := ⟨fun _ => hreturned, hj⟩
      simp only [State.step, if_pos hready, hu, Option.map_some]
    · obtain ⟨k, hk, hp⟩ : ∃ k, k ∈ s.joins e ∧ s.phase k ≠ .exited := by simpa using hj
      -- the next drop of a runtime is that of its background
      obtain ⟨ds, hst, hhead⟩ : ∃ ds, (s.builders.build k).stage = .ending ds ∧
          ds.head? = some .compatBg := by
        unfold State.joins at hk
        split at hk
        next i =>
          split at hk
          next ds hst =>
            split at hk
            next hhead =>
              obtain rfl : i = k := by simpa using hk
              exact ⟨ds, hst, hhead⟩
            · cases hk
          · cases hk
        · cases hk
      have hfit := h.fits k
      simp only [hst, Phase.Fits, if_pos hhead] at hfit
      have hd : dropping (s.builders.build k).stage = true := by simp [hst, dropping, hhead]
      rcases hfit with hp' | hp' | hp'
      · exact dropping_progress hd (Or.inl hp')
      · exact dropping_progress hd (Or.inr hp')
      · exact absurd hp' hp

end Settle

/-- A state that a run of either builder reaches. -/
def Reached (f : Flavor) (n : ℕ) (s : State) : Prop :=
  (∃ es, run (State.step f) new es = some s) ∧ ∀ j, n ≤ j → (s.builders.worker j).pc = .absent

theorem reached_settle {f : Flavor} {n : ℕ} {s t : State} {e : Label} (h : Reached f n s)
    (he : e.settles = true) (hs : s.step f e = some t) :
    Reached f n t ∧ t.weight n < s.weight n := by
  obtain ⟨⟨es, hr⟩, hn⟩ := h
  obtain ⟨hn', hlt⟩ := settle_weight (run_served hr) hn he hs
  exact ⟨⟨⟨es ++ [e], run_concat.mpr ⟨s, hr, hs⟩⟩, hn'⟩, hlt⟩

end TokioCompat.Background
