import TokioCompat.StartupLedger
import Mathlib.Algebra.BigOperators.Group.Finset.Basic

/-!
# Threads and leftovers of both builders

The two builders agree on what a thread sees: outside its hooks the context of
a new thread, between them the defaults of its own runtime, and no thread
outlives its runtime. They differ in what is left when everything has ended:
nothing for the thread pool, three references for each current-thread runtime.
-/

namespace TokioCompat.Startup

open Context Ownership Transition

/-- What the two builders guarantee alike. -/
structure Sound (f : Flavor) (s : State) : Prop extends Made f s, Workers s where
  pool : ∀ j o, (.pool j, o) ∈ s.refs ↔ (s.worker j).pool = some o
  user : ∀ n o, (.user n, o) ∈ s.refs → ∃ k, o = .handle k

/-- Either builder guarantees it in every run. -/
theorem run_sound {f : Flavor} (hf : f = .threadPool ∨ f = .currentThread) {es : List Label}
    {s : State} (h : run (State.step f) new es = some s) : Sound f s := by
  have hm := run_made h
  rcases hf with rfl | rfl
  · have hi := run_inv h
    exact ⟨hm, hi.toWorkers, fun j o => hi.places _ o rfl, hi.user⟩
  · have hi := run_exact h
    refine ⟨hm, hi.toWorkers, fun j o => hi.keeps.held _ o rfl, fun n o hn => ?_⟩
    obtain ⟨k, hk, -⟩ := hi.keeps.user n o hn
    exact ⟨k, hk⟩

/-- The hooks put the defaults of the thread's runtime in place and take them back. -/
def Worker.Hooked (t : Worker) : Prop :=
  t.slots = (if t.pc = .running then Slots.ofRuntime t.rt else Slots.fresh) ∧
    t.guards = if t.pc = .running then some ⟨t.rt, t.rt⟩ else none

/-- A thread that stays outside its hooks keeps its context. -/
theorem hooked_outside {t : Worker} (p : Pc) (h : t.Hooked) (ht : t.pc ≠ .running)
    (hp : p ≠ .running) : Worker.Hooked { t with pc := p } := by
  obtain ⟨h1, h2⟩ := h
  rw [if_neg ht] at h1 h2
  constructor
  · rw [h1, if_neg hp]
  · rw [h2, if_neg hp]

/-- The stop hook undoes what the start hook did. -/
theorem unsetGuards_ofRuntime (k : ℕ) :
    unsetGuards (some ⟨k, k⟩) (Slots.ofRuntime k) = Slots.fresh := rfl

section Hooks

variable {s t : State}

theorem hooked_set (h : ∀ i, (s.worker i).Hooked) {j : ℕ} {w : Worker}
    (ht : t.worker = Function.update s.worker j w) (hw : w.Hooked) (i : ℕ) :
    (t.worker i).Hooked := by
  rw [ht]
  by_cases hi : i = j
  · rw [hi, Function.update_self]
    exact hw
  · rw [Function.update_of_ne hi]
    exact h i

theorem hooked_panic (h : ∀ i, (s.worker i).Hooked) {j : ℕ} (p : Panic)
    (hj : (s.worker j).pc ≠ .running) (i : ℕ) : ((s.panicWorker j p).worker i).Hooked :=
  hooked_set h (panicWorker_worker s j p) (hooked_outside (.panicked p) (h j) hj (by simp)) i

/-- Every step keeps the threads' contexts in that order. -/
theorem step_hooked {f : Flavor} (hm : Made f s) (hw : Workers s) (h : ∀ i, (s.worker i).Hooked)
    {e : Label} (hs : s.step f e = some t) (i : ℕ) : (t.worker i).Hooked := by
  cases step_cases hs with
  | beginBuild hb hn =>
    have hsame := (dropHook_same s).2.1
    have hi := h i
    rw [← hsame] at hi
    split <;> exact hi
  | dropBuilder hb hn =>
    have hi := h i
    rw [← (dropHook_same s).2.1] at hi
    exact hi
  | tokioBuild hk hl hc => exact h i
  | tokioFail hk hl => exact h i
  | writeSlot hk hl => exact h i
  | unlock hk hl => exact h i
  | finish hk hl => split <;> exact h i
  | spawnThread hj hk => exact hooked_set h rfl ⟨rfl, rfl⟩ i
  | upgradeStrong hf hj =>
    exact hooked_set h rfl (hooked_outside .upgraded (h _) (by simp [hj]) (by simp)) i
  | upgrade hf hj ha =>
    exact hooked_set h rfl (hooked_outside .upgraded (h _) (by simp [hj]) (by simp)) i
  | upgradeFailed hf hj ha => exact hooked_panic h _ (by simp [hj]) i
  | read hj hl hr =>
    exact hooked_set h rfl (hooked_outside (.reading _) (h _) (by simp [hj]) (by simp)) i
  | readUnset hj hl hr => exact hooked_panic h _ (by simp [hj]) i
  | @setGuards j sp slots hj hg =>
    have hok := hw.worker j
    simp only [Worker.Ok, hj] at hok
    obtain ⟨hsp, hfresh, hnone⟩ := hok
    rw [hm.hook _ (hw.attached j (by rw [hj]; rfl)), hfresh, hnone, hsp, setGuards_fresh] at hg
    cases hg
    have hnew : Worker.Hooked { s.worker j with
        pc := .running, slots := Slots.ofRuntime (s.worker j).rt, guards := some sp } := by
      rw [hsp]
      exact ⟨rfl, rfl⟩
    split <;> exact hooked_set h rfl hnew i
  | setGuardsPanic hj hg => exact hooked_panic h _ (by simp [hj]) i
  | @threadStop j hj =>
    obtain ⟨hslots, hguards⟩ := h j
    rw [if_pos hj] at hslots hguards
    have hnew : Worker.Hooked { s.worker j with
        pc := .stopping, slots := unsetGuards (s.worker j).guards (s.worker j).slots,
        guards := none } := by
      rw [hslots, hguards, unsetGuards_ofRuntime]
      exact ⟨rfl, rfl⟩
    refine hooked_set h (j := j) ?_ hnew i
    split <;> rfl
  | threadExit hj =>
    exact hooked_set h rfl (hooked_outside .exited (h _) (by simp [hj]) (by simp)) i
  | clone hc => exact h i
  | release hr => exact h i
  | endRuntime hl he => split <;> exact h i
  | @dropNext k d ds hl ht => cases d <;> exact h i

end Hooks

/-! ### What is left at the end -/

/-- The `Builder` is dropped, every build has come to its end and the program
holds no handle. -/
structure Quiet (s : State) : Prop where
  builder : s.builder = false
  builds : ∀ k, (s.build k).stage = .absent ∨ (s.build k).stage = .failed ∨
    (s.build k).stage = .gone
  user : ∀ n o, (.user n, o) ∉ s.refs

/-- No thread is left when everything has ended. -/
theorem quiet_detached {f : Flavor} {s : State} (hs : Sound f s) (hq : Quiet s) (j : ℕ) :
    (s.worker j).pc.attached = false := by
  by_contra ha
  have ht := hs.attached j (by simpa using ha)
  rcases hq.builds (s.worker j).rt with he | he | he <;> rw [he] at ht <;> cases ht

/-- A thread that does not exist holds nothing. -/
theorem detached_holds {t : Worker} (h : t.pc.attached = false) :
    t.pool = none ∧ t.upgraded = none ∧ t.guarded = none := by
  unfold Worker.pool Worker.upgraded Worker.guarded Worker.cloned
  cases ht : t.pc <;> rw [ht] at h <;> first | exact ⟨rfl, rfl, rfl⟩ | cases h

/-- A thread-pool builder that has come to rest has released everything. -/
theorem pool_quiet {s : State} (hi : Inv s) (hm : Made .threadPool s) (hs : Sound .threadPool s)
    (hq : Quiet s) : s.refs = ∅ := by
  have hdet := quiet_detached hs hq
  have hplace : ∀ p o, s.expects p ≠ some o := fun p o he => by
    cases p with
    | builder =>
      have ha := (hm.dropped hq.builder).1
      simp [State.expects, ha] at he
    | compatSender k | runtime k | spawner k =>
      rcases hq.builds k with hk | hk | hk <;>
        simp [State.expects, hk, Stage.holdsSender, Stage.hasTokio, Stage.hasSpawner] at he
    | pool j | upgraded j | guards j =>
      have hj := detached_holds (hdet j)
      simp [State.expects, hj] at he
    | user n | closure k | sender k | handle k => cases he
  -- so only objects could hold references, and they need one of those places
  have hsender : ∀ k, ¬Alive s.refs (.sender k) := by
    rintro k ⟨⟨p, o⟩, hm', ho⟩
    cases ho
    rcases holder_cases hi hm' with he | ⟨n, i, -, ho⟩ | ⟨i, ⟨-, ho⟩ | ⟨-, ho⟩⟩
    · exact hplace p _ he
    · cases ho
    · cases ho
    · cases ho
  have hhandle : ∀ k, ¬Alive s.refs (.handle k) := by
    rintro k ⟨⟨p, o⟩, hm', ho⟩
    cases ho
    rcases holder_cases hi hm' with he | ⟨n, i, rfl, -⟩ | ⟨i, ⟨-, ho⟩ | ⟨rfl, -⟩⟩
    · exact hplace p _ he
    · exact hq.user n _ hm'
    · cases ho
    · rcases hi.supported _ hm' with hr | ha
      · cases hr
      · exact hsender i ha
  refine Finset.eq_empty_of_forall_notMem ?_
  rintro ⟨p, o⟩ hm'
  rcases holder_cases hi hm' with he | ⟨n, i, rfl, -⟩ | ⟨i, ⟨rfl, -⟩ | ⟨rfl, -⟩⟩
  · exact hplace p o he
  · exact hq.user n _ hm'
  · rcases hi.supported _ hm' with hr | ha
    · cases hr
    · exact hhandle i ha
  · rcases hi.supported _ hm' with hr | ha
    · cases hr
    · exact hsender i ha

/-- A current-thread builder at rest holds the three references of each runtime
it built, and no other. -/
theorem current_quiet {s : State} (h : Exact s) (hs : Sound .currentThread s) (hq : Quiet s)
    (r : Place × Place) :
    r ∈ s.refs ↔ ∃ k, (s.build k).stage = .gone ∧ r ∈ chain k .gone := by
  obtain ⟨p, o⟩ := r
  have hdet := quiet_detached hs hq
  have ha := (h.dropped hq.builder).1
  have hmade : ∀ i, (s.build i).stage.made = true ↔ (s.build i).stage = .gone := fun i => by
    rcases hq.builds i with hi | hi | hi <;> simp [hi, Stage.made]
  have hfilled : ∀ i, (s.build i).stage.filled = true ↔ (s.build i).stage = .gone := fun i => by
    rcases hq.builds i with hi | hi | hi <;> simp [hi, Stage.filled]
  -- an object of build `i` holds what it holds in the chain of that build
  have one : ∀ (i : ℕ) (q : Place), p.isUser = false →
      s.keeps p = (if (s.build i).stage = .gone then some q else none) →
      (∀ k, (p, o) ∈ chain k .gone ↔ k = i ∧ o = q) →
      ((p, o) ∈ s.refs ↔ ∃ k, (s.build k).stage = .gone ∧ (p, o) ∈ chain k .gone) := by
    intro i q hu hk hc
    rw [h.keeps.held p o hu, hk]
    constructor
    · intro he
      obtain ⟨hi, he⟩ := Option.ite_none_right_eq_some.mp he
      exact ⟨i, hi, (hc i).mpr ⟨rfl, (Option.some.inj he).symm⟩⟩
    · rintro ⟨k, hgone, hm⟩
      obtain ⟨rfl, rfl⟩ := (hc k).mp hm
      rw [if_pos hgone]
  cases p with
  | user n =>
    constructor
    · exact fun hm => absurd hm (hq.user n o)
    · rintro ⟨k, -, hm⟩
      simp [chain] at hm
  | closure i =>
    refine one i (.sender i) rfl (by simp [State.keeps, ha, hmade]) fun k => ?_
    simp only [chain, Finset.mem_insert, Finset.mem_singleton, Prod.mk.injEq, reduceCtorEq,
      false_and, false_or, Place.closure.injEq, eq_comm, and_congr_right_iff]
    rintro rfl
    rfl
  | sender i =>
    refine one i (.handle i) rfl (by simp [State.keeps, hfilled]) fun k => ?_
    simp only [chain, Finset.mem_insert, Finset.mem_singleton, Prod.mk.injEq, reduceCtorEq,
      false_and, or_false, Place.sender.injEq, eq_comm, and_congr_right_iff]
    rintro rfl
    rfl
  | handle i =>
    refine one i (.closure i) rfl (by simp [State.keeps, hmade]) fun k => ?_
    simp only [chain, Finset.mem_insert, Finset.mem_singleton, Prod.mk.injEq, reduceCtorEq,
      false_and, false_or, or_false, Place.handle.injEq, eq_comm, and_congr_right_iff]
    rintro rfl
    rfl
  | builder => simp [h.keeps.held .builder o rfl, State.keeps, ha, chain]
  | compatSender i | runtime i | spawner i | upgraded i =>
    rw [h.keeps.held _ o rfl]
    rcases hq.builds i with hi | hi | hi <;>
      simp [State.keeps, hi, Stage.inBuild, Stage.hasTokio, chain]
  | pool j | guards j =>
    rw [h.keeps.held _ o rfl]
    have hj := detached_holds (hdet j)
    simp [State.keeps, hj, chain]

/-- The runtimes of the `Builder` that are gone. -/
def State.ended (s : State) : Finset ℕ :=
  (Finset.range s.builds).filter fun k => (s.build k).stage = .gone

theorem mem_ended {f : Flavor} {s : State} (h : Made f s) (k : ℕ) :
    k ∈ s.ended ↔ (s.build k).stage = .gone := by
  simp only [State.ended, Finset.mem_filter, Finset.mem_range, and_iff_right_iff_imp]
  intro hk
  exact made_lt h (by rw [hk]; nofun)

/-- The chains of different runtimes have no reference in common. -/
theorem chain_disjoint {i k : ℕ} (h : i ≠ k) : Disjoint (chain i .gone) (chain k .gone) := by
  simp [chain, h.symm]

theorem chain_card (k : ℕ) : (chain k .gone).card = 3 := by
  simp [chain]

/-- What is left when every build has come to its end, the `Builder` is dropped
and the program holds no handle, in every run of either builder: with a weak
capture nothing, whatever builds failed; with a strong capture exactly the
three references of each runtime that was built. -/
theorem quiet_leftovers {f : Flavor} (hf : f = .threadPool ∨ f = .currentThread)
    {es : List Label} {s : State} (h : run (State.step f) new es = some s) (hq : Quiet s) :
    s.refs = (if f.strong then s.ended.biUnion fun k => chain k .gone else ∅) ∧
      s.refs.card = if f.strong then 3 * s.ended.card else 0 := by
  have hs := run_sound hf h
  rcases hf with rfl | rfl
  · have he := pool_quiet (run_inv h) hs.toMade hs hq
    exact ⟨he, by simp [he, Flavor.threadPool]⟩
  · have he : s.refs = s.ended.biUnion fun k => chain k .gone := by
      ext r
      rw [current_quiet (run_exact h) hs hq r, Finset.mem_biUnion]
      constructor
      · rintro ⟨k, hk, hr⟩
        exact ⟨k, (mem_ended hs.toMade k).mpr hk, hr⟩
      · rintro ⟨k, hk, hr⟩
        exact ⟨k, (mem_ended hs.toMade k).mp hk, hr⟩
    refine ⟨he, ?_⟩
    calc s.refs.card = ∑ k ∈ s.ended, (chain k .gone).card := by
          rw [he, Finset.card_biUnion fun i _ k _ hik => chain_disjoint hik]
      _ = 3 * s.ended.card := by
          rw [Finset.sum_congr rfl fun k _ => chain_card k, Finset.sum_const, Nat.nsmul_eq_mul,
            Nat.mul_comm]

/-- One build fails and one runtime is built and dropped. -/
def failThenBuild : List Label :=
  [.beginBuild, .tokioFail, .beginBuild, .tokioBuild, .writeSlot, .unlock, .finish,
    .endRuntime 1 .plain, .dropNext 1, .dropNext 1, .dropBuilder]

/-- The state it ends in. -/
def settled : State := (run (State.step .currentThread) new failThenBuild).getD new

theorem settled_quiet : Quiet settled where
  builder := rfl
  builds
    | 0 => Or.inr (Or.inl rfl)
    | 1 => Or.inr (Or.inr rfl)
    | _ + 2 => Or.inl rfl
  user n o := by
    have hr : settled.refs =
        {(.sender 1, .handle 1), (.handle 1, .closure 1), (.closure 1, .sender 1)} := by decide
    simp [hr]

theorem quiet_leftovers_run : settled.refs.card = 3 * settled.ended.card :=
  (@quiet_leftovers .currentThread (Or.inr rfl) failThenBuild settled rfl settled_quiet).2

end TokioCompat.Startup
