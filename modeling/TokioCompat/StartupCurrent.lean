import TokioCompat.Startup

/-!
# The current-thread builder keeps its tokio handle alive

The hook of this builder owns the slot, the slot owns a clone of the tokio
handle once it is filled, and the handle owns the hook through the blocking
pool. From that moment the three objects keep one another alive, whatever the
program, the threads and the `Builder` drop afterwards.
-/

namespace TokioCompat.Startup

open Context Ownership Transition

/-- References that hold from each stage of the `k`-th build on: the hook is
kept by the `Builder`, then by the tokio runtime, then by its own captures. -/
def chain (k : ℕ) : Stage → Finset (Place × Place)
  | .absent | .failed => ∅
  | .locked => {(.builder, .closure k), (.closure k, .sender k)}
  | .tokio =>
    {(.builder, .closure k), (.runtime k, .handle k), (.handle k, .closure k),
      (.closure k, .sender k)}
  | .written | .unlocked | .live | .ending _ | .gone =>
    {(.sender k, .handle k), (.handle k, .closure k), (.closure k, .sender k)}

/-- Each chain is held up by a place or by itself. -/
theorem chain_supported (k : ℕ) (st : Stage) : Supported Place.root (chain k st) := by
  cases st <;> simp [chain, Supported, Alive, Place.root]

/-- Places whose references are in no chain. -/
def Place.passing : Place → Bool
  | .builder | .runtime _ | .closure _ | .sender _ | .handle _ => false
  | .compatSender _ | .spawner _ | .user _ | .pool _ | .upgraded _ | .guards _ => true

theorem passing_not_mem {p o : Place} (h : p.passing = true) (k : ℕ) (st : Stage) :
    (p, o) ∉ chain k st := by
  cases p <;> simp [Place.passing] at h <;> cases st <;> simp [chain]

/-- Only the chain of a build in progress has a link at the `Builder`. -/
theorem builder_not_mem {k : ℕ} {o : Place} {st : Stage} (h : st ≠ .locked) (h' : st ≠ .tokio) :
    (.builder, o) ∉ chain k st := by
  cases st <;> first | exact absurd rfl h | exact absurd rfl h' | simp [chain]

/-- The runtime that ends is not a link of any chain. -/
theorem runtime_not_mem {k i : ℕ} {o : Place} {st : Stage} (h : k = i → st ≠ .tokio) :
    (.runtime i, o) ∉ chain k st := by
  cases st <;> simp_all [chain, eq_comm]

/-- The chain of every build is intact, and at most one build is in progress. -/
structure Linked (s : State) : Prop where
  chain : ∀ k, chain k (s.build k).stage ⊆ s.refs
  building : ∀ k, (s.build k).stage = .locked ∨ (s.build k).stage = .tokio → s.building = some k
  afterStart : ∀ k, (s.build k).stage = .locked → s.afterStart = some k

/-- Adding references breaks no chain. -/
theorem linked_add {s : State} (h : Linked s) (p o : Place) : Linked (s.add p o) :=
  ⟨fun k => (h.chain k).trans (Finset.subset_insert _ _), h.building, h.afterStart⟩

/-- Dropping a reference that is in no chain breaks none. -/
theorem linked_drop {s : State} (h : Linked s) {p o : Place}
    (hp : ∀ k, (p, o) ∉ chain k (s.build k).stage) : Linked (s.drop p o) :=
  ⟨fun k => subset_drop (chain_supported k _) (h.chain k) (hp k), h.building, h.afterStart⟩

theorem linked_passing {s : State} (h : Linked s) {p : Place} (hp : p.passing = true) (o : Place) :
    Linked (s.drop p o) := linked_drop h fun k => passing_not_mem hp k _

/-- Threads are not part of any chain. -/
theorem linked_worker {s : State} (h : Linked s) (j : ℕ) (t : Worker) : Linked (s.setWorker j t) :=
  ⟨h.chain, h.building, h.afterStart⟩

theorem linked_panic {s : State} (h : Linked s) (j : ℕ) (p : Panic) :
    Linked (s.panicWorker j p) := by
  unfold State.panicWorker
  have h1 := linked_passing h (p := .upgraded j) rfl (.sender (s.build (s.worker j).rt).hook)
  have h2 : ∀ u, Linked u → Linked (u.drop (.pool j) (.handle (s.worker j).rt)) := fun u hu =>
    linked_passing hu rfl _
  apply linked_worker
  apply h2
  split
  · exact linked_passing h1 rfl _
  · exact h1

/-- A build whose chain is complete moves on to a stage with the same chain. -/
theorem linked_stage {s : State} (h : Linked s) {k : ℕ} {st : Stage}
    (hc : Startup.chain k st ⊆ s.refs) (h1 : st ≠ .locked) (h2 : st ≠ .tokio) :
    Linked (s.setStage k st) := by
  have hs : ∀ i, i ≠ k → ((s.setStage k st).build i).stage = (s.build i).stage := fun i hi => by
    simp [State.setStage, Function.update_of_ne hi]
  have hk : ((s.setStage k st).build k).stage = st := by simp [State.setStage]
  refine ⟨fun i => ?_, fun i hi => ?_, fun i hi => ?_⟩
  · by_cases he : i = k
    · rw [he, hk]
      exact hc
    · rw [hs i he]
      exact h.chain i
  · by_cases he : i = k
    · rw [he, hk] at hi
      exact (hi.elim h1 h2).elim
    · rw [hs i he] at hi
      exact h.building i hi
  · by_cases he : i = k
    · rw [he, hk] at hi
      exact (h1 hi).elim
    · rw [hs i he] at hi
      exact h.afterStart i hi

/-- Between builds the `Builder` may let go of its hook. -/
theorem linked_dropHook {s : State} (h : Linked s) (hn : s.building = none) :
    Linked s.dropHook := by
  unfold State.dropHook
  have hne : ∀ k, (s.build k).stage ≠ .locked ∧ (s.build k).stage ≠ .tokio := fun k =>
    ⟨fun he => by simpa [hn] using h.building k (Or.inl he),
      fun he => by simpa [hn] using h.building k (Or.inr he)⟩
  cases s.afterStart with
  | none => exact h
  | some c =>
    have hd := linked_drop h (p := .builder) (o := .closure c) fun k =>
      builder_not_mem (hne k).1 (hne k).2
    exact ⟨hd.chain, hd.building, fun k hk => absurd hk (hne k).1⟩

/-- A build that is past tokio's own build may return. -/
theorem linked_done {s : State} (h : Linked s) {k : ℕ} (hk : s.building = some k)
    (h1 : (s.build k).stage ≠ .locked) (h2 : (s.build k).stage ≠ .tokio) :
    Linked { s with building := none } := by
  refine ⟨h.chain, fun i hi => ?_, h.afterStart⟩
  have hb := h.building i hi
  rw [hk] at hb
  obtain rfl := Option.some.inj hb
  exact (hi.elim h1 h2).elim

/-- Replace the record of one build; the others keep their chains. -/
theorem linked_update {s t : State} (h : Linked s) {k : ℕ} {b : Build}
    (hb : t.build = Function.update s.build k b) (hr : s.refs ⊆ t.refs)
    (hc : Startup.chain k b.stage ⊆ t.refs)
    (ho : ∀ i, i ≠ k → (s.build i).stage ≠ .locked ∧ (s.build i).stage ≠ .tokio)
    (hk : t.building = some k) (ha : b.stage = .locked → t.afterStart = some k) : Linked t := by
  have hs : ∀ i, i ≠ k → t.build i = s.build i := fun i hi => by
    rw [hb, Function.update_of_ne hi]
  have he : t.build k = b := by rw [hb, Function.update_self]
  refine ⟨fun i => ?_, fun i hi => ?_, fun i hi => ?_⟩
  · by_cases hi : i = k
    · rw [hi, he]
      exact hc
    · rw [hs i hi]
      exact (h.chain i).trans hr
  · by_cases hik : i = k
    · rw [hik]
      exact hk
    · rw [hs i hik] at hi
      exact (hi.elim (ho i hik).1 (ho i hik).2).elim
  · by_cases hik : i = k
    · rw [hik] at hi ⊢
      rw [he] at hi
      exact ha hi
    · rw [hs i hik] at hi
      exact ((ho i hik).1 hi).elim

/-- Only the build in progress can be inside tokio's build. -/
theorem others_done {s : State} (h : Linked s) {k : ℕ} (hk : s.building = some k) (i : ℕ)
    (hi : i ≠ k) : (s.build i).stage ≠ .locked ∧ (s.build i).stage ≠ .tokio := by
  have ho : ∀ p : (s.build i).stage = .locked ∨ (s.build i).stage = .tokio, False := fun p => by
    have := h.building i p
    rw [hk] at this
    exact hi (Option.some.inj this).symm
  exact ⟨fun he => ho (Or.inl he), fun he => ho (Or.inr he)⟩

/-- With a strong capture every step keeps every chain intact. -/
theorem step_linked {f : Flavor} (hf : f.strong = true) {s t : State} {e : Label} (h : Linked s)
    (hs : s.step f e = some t) : Linked t := by
  cases step_cases hs with
  | beginBuild hb hn =>
    have h0 := linked_add (linked_add (linked_add (linked_dropHook h hn) (.compatSender s.builds)
      (.sender s.builds)) .builder (.closure s.builds)) (.closure s.builds) (.sender s.builds)
    have hsame : s.dropHook.build = s.build := by
      unfold State.dropHook
      split <;> rfl
    have hfree : ∀ i, (s.build i).stage ≠ .locked ∧ (s.build i).stage ≠ .tokio := fun i =>
      ⟨fun he => by simpa [hn] using h.building i (Or.inl he),
        fun he => by simpa [hn] using h.building i (Or.inr he)⟩
    rw [hf]
    refine linked_update h0 (k := s.builds) rfl subset_rfl ?_ ?_ rfl fun _ => rfl
    · simp [chain, Finset.insert_subset_iff, State.add, State.setStage]
    · intro i _
      change (s.dropHook.build i).stage ≠ .locked ∧ (s.dropHook.build i).stage ≠ .tokio
      rw [hsame]
      exact hfree i
  | @tokioBuild k c hk hl hc =>
    obtain rfl : k = c := Option.some.inj ((h.afterStart k hl).symm.trans hc)
    have hold := h.chain k
    rw [hl] at hold
    simp only [chain, Finset.insert_subset_iff, Finset.singleton_subset_iff] at hold
    refine linked_update h (k := k) rfl
      ((Finset.subset_insert _ _).trans (Finset.subset_insert _ _)) ?_ (others_done h hk) hk nofun
    simp [chain, Finset.insert_subset_iff, State.add, hold]
  | @tokioFail k hk hl =>
    have h1 := linked_passing h (p := .compatSender k) rfl (.sender k)
    have h2 : Linked (State.setStage _ k .failed) :=
      linked_stage h1 (Finset.empty_subset _) nofun nofun
    exact linked_done h2 hk (by simp [State.setStage]) (by simp [State.setStage])
  | @writeSlot k hk hl =>
    have hold := h.chain k
    rw [hl] at hold
    simp only [chain, Finset.insert_subset_iff, Finset.singleton_subset_iff] at hold
    refine linked_update h (k := k) rfl (Finset.subset_insert _ _) ?_ (others_done h hk) hk nofun
    simp [chain, Finset.insert_subset_iff, State.add, hold]
  | @unlock k hk hl => exact linked_stage h (by simpa [hl, chain] using h.chain k) nofun nofun
  | @finish k hk hl =>
    have h1 : Linked (if f.keeps then s else s.drop (.compatSender k) (.sender k)) := by
      split
      · exact h
      · exact linked_passing h rfl _
    have hst : ∀ u : State, u = s ∨ u = s.drop (.compatSender k) (.sender k) →
        (u.build k).stage = .unlocked ∧ u.building = some k := by
      rintro u (rfl | rfl) <;> exact ⟨hl, hk⟩
    obtain ⟨hu, hb⟩ := hst (if f.keeps then s else s.drop (.compatSender k) (.sender k))
      (by split <;> simp)
    have h2 : Linked (State.setStage _ k .live) :=
      linked_stage h1 (by simpa [hu, chain] using h1.chain k) nofun nofun
    exact linked_done h2 hb (by simp [State.setStage]) (by simp [State.setStage])
  | spawnThread hj hk => exact linked_worker (linked_add h _ _) _ _
  | upgradeStrong hf hj => exact linked_worker h _ _
  | upgrade hf hj ha => exact linked_worker (linked_add h _ _) _ _
  | upgradeFailed hf hj ha => exact linked_panic h _ _
  | read hj hl hr => exact linked_worker (linked_add h _ _) _ _
  | readUnset hj hl hr => exact linked_panic h _ _
  | setGuards hj hg =>
    apply linked_worker
    rw [if_pos hf]
    exact h
  | setGuardsPanic hj hg => exact linked_panic h _ _
  | threadStop hj =>
    apply linked_worker
    split
    · exact linked_passing h rfl _
    · exact h
  | threadExit hj => exact linked_worker (linked_passing h rfl _) _ _
  | clone hc => exact linked_add h _ _
  | release hr => exact linked_passing h rfl _
  | @endRuntime k e ds hl he =>
    have h1 : Linked (if .spawner ∈ ds then s.add (.spawner k) (.handle k) else s) := by
      split
      · exact linked_add h _ _
      · exact h
    have hu : ((if .spawner ∈ ds then s.add (.spawner k) (.handle k) else s).build k).stage =
        .live := by split <;> exact hl
    exact linked_stage h1 (by simpa [hu, chain] using h1.chain k) nofun nofun
  | @dropNext k d ds hl ht =>
    have h1 : Linked (s.release k d) := by
      cases d with
      | spawner => exact linked_passing h rfl _
      | runtime => exact linked_drop h fun i => runtime_not_mem fun he => by simp [he, hl]
      | compatBg => exact h
      | compatSender => exact linked_passing h rfl _
    have hu : ((s.release k d).build k).stage = .ending (d :: ds) := by
      cases d <;> exact hl
    refine linked_stage h1 ?_ (by split <;> simp) (by split <;> simp)
    have := h1.chain k
    rw [hu] at this
    split <;> exact this
  | dropBuilder hb hn =>
    have h1 := linked_dropHook h hn
    exact ⟨h1.chain, h1.building, h1.afterStart⟩

/-- With a strong capture every run keeps every chain intact. -/
theorem run_linked {f : Flavor} (hf : f.strong = true) {es : List Label} {s : State}
    (h : run (State.step f) new es = some s) : Linked s := by
  refine run_invariant (fun _ _ _ hl he => step_linked hf hl he) ?_ h
  exact ⟨fun k => Finset.empty_subset _, fun k hk => by simp [new] at hk,
    fun k hk => by simp [new] at hk⟩

/-! ### What remains after a runtime is gone -/

/-- The runtime of the `k`-th build is dropped, its threads have stopped and
the program holds no clone of its handle. -/
def Released (s : State) (k : ℕ) : Prop :=
  (s.build k).stage = .gone ∧ (∀ j, (s.worker j).rt = k → (s.worker j).pc.attached = false) ∧
    ∀ n, (.user n, .handle k) ∉ s.refs

/-- No strong reference to the tokio handle is left. -/
def HandleFree (s : State) (k : ℕ) : Prop := ∀ p, (p, .handle k) ∉ s.refs

/-- A current-thread runtime never gives its tokio handle back: in every run,
each runtime that is released leaves the handle owned by the slot, the slot by
the hook, and the hook by the handle. -/
theorem handle_never_free {es : List Label} {s : State} {k : ℕ}
    (h : run (State.step .currentThread) new es = some s) (hr : Released s k) :
    ((.sender k, .handle k) ∈ s.refs ∧ (.closure k, .sender k) ∈ s.refs ∧
      (.handle k, .closure k) ∈ s.refs) ∧ ¬HandleFree s k := by
  have hc := (run_linked rfl h).chain k
  rw [hr.1] at hc
  simp only [chain, Finset.insert_subset_iff, Finset.singleton_subset_iff] at hc
  exact ⟨⟨hc.1, hc.2.2, hc.2.1⟩, fun hf => hf _ hc.1⟩

/-- Build one runtime, drop it and the `Builder`. -/
def buildAndDrop : List Label :=
  [.beginBuild, .tokioBuild, .writeSlot, .unlock, .finish, .endRuntime 0 .plain, .dropNext 0,
    .dropNext 0, .dropBuilder]

/-- The state it ends in. -/
def abandoned : State := (run (State.step .currentThread) new buildAndDrop).getD new

theorem abandoned_refs :
    abandoned.refs = {(.sender 0, .handle 0), (.handle 0, .closure 0), (.closure 0, .sender 0)} := by
  decide

theorem released_abandoned : Released abandoned 0 :=
  ⟨rfl, fun _ _ => rfl, fun n => by simp [abandoned_refs]⟩

theorem handle_never_free_run : ¬HandleFree abandoned 0 :=
  (@handle_never_free buildAndDrop abandoned 0 rfl released_abandoned).2

/-- A released current-thread runtime does not always free its handle. -/
theorem released_not_free : ¬∀ (es : List Label) (s : State) (k : ℕ),
    run (State.step .currentThread) new es = some s → Released s k → HandleFree s k := by
  intro h
  have hf := h buildAndDrop abandoned 0 rfl released_abandoned (.sender 0)
  rw [abandoned_refs] at hf
  simp at hf

end TokioCompat.Startup
