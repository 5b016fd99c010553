import TokioCompat.StartupPool

/-!
# The threads of either builder

What the two builders have in common, whatever the hook captures: each build
goes through its stages once, the hook a tokio runtime runs is the one its own
build installed, and a thread exists only while its runtime does. A thread
that the hook has prepared therefore has the defaults of its own runtime.
-/

namespace TokioCompat.Startup

open Context Ownership Scope Transition

/-- `build` has begun and not returned. -/
def Stage.inBuild : Stage → Bool
  | .locked | .tokio | .written | .unlocked => true
  | .absent | .live | .ending _ | .gone | .failed => false

/-- Facts about the builds of either builder. -/
structure Made (f : Flavor) (s : State) : Prop where
  building : ∀ k, (s.build k).stage.inBuild = true ↔ s.building = some k
  afterStart : ∀ k, (s.build k).stage = .locked → s.afterStart = some k
  fresh : ∀ k, s.builds ≤ k → (s.build k).stage = .absent
  hook : ∀ k, (s.build k).stage.hasTokio = true → (s.build k).hook = k
  slot : ∀ k, (s.build k).stage.filled = true → (s.build k).slot = some ⟨k, k⟩
  /-- What is still to be dropped is the end of one list of drops. -/
  ending : ∀ k ds, (s.build k).stage = .ending ds →
    ds ≠ [] ∧ ∃ e all, f.drops e = some all ∧ ds <:+ all
  dropped : s.builder = false → s.afterStart = none ∧ s.building = none

section Builds

variable {f : Flavor} {s t : State}

/-- Nothing about the builds changes. -/
def SameBuilds (s t : State) : Prop :=
  t.build = s.build ∧ t.builds = s.builds ∧ t.building = s.building ∧
    t.afterStart = s.afterStart ∧ t.builder = s.builder

theorem made_same (h : Made f s) (ht : SameBuilds s t) : Made f t := by
  obtain ⟨hb, hn, hk, ha, hd⟩ := ht
  constructor
  · rw [hb, hk]
    exact h.building
  · rw [hb, ha]
    exact h.afterStart
  · rw [hb, hn]
    exact h.fresh
  · rw [hb]
    exact h.hook
  · rw [hb]
    exact h.slot
  · rw [hb]
    exact h.ending
  · rw [hd, ha, hk]
    exact h.dropped

/-- A panic of a hook is no business of any build. -/
theorem panicWorker_builds (s : State) (j : ℕ) (p : Panic) : SameBuilds s (s.panicWorker j p) := by
  have hsame : ∀ u : State, SameBuilds s u →
      SameBuilds s ((u.drop (.pool j) (.handle (s.worker j).rt)).setWorker j
        { s.worker j with pc := .panicked p }) := fun _ hu => hu
  unfold State.panicWorker
  apply hsame
  split <;> exact ⟨rfl, rfl, rfl, rfl, rfl⟩

/-- A panic of a hook ends its thread and no other. -/
theorem panicWorker_worker (s : State) (j : ℕ) (p : Panic) :
    (s.panicWorker j p).worker =
      Function.update s.worker j { s.worker j with pc := .panicked p } := by
  have hsame : ∀ u : State, u.worker = s.worker →
      ((u.drop (.pool j) (.handle (s.worker j).rt)).setWorker j
        { s.worker j with pc := .panicked p }).worker =
      Function.update s.worker j { s.worker j with pc := .panicked p } := fun u hu => by
    rw [← hu]
    rfl
  unfold State.panicWorker
  apply hsame
  split <;> rfl

/-- One build changes; what is asked of its new record is what the facts say. -/
theorem made_update (h : Made f s) {k : ℕ} {b : Build}
    (hb : t.build = Function.update s.build k b) (hn : s.builds ≤ t.builds) (hk : k < t.builds)
    (hin : b.stage.inBuild = true ↔ t.building = some k)
    (hother : ∀ i, i ≠ k → (s.building = some i ↔ t.building = some i))
    (hlock : ∀ i, i ≠ k → (s.build i).stage = .locked → t.afterStart = s.afterStart)
    (hl : b.stage = .locked → t.afterStart = some k)
    (hh : b.stage.hasTokio = true → b.hook = k)
    (hs : b.stage.filled = true → b.slot = some ⟨k, k⟩)
    (he : ∀ ds, b.stage = .ending ds → ds ≠ [] ∧ ∃ e all, f.drops e = some all ∧ ds <:+ all)
    (hd : t.builder = false → t.afterStart = none ∧ t.building = none) : Made f t := by
  have hne : ∀ i, i ≠ k → t.build i = s.build i := fun i hi => by
    rw [hb, Function.update_of_ne hi]
  have heq : t.build k = b := by rw [hb, Function.update_self]
  constructor
  · intro i
    by_cases hi : i = k
    · rw [hi, heq]
      exact hin
    · rw [hne i hi]
      exact (h.building i).trans (hother i hi)
  · intro i hst
    by_cases hi : i = k
    · rw [hi] at hst ⊢
      rw [heq] at hst
      exact hl hst
    · rw [hne i hi] at hst
      exact (hlock i hi hst).trans (h.afterStart i hst)
  · intro i hle
    rw [hne i (by omega)]
    exact h.fresh i (hn.trans hle)
  · intro i
    by_cases hi : i = k
    · rw [hi, heq]
      exact hh
    · rw [hne i hi]
      exact h.hook i
  · intro i
    by_cases hi : i = k
    · rw [hi, heq]
      exact hs
    · rw [hne i hi]
      exact h.slot i
  · intro i
    by_cases hi : i = k
    · rw [hi, heq]
      exact he
    · rw [hne i hi]
      exact h.ending i
  · exact hd

/-- A build that has begun is one of those counted. -/
theorem made_lt (h : Made f s) {k : ℕ} (hk : (s.build k).stage ≠ .absent) : k < s.builds := by
  by_contra hn
  exact hk (h.fresh k (by omega))

/-- The build in progress moves on to another stage of `build`. -/
theorem made_advance (h : Made f s) {k : ℕ} {b : Build} (hk : s.building = some k)
    (hb : t.build = Function.update s.build k b) (hn : t.builds = s.builds)
    (hbg : t.building = s.building) (ha : t.afterStart = s.afterStart)
    (hbd : t.builder = s.builder) (hin : b.stage.inBuild = true) (hl : b.stage ≠ .locked)
    (hh : b.stage.hasTokio = true → b.hook = k)
    (hs : b.stage.filled = true → b.slot = some ⟨k, k⟩) : Made f t := by
  have hin' := (h.building k).mpr hk
  have hne : (s.build k).stage ≠ .absent := fun he => by
    rw [he] at hin'
    cases hin'
  refine made_update h hb (by omega) (by rw [hn]; exact made_lt h hne)
    ⟨fun _ => hbg.trans hk, fun _ => hin⟩ (fun i _ => by rw [hbg]) (fun _ _ _ => ha)
    (fun he => absurd he hl) hh hs (fun ds he => ?_) (fun he => ?_)
  · rw [he] at hin
    cases hin
  · rw [hbd] at he
    rw [ha, hbg]
    exact h.dropped he

/-- The build in progress comes to its end. -/
theorem made_leave (h : Made f s) {k : ℕ} {b : Build} (hk : s.building = some k)
    (hb : t.build = Function.update s.build k b) (hn : t.builds = s.builds)
    (hbg : t.building = none) (ha : t.afterStart = s.afterStart) (hbd : t.builder = s.builder)
    (hst : b.stage = .live ∨ b.stage = .failed) (hh : b.stage.hasTokio = true → b.hook = k)
    (hs : b.stage.filled = true → b.slot = some ⟨k, k⟩) : Made f t := by
  have hin' := (h.building k).mpr hk
  have hne : (s.build k).stage ≠ .absent := fun he => by
    rw [he] at hin'
    cases hin'
  have hout : b.stage.inBuild = false ∧ b.stage ≠ .locked ∧ ∀ ds, b.stage ≠ .ending ds := by
    rcases hst with he | he <;> rw [he] <;> exact ⟨rfl, nofun, nofun⟩
  refine made_update h hb (by omega) (by rw [hn]; exact made_lt h hne) ?_ (fun i hi => ?_)
    (fun _ _ _ => ha) (fun he => absurd he hout.2.1) hh hs (fun ds he => absurd he (hout.2.2 ds))
    (fun he => ?_)
  · rw [hout.1, hbg]
    exact ⟨nofun, nofun⟩
  · rw [hk, hbg]
    exact ⟨fun he => absurd (Option.some.inj he).symm hi, nofun⟩
  · rw [hbd] at he
    exact ⟨ha ▸ (h.dropped he).1, hbg⟩

/-- A runtime that `build` has returned moves on to its end. -/
theorem made_end (h : Made f s) {k : ℕ} {st : Stage} (hb : t.build =
      Function.update s.build k { s.build k with stage := st })
    (hsame : t.builds = s.builds ∧ t.building = s.building ∧ t.afterStart = s.afterStart ∧
      t.builder = s.builder)
    (hold : (s.build k).stage = .live ∨ ∃ ds, (s.build k).stage = .ending ds)
    (hst : st = .gone ∨ ∃ ds, st = .ending ds ∧ ds ≠ [] ∧ ∃ e all, f.drops e = some all ∧ ds <:+ all)
    (hh : st.hasTokio = true → (s.build k).stage.hasTokio = true) : Made f t := by
  obtain ⟨hn, hbg, ha, hbd⟩ := hsame
  have hnew : st.inBuild = false ∧ st ≠ .locked := by
    rcases hst with rfl | ⟨ds, rfl, _⟩ <;> exact ⟨rfl, nofun⟩
  have hstage : (s.build k).stage.inBuild = false ∧ (s.build k).stage.filled = true ∧
      (s.build k).stage ≠ .absent := by
    rcases hold with he | ⟨ds, he⟩ <;> rw [he] <;> exact ⟨rfl, rfl, nofun⟩
  refine made_update h hb (by omega) (by rw [hn]; exact made_lt h hstage.2.2) ?_
    (fun i _ => by rw [hbg]) (fun _ _ _ => ha) (fun he => absurd he hnew.2)
    (fun he => h.hook k (hh he)) (fun _ => h.slot k hstage.2.1) (fun ds he => ?_) (fun he => ?_)
  · rw [hbg, ← h.building k, hstage.1]
    exact iff_of_false (by rw [hnew.1]; nofun) nofun
  · rcases hst with rfl | ⟨ds', rfl, hne, hsuf⟩
    · cases he
    · cases he
      exact ⟨hne, hsuf⟩
  · rw [hbd] at he
    rw [ha, hbg]
    exact h.dropped he

end Builds

/-- Letting go of the hook changes nothing else about the builds. -/
theorem made_dropHook {f : Flavor} {s : State} (h : Made f s) (hn : s.building = none) :
    Made f s.dropHook ∧ s.dropHook.afterStart = none ∧ s.dropHook.builder = s.builder := by
  obtain ⟨hb, -, hbs, hbd⟩ := dropHook_same s
  have ha : s.dropHook.afterStart = none ∧ s.dropHook.builder = s.builder := by
    unfold State.dropHook
    cases hs : s.afterStart with
    | none => exact ⟨hs, rfl⟩
    | some c => exact ⟨rfl, rfl⟩
  have hfree : ∀ k, (s.build k).stage ≠ .locked := fun k hk => by
    have hin : (s.build k).stage.inBuild = true := by rw [hk]; rfl
    rw [h.building k, hn] at hin
    cases hin
  refine ⟨⟨?_, ?_, ?_, ?_, ?_, ?_, ?_⟩, ha⟩
  · rw [hb, hbd]
    exact h.building
  · intro k hk
    rw [hb] at hk
    exact absurd hk (hfree k)
  · rw [hb, hbs]
    exact h.fresh
  · rw [hb]
    exact h.hook
  · rw [hb]
    exact h.slot
  · rw [hb]
    exact h.ending
  · intro he
    rw [hbd]
    exact ⟨ha.1, hn⟩

/-- A new build is the only one in progress. -/
theorem made_beginBuild {f : Flavor} {s t : State} (h : Made f s) (hbd : s.builder = true)
    (hn : s.building = none) {b : Build}
    (hb : t.build = Function.update s.build s.builds b) (hst : b.stage = .locked)
    (hbs : t.builds = s.builds + 1) (hbg : t.building = some s.builds)
    (ha : t.afterStart = some s.builds) (hbr : t.builder = s.builder) : Made f t := by
  refine made_update h (k := s.builds) hb (by omega) (by omega) ?_ (fun i hi => ?_)
    (fun i hi hl => ?_) (fun _ => ha) (fun he => ?_) (fun he => ?_) (fun ds he => ?_)
    (fun he => ?_)
  · rw [hst, hbg]
    exact ⟨fun _ => rfl, fun _ => rfl⟩
  · rw [hn, hbg]
    exact ⟨nofun, fun he => absurd (Option.some.inj he).symm hi⟩
  · have hin : (s.build i).stage.inBuild = true := by rw [hl]; rfl
    rw [h.building i, hn] at hin
    cases hin
  · rw [hst] at he
    cases he
  · rw [hst] at he
    cases he
  · rw [hst] at he
    cases he
  · rw [hbr, hbd] at he
    cases he

/-- Every ending drops something, the tokio runtime among it, and nothing twice. -/
theorem drops_once {f : Flavor} {e : Ending} {ds : List Drop} (h : f.drops e = some ds) :
    ds.Nodup ∧ .runtime ∈ ds := by
  unfold Flavor.drops at h
  cases e <;> cases hk : f.keeps <;> simp only [hk] at h <;> cases h <;> decide

/-- Every step of either builder keeps the facts about its builds. -/
theorem step_made {f : Flavor} {s t : State} {e : Label} (h : Made f s)
    (hs : s.step f e = some t) : Made f t := by
  cases step_cases hs with
  | beginBuild hb hn =>
    obtain ⟨hd, ha, hbr⟩ := made_dropHook h hn
    obtain ⟨hbuild, -, hbs, hbd⟩ := dropHook_same s
    have hbd' : s.dropHook.building = none := hbd.trans hn
    rw [← hbs]
    split
    · exact made_beginBuild hd (hbr.trans hb) hbd' rfl rfl rfl rfl rfl rfl
    · exact made_beginBuild hd (hbr.trans hb) hbd' rfl rfl rfl rfl rfl rfl
  | @tokioBuild k c hk hl hc =>
    have hck : k = c := Option.some.inj ((h.afterStart k hl).symm.trans hc)
    exact made_advance h hk rfl rfl rfl rfl rfl rfl nofun (fun _ => hck.symm) nofun
  | tokioFail hk hl => exact made_leave h hk rfl rfl rfl rfl rfl (Or.inr rfl) nofun nofun
  | @writeSlot k hk hl =>
    exact made_advance h hk rfl rfl rfl rfl rfl rfl nofun
      (fun _ => h.hook k (by rw [hl]; rfl)) fun _ => rfl
  | @unlock k hk hl =>
    exact made_advance h hk rfl rfl rfl rfl rfl rfl nofun (fun _ => h.hook k (by rw [hl]; rfl))
      fun _ => h.slot k (by rw [hl]; rfl)
  | @finish k hk hl =>
    have hh := h.hook k (by rw [hl]; rfl)
    have hsl := h.slot k (by rw [hl]; rfl)
    split
    · exact made_leave h hk rfl rfl rfl rfl rfl (Or.inl rfl) (fun _ => hh) fun _ => hsl
    · exact made_leave h hk rfl rfl rfl rfl rfl (Or.inl rfl) (fun _ => hh) fun _ => hsl
  | spawnThread hj hk => exact made_same h ⟨rfl, rfl, rfl, rfl, rfl⟩
  | upgradeStrong hf hj => exact made_same h ⟨rfl, rfl, rfl, rfl, rfl⟩
  | upgrade hf hj ha => exact made_same h ⟨rfl, rfl, rfl, rfl, rfl⟩
  | @upgradeFailed j hf hj ha => exact made_same h (panicWorker_builds s j _)
  | read hj hl hr => exact made_same h ⟨rfl, rfl, rfl, rfl, rfl⟩
  | @readUnset j hj hl hr => exact made_same h (panicWorker_builds s j _)
  | setGuards hj hg => split <;> exact made_same h ⟨rfl, rfl, rfl, rfl, rfl⟩
  | @setGuardsPanic j sp p hj hg => exact made_same h (panicWorker_builds s j _)
  | threadStop hj =>
    refine made_same h ?_
    split <;> exact ⟨rfl, rfl, rfl, rfl, rfl⟩
  | threadExit hj => exact made_same h ⟨rfl, rfl, rfl, rfl, rfl⟩
  | clone hc => exact made_same h ⟨rfl, rfl, rfl, rfl, rfl⟩
  | release hr => exact made_same h ⟨rfl, rfl, rfl, rfl, rfl⟩
  | @endRuntime k e ds hl he =>
    have hds := drops_once he
    have hne : ds ≠ [] := List.ne_nil_of_mem hds.2
    have hst : (Stage.ending ds) = .gone ∨ ∃ ds', Stage.ending ds = .ending ds' ∧ ds' ≠ [] ∧
        ∃ e all, f.drops e = some all ∧ ds' <:+ all :=
      Or.inr ⟨ds, rfl, hne, e, ds, he, List.suffix_refl ds⟩
    have htok : (Stage.ending ds).hasTokio = true → (s.build k).stage.hasTokio = true :=
      fun _ => by rw [hl]; rfl
    split
    · exact made_end (t := (s.add (.spawner k) (.handle k)).setStage k (.ending ds)) h rfl
        ⟨rfl, rfl, rfl, rfl⟩ (Or.inl hl) hst htok
    · exact made_end h rfl ⟨rfl, rfl, rfl, rfl⟩ (Or.inl hl) hst htok
  | @dropNext k d ds hl ht =>
    obtain ⟨-, e, all, he, hsuf⟩ := h.ending k _ hl
    have hsame : SameBuilds s (s.release k d) := by cases d <;> exact ⟨rfl, rfl, rfl, rfl, rfl⟩
    have hrel := made_same h hsame
    have hlr : ((s.release k d).build k).stage = .ending (d :: ds) := by
      rw [hsame.1]
      exact hl
    refine made_end hrel rfl ⟨rfl, rfl, rfl, rfl⟩ (Or.inr ⟨_, hlr⟩) ?_ (fun htok => ?_)
    · split
      · exact Or.inl rfl
      next hne => exact Or.inr ⟨ds, rfl, hne, e, all, he, (List.suffix_cons d ds).trans hsuf⟩
    · rw [hlr]
      split at htok
      · cases htok
      · simp only [Stage.hasTokio, List.contains_eq_mem, decide_eq_true_eq] at htok ⊢
        exact List.mem_cons_of_mem _ htok
  | dropBuilder hb hn =>
    obtain ⟨hd, ha, -⟩ := made_dropHook h hn
    obtain ⟨-, -, -, hbd⟩ := dropHook_same s
    exact ⟨hd.building, hd.afterStart, hd.fresh, hd.hook, hd.slot, hd.ending,
      fun _ => ⟨ha, hbd.trans hn⟩⟩

theorem made_new {f : Flavor} : Made f new := by
  constructor <;> simp [new, Stage.inBuild, Stage.hasTokio, Stage.filled]

/-- Every run of either builder keeps the facts about its builds. -/
theorem run_made {f : Flavor} {es : List Label} {s : State}
    (h : run (State.step f) new es = some s) : Made f s :=
  run_invariant (fun _ _ _ hi he => step_made hi he) made_new h

end TokioCompat.Startup
