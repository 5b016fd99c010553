import TokioCompat.StartupEnd

/-!
# Everything a builder started can be brought to its end

Steps that finish a build, stop a thread, drop a handle or a runtime bring the
builder closer to rest, each by a positive weight, and until it is at rest one
of them is possible: a thread that waits for the lock on its slot waits for a
`build` that waits for nobody, and a runtime waits for its own threads only.
-/

namespace TokioCompat.Startup

open Context Ownership Transition

/-- The step starts nothing new. -/
def Label.settles : Label → Bool
  | .beginBuild | .spawnThread .. | .clone .. => false
  | _ => true

/-- Steps between this stage and the end of the runtime; an ending has at most
four drops. -/
def Stage.weight : Stage → ℕ
  | .absent | .gone | .failed => 0
  | .ending ds => ds.length
  | .live => 5
  | .unlocked => 6
  | .written => 7
  | .tokio => 8
  | .locked => 9

/-- Steps between this point of a thread and its exit. -/
def Pc.weight : Pc → ℕ
  | .absent | .exited | .panicked _ => 0
  | .stopping => 1
  | .running => 2
  | .reading _ => 3
  | .upgraded => 4
  | .started => 5

/-- The handles of the program. -/
def State.users (s : State) : Finset (Place × Place) := s.refs.filter fun r => r.1.isUser = true

/-- What a settling step does to the builder. -/
inductive Settles (s t : State) : Prop where
  /-- One build moves on. -/
  | build (k : ℕ) (b : Build) (hk : k < s.builds) (hb : t.build = Function.update s.build k b)
    (hlt : b.stage.weight < (s.build k).stage.weight) (hw : t.worker = s.worker)
    (hu : t.users ⊆ s.users) (hd : t.builder = s.builder) (hn : t.builds = s.builds)
  /-- One thread moves on. -/
  | worker (j : ℕ) (w : Worker) (hw : t.worker = Function.update s.worker j w)
    (hlt : w.pc.weight < (s.worker j).pc.weight) (hb : t.build = s.build)
    (hu : t.users ⊆ s.users) (hd : t.builder = s.builder) (hn : t.builds = s.builds)
  /-- The program drops a handle. -/
  | user (hu : t.users ⊂ s.users) (hw : t.worker = s.worker) (hb : t.build = s.build)
    (hd : t.builder = s.builder) (hn : t.builds = s.builds)
  /-- The `Builder` is dropped. -/
  | builder (hs : s.builder = true) (ht : t.builder = false) (hw : t.worker = s.worker)
    (hb : t.build = s.build) (hu : t.users ⊆ s.users) (hn : t.builds = s.builds)

section Settles

variable {s t : State}

/-- Dropping references gives the program no handle. -/
theorem users_subset (h : t.refs ⊆ s.refs) : t.users ⊆ s.users := Finset.filter_subset_filter _ h

/-- A reference of the library is no handle of the program. -/
theorem users_insert {p o : Place} (hp : p.isUser = false) (h : t.refs = insert (p, o) s.refs) :
    t.users = s.users := by
  unfold State.users
  rw [h, Finset.filter_insert, if_neg (by simp [hp])]

theorem drop_refs_subset (s : State) (p o : Place) : (s.drop p o).refs ⊆ s.refs :=
  (drop_subset _ _).trans (Finset.erase_subset _ _)

theorem dropHook_refs_subset (s : State) : s.dropHook.refs ⊆ s.refs := by
  unfold State.dropHook
  split
  · exact drop_refs_subset s _ _
  · exact subset_rfl

theorem panicWorker_refs_subset (s : State) (j : ℕ) (p : Panic) :
    (s.panicWorker j p).refs ⊆ s.refs := by
  have hsub : ∀ u : State, u.refs ⊆ s.refs →
      ((u.drop (.pool j) (.handle (s.worker j).rt)).setWorker j
        { s.worker j with pc := .panicked p }).refs ⊆ s.refs := fun u hu =>
    (drop_refs_subset u _ _).trans hu
  unfold State.panicWorker
  apply hsub
  split
  · exact (drop_refs_subset _ _ _).trans (drop_refs_subset s _ _)
  · exact drop_refs_subset s _ _

/-- An ending has at most four drops. -/
theorem drops_length {f : Flavor} {e : Ending} {ds : List Drop} (h : f.drops e = some ds) :
    ds.length < 5 := by
  unfold Flavor.drops at h
  cases e <;> cases hk : f.keeps <;> simp only [hk] at h <;> cases h <;> decide

/-- A settling step moves one thing on. -/
theorem settle_cases {f : Flavor} (hm : Made f s) {e : Label} (he : e.settles = true)
    (hs : s.step f e = some t) : Settles s t := by
  have hlt : ∀ k, (s.build k).stage ≠ .absent → k < s.builds := fun k hk => made_lt hm hk
  cases step_cases hs with
  | beginBuild hb hn => cases he
  | spawnThread hj hk => cases he
  | clone hc => cases he
  | @tokioBuild k c hk hl hc =>
    refine .build k _ (hlt k (by rw [hl]; nofun)) rfl (by rw [hl]; exact Nat.lt_succ_self 8) rfl
      ?_ rfl rfl
    exact ((users_insert rfl rfl).trans (users_insert (s := s) (p := .runtime k) rfl rfl)).subset
  | @tokioFail k hk hl =>
    exact .build k _ (hlt k (by rw [hl]; nofun)) rfl (by rw [hl]; exact Nat.succ_pos 8) rfl
      (users_subset (drop_refs_subset s _ _)) rfl rfl
  | @writeSlot k hk hl =>
    exact .build k _ (hlt k (by rw [hl]; nofun)) rfl (by rw [hl]; exact Nat.lt_succ_self 7) rfl
      (users_insert (p := .sender k) rfl rfl).subset rfl rfl
  | @unlock k hk hl =>
    exact .build k _ (hlt k (by rw [hl]; nofun)) rfl (by rw [hl]; exact Nat.lt_succ_self 6) rfl
      subset_rfl rfl rfl
  | @finish k hk hl =>
    have hk' := hlt k (by rw [hl]; nofun)
    split
    · exact .build k _ hk' rfl (by rw [hl]; exact Nat.lt_succ_self 5) rfl subset_rfl rfl rfl
    · exact .build k _ hk' rfl (by rw [hl]; exact Nat.lt_succ_self 5) rfl
        (users_subset (drop_refs_subset s _ _)) rfl rfl
  | @upgradeStrong j hf hj => exact .worker j _ rfl (by rw [hj]; exact Nat.lt_succ_self 4) rfl subset_rfl rfl rfl
  | @upgrade j hf hj ha =>
    exact .worker j _ rfl (by rw [hj]; exact Nat.lt_succ_self 4) rfl
      (users_insert (p := .upgraded j) rfl rfl).subset rfl rfl
  | @upgradeFailed j hf hj ha =>
    have hsame := panicWorker_builds s j upgradeFailed
    exact .worker j _ (panicWorker_worker s j _) (by rw [hj]; exact Nat.succ_pos 4) hsame.1
      (users_subset (panicWorker_refs_subset s j _)) hsame.2.2.2.2 hsame.2.1
  | @read j sp hj hl hr =>
    exact .worker j _ rfl (by rw [hj]; exact Nat.lt_succ_self 3) rfl
      (users_insert (p := .guards j) rfl rfl).subset rfl rfl
  | @readUnset j hj hl hr =>
    have hsame := panicWorker_builds s j (.assertion f.unset)
    exact .worker j _ (panicWorker_worker s j _) (by rw [hj]; exact Nat.succ_pos 3) hsame.1
      (users_subset (panicWorker_refs_subset s j _)) hsame.2.2.2.2 hsame.2.1
  | @setGuards j sp slots hj hg =>
    have hpc : Pc.running.weight < (s.worker j).pc.weight := by
      rw [hj]
      exact Nat.lt_succ_self 2
    split
    · exact .worker j _ rfl hpc rfl subset_rfl rfl rfl
    · exact .worker j _ rfl hpc rfl (users_subset (drop_refs_subset s _ _)) rfl rfl
  | @setGuardsPanic j sp p hj hg =>
    have hsame := panicWorker_builds s j p
    exact .worker j _ (panicWorker_worker s j _) (by rw [hj]; exact Nat.succ_pos 2) hsame.1
      (users_subset (panicWorker_refs_subset s j _)) hsame.2.2.2.2 hsame.2.1
  | @threadStop j hj =>
    have hpc : Pc.stopping.weight < (s.worker j).pc.weight := by
      rw [hj]
      decide
    split
    · exact .worker j _ rfl hpc rfl (users_subset (drop_refs_subset s _ _)) rfl rfl
    · exact .worker j _ rfl hpc rfl subset_rfl rfl rfl
  | @threadExit j hj =>
    exact .worker j _ rfl (by rw [hj]; exact Nat.succ_pos 0) rfl
      (users_subset (drop_refs_subset s _ _)) rfl rfl
  | @release n k hr =>
    refine .user ⟨users_subset (drop_refs_subset s _ _), fun hsub => ?_⟩ rfl rfl rfl rfl
    have hin : (Place.user n, Place.handle k) ∈ s.users := Finset.mem_filter.mpr ⟨hr, rfl⟩
    have hout := (Finset.mem_filter.mp (hsub hin)).1
    exact (mem_of_mem_drop hout).1 rfl
  | @endRuntime k e ds hl hd =>
    have hk' := hlt k (by rw [hl]; nofun)
    have hw : (Stage.ending ds).weight < (s.build k).stage.weight := by
      rw [hl]
      exact drops_length hd
    split
    · exact .build k _ hk' rfl hw rfl (users_insert (p := .spawner k) rfl rfl).subset rfl rfl
    · exact .build k _ hk' rfl hw rfl subset_rfl rfl rfl
  | @dropNext k d ds hl ht =>
    have hk' := hlt k (by rw [hl]; nofun)
    have hw : (if ds = [] then Stage.gone else .ending ds).weight < (s.build k).stage.weight := by
      rw [hl]
      split
      · exact Nat.succ_pos _
      · exact Nat.lt_succ_self _
    have hu : (s.release k d).refs ⊆ s.refs := by
      cases d <;> first | exact subset_rfl | exact drop_refs_subset s _ _
    have hsame : (s.release k d).build = s.build ∧ (s.release k d).worker = s.worker ∧
        (s.release k d).builder = s.builder ∧ (s.release k d).builds = s.builds := by
      cases d <;> exact ⟨rfl, rfl, rfl, rfl⟩
    refine .build k { (s.release k d).build k with
      stage := if ds = [] then .gone else .ending ds } hk' ?_ hw hsame.2.1 (users_subset hu)
      hsame.2.2.1 hsame.2.2.2
    rw [← hsame.1]
    rfl
  | dropBuilder hb hn =>
    obtain ⟨hbuild, hw, hn', -⟩ := dropHook_same s
    exact .builder hb rfl hw hbuild (users_subset (dropHook_refs_subset s)) hn'

/-- Only so many threads have ever been started. -/
theorem step_threads {f : Flavor} (hm : Made f s) {e : Label} (hs : s.step f e = some t)
    (h : ∃ n, ∀ j, n ≤ j → (s.worker j).pc = .absent) :
    ∃ n, ∀ j, n ≤ j → (t.worker j).pc = .absent := by
  obtain ⟨n, hn⟩ := h
  have hset : ∀ i w, t.worker = Function.update s.worker i w →
      ∃ n, ∀ j, n ≤ j → (t.worker j).pc = .absent := fun i w hw => by
    refine ⟨max n (i + 1), fun j hj => ?_⟩
    rw [hw, Function.update_of_ne (by omega)]
    exact hn j (by omega)
  by_cases he : e.settles = true
  · cases settle_cases hm he hs with
    | worker j w hw => exact hset j w hw
    | build k b hk hb hlt hw => exact ⟨n, hw ▸ hn⟩
    | user hu hw => exact ⟨n, hw ▸ hn⟩
    | builder hs ht hw => exact ⟨n, hw ▸ hn⟩
  · cases step_cases hs with
    | beginBuild hb hd =>
      refine ⟨n, fun j hj => ?_⟩
      have hj' := hn j hj
      rw [← (dropHook_same s).2.1] at hj'
      split <;> exact hj'
    | @spawnThread k j hj hk => exact hset j _ rfl
    | clone hc => exact ⟨n, hn⟩
    | _ => exact absurd rfl he

end Settles

/-! ### Until it is at rest, something is left to do -/

section Progress

variable {f : Flavor} {s : State}

theorem settle_of_isSome {e : Label} (he : e.settles = true) (h : (s.step f e).isSome = true) :
    ∃ e t, e.settles = true ∧ s.step f e = some t := by
  obtain ⟨t, ht⟩ := Option.isSome_iff_exists.mp h
  exact ⟨e, t, he, ht⟩

/-- The call of `build` in progress waits for nobody. -/
theorem build_progress (hm : Made f s) {k : ℕ} (hk : s.building = some k) :
    ∃ e t, e.settles = true ∧ s.step f e = some t := by
  have hin := (hm.building k).mpr hk
  cases hl : (s.build k).stage with
  | locked =>
    have ha := hm.afterStart k hl
    refine settle_of_isSome (e := .tokioBuild) rfl ?_
    simp [State.step, hk, State.buildStep, hl, ha]
  | tokio =>
    refine settle_of_isSome (e := .writeSlot) rfl ?_
    simp [State.step, hk, State.buildStep, hl]
  | written =>
    refine settle_of_isSome (e := .unlock) rfl ?_
    simp [State.step, hk, State.buildStep, hl]
  | unlocked =>
    refine settle_of_isSome (e := .finish) rfl ?_
    simp [State.step, hk, State.buildStep, hl]
  | absent | live | ending ds | gone | failed =>
    rw [hl] at hin
    cases hin

/-- Between builds every thread can go on. -/
theorem thread_progress (hm : Made f s) (hw : Workers s) (hn : s.building = none) {j : ℕ}
    (hj : (s.worker j).pc.attached = true) : ∃ e t, e.settles = true ∧ s.step f e = some t := by
  have ht := hw.attached j hj
  have hh := hm.hook _ ht
  have hfree : (s.build (s.build (s.worker j).rt).hook).stage.writeLocked = false := by
    rw [hh]
    have hin : (s.build (s.worker j).rt).stage.inBuild ≠ true := fun he => by
      rw [hm.building, hn] at he
      cases he
    revert hin
    cases (s.build (s.worker j).rt).stage <;> simp [Stage.inBuild, Stage.writeLocked]
  cases hpc : (s.worker j).pc with
  | started =>
    refine settle_of_isSome (e := .upgrade j) rfl ?_
    simp only [State.step, State.workerStep, hpc, if_true]
    split
    · rfl
    · split <;> rfl
  | upgraded =>
    refine settle_of_isSome (e := .read j) rfl ?_
    simp only [State.step, State.workerStep, hpc, hfree, and_self, if_true]
    split <;> rfl
  | reading sp =>
    refine settle_of_isSome (e := .setGuards j) rfl ?_
    simp only [State.step, State.workerStep, hpc]
    split <;> rfl
  | running =>
    refine settle_of_isSome (e := .threadStop j) rfl ?_
    simp only [State.step, State.workerStep, hpc, if_true, Option.isSome_some]
  | stopping =>
    refine settle_of_isSome (e := .threadExit j) rfl ?_
    simp only [State.step, State.workerStep, hpc, if_true, Option.isSome_some]
  | absent | exited | panicked p =>
    rw [hpc] at hj
    cases hj

/-- Either builder has a settling step until it is at rest. -/
theorem settle_progress (hs : Sound f s) :
    Quiet s ∨ ∃ e t, e.settles = true ∧ s.step f e = some t := by
  cases hb : s.building with
  | some k => exact Or.inr (build_progress hs.toMade hb)
  | none =>
    by_cases ht : ∃ j, (s.worker j).pc.attached = true
    · obtain ⟨j, hj⟩ := ht
      exact Or.inr (thread_progress hs.toMade hs.toWorkers hb hj)
    have hdet : ∀ j, (s.worker j).pc.attached = false := by simpa using ht
    by_cases hu : ∃ n o, (Place.user n, o) ∈ s.refs
    · obtain ⟨n, o, hm⟩ := hu
      obtain ⟨k, rfl⟩ := hs.user n o hm
      exact Or.inr ⟨.release n k, _, rfl, if_pos hm⟩
    by_cases hd : s.builder = true
    · exact Or.inr ⟨.dropBuilder, _, rfl, if_pos ⟨hd, hb⟩⟩
    by_cases hk : ∃ k, (s.build k).stage = .live
    · obtain ⟨k, hk⟩ := hk
      refine Or.inr (settle_of_isSome (e := .endRuntime k .plain) rfl ?_)
      simp [State.step, hk, Flavor.drops]
    by_cases hk' : ∃ k ds, (s.build k).stage = .ending ds
    · obtain ⟨k, ds, hk'⟩ := hk'
      obtain ⟨hne, -⟩ := hs.ending k ds hk'
      obtain ⟨d, ds, rfl⟩ := List.exists_cons_of_ne_nil hne
      have hgone : s.ThreadsGone k := by
        rintro ⟨p, o⟩ hr -
        cases p with
        | pool j =>
          have hp := (hs.pool j o).mp hr
          simp [Worker.pool, hdet j] at hp
        | _ => rfl
      refine Or.inr (settle_of_isSome (e := .dropNext k) rfl ?_)
      simp [State.step, hk', hgone]
    · refine Or.inl ⟨by simpa using hd, fun k => ?_, fun n o hm => hu ⟨n, o, hm⟩⟩
      have hin : (s.build k).stage.inBuild ≠ true := fun he => by
        rw [hs.building, hb] at he
        cases he
      cases hst : (s.build k).stage with
      | absent => exact Or.inl rfl
      | failed => exact Or.inr (Or.inl rfl)
      | gone => exact Or.inr (Or.inr rfl)
      | live => exact absurd ⟨k, hst⟩ hk
      | ending ds => exact absurd ⟨k, ds, hst⟩ hk'
      | locked | tokio | written | unlocked =>
        rw [hst] at hin
        exact absurd rfl hin

end Progress

end TokioCompat.Startup
