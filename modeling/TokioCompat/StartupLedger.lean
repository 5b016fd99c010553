import TokioCompat.StartupCurrent
import TokioCompat.StartupThreads

/-!
# What the current-thread builder holds, reference by reference

The places of a run, and the objects they share, hold exactly what the builds
and the threads account for. A hook owns its slot from the start, so the hook
of a build that failed is released with the next build or with the `Builder`;
from the moment a slot is filled its hook, slot and handle stay for good.
-/

namespace TokioCompat.Startup

open Context Ownership Transition

/-- tokio's `build` has succeeded, so the handle shares the hook. -/
def Stage.made : Stage → Bool
  | .tokio | .written | .unlocked | .live | .ending _ | .gone => true
  | .absent | .locked | .failed => false

/-- A place of the program outside the library. -/
def Place.isUser : Place → Bool
  | .user _ => true
  | _ => false

/-- What each place and each object of a current-thread builder holds. -/
def State.keeps (s : State) : Place → Option Place
  | .builder => s.afterStart.map .closure
  | .compatSender k => if (s.build k).stage.inBuild then some (.sender k) else none
  | .runtime k => if (s.build k).stage.hasTokio then some (.handle k) else none
  | .pool j => (s.worker j).pool
  | .guards j => (s.worker j).guarded
  | .closure k =>
    if (s.build k).stage.made ∨ s.afterStart = some k then some (.sender k) else none
  | .sender k => if (s.build k).stage.filled then some (.handle k) else none
  | .handle k => if (s.build k).stage.made then some (.closure k) else none
  | .spawner _ | .upgraded _ | .user _ => none

/-- The references are the expected ones and clones of handles that exist. -/
structure Keeps (s : State) (refs : Finset (Place × Place)) : Prop where
  held : ∀ p o, p.isUser = false → ((p, o) ∈ refs ↔ s.keeps p = some o)
  user : ∀ n o, (.user n, o) ∈ refs → ∃ k, o = .handle k ∧ (s.build k).stage.made = true

theorem made_of_filled {st : Stage} (h : st.filled = true) : st.made = true := by
  cases st <;> first | rfl | cases h

theorem made_of_hasTokio {st : Stage} (h : st.hasTokio = true) : st.made = true := by
  cases st <;> first | rfl | cases h

/-- A handle that was made is held by its runtime until its slot holds it too. -/
theorem tokio_of_made {st : Stage} (h : st.made = true) (hf : st.filled = false) :
    st.hasTokio = true := by
  cases st with
  | tokio => rfl
  | absent | locked | failed => cases h
  | written | unlocked | live | ending ds | gone => cases hf

section Keeps

variable {s t : State} {refs : Finset (Place × Place)}

/-- Every object that holds something is itself held. -/
theorem keeps_supported (h : Keeps s refs) : Supported Place.root refs := by
  rintro ⟨p, o⟩ hm
  cases p with
  | closure k =>
    right
    have hk := (h.held (.closure k) o rfl).mp hm
    obtain ⟨hmade | ha, -⟩ := Option.ite_none_right_eq_some.mp hk
    · exact alive_of_mem ((h.held (.handle k) (.closure k) rfl).mpr (if_pos hmade))
    · exact alive_of_mem ((h.held .builder (.closure k) rfl).mpr (by simp [State.keeps, ha]))
  | sender k =>
    right
    have hk := (h.held (.sender k) o rfl).mp hm
    obtain ⟨hf, -⟩ := Option.ite_none_right_eq_some.mp hk
    have hmade := made_of_filled hf
    exact alive_of_mem ((h.held (.closure k) (.sender k) rfl).mpr (if_pos (Or.inl hmade)))
  | handle k =>
    right
    have hk := (h.held (.handle k) o rfl).mp hm
    obtain ⟨hmade, -⟩ := Option.ite_none_right_eq_some.mp hk
    cases hf : (s.build k).stage.filled with
    | true => exact alive_of_mem ((h.held (.sender k) (.handle k) rfl).mpr (if_pos hf))
    | false =>
      have ht := tokio_of_made hmade hf
      exact alive_of_mem ((h.held (.runtime k) (.handle k) rfl).mpr (if_pos ht))
  | builder | compatSender k | runtime k | spawner k | user n | pool j | upgraded j | guards j =>
    exact Or.inl rfl

/-- A handle the program or a place can reach was made. -/
theorem keeps_handle (h : Keeps s refs) (hw : Workers s) {p : Place} {k : ℕ}
    (hm : (p, .handle k) ∈ refs) : (s.build k).stage.made = true := by
  by_cases hu : p.isUser = true
  · cases p with
    | user n =>
      obtain ⟨i, hi, hmade⟩ := h.user n _ hm
      cases hi
      exact hmade
    | _ => cases hu
  rw [Bool.not_eq_true] at hu
  have hk := (h.held p _ hu).mp hm
  cases p with
  | runtime i =>
    obtain ⟨ht, hi⟩ := Option.ite_none_right_eq_some.mp hk
    cases hi
    exact made_of_hasTokio ht
  | pool j =>
    obtain ⟨ha, hi⟩ := Option.ite_none_right_eq_some.mp hk
    cases hi
    exact made_of_hasTokio (hw.attached j ha)
  | guards j =>
    obtain ⟨sp, hsp, hi⟩ := Option.map_eq_some_iff.mp hk
    cases hi
    have hok := hw.worker j
    have hat := hw.attached j
    revert hsp hok hat
    unfold Worker.cloned Worker.Ok
    cases (s.worker j).pc with
    | reading sp' =>
      rintro ⟨⟩ ⟨rfl, -⟩ hat
      exact made_of_hasTokio (hat rfl)
    | running =>
      rintro hsp ⟨-, hg⟩ hat
      rw [hg] at hsp
      cases hsp
      exact made_of_hasTokio (hat rfl)
    | absent | started | upgraded | stopping | exited | panicked p => nofun
  | sender i =>
    obtain ⟨hf, hi⟩ := Option.ite_none_right_eq_some.mp hk
    cases hi
    exact made_of_filled hf
  | builder | compatSender i | spawner i | upgraded j | closure i | handle i | user n =>
    simp [State.keeps] at hk

/-- Nothing that is held changes. -/
theorem keeps_same (h : Keeps s refs) (hk : ∀ p, p.isUser = false → t.keeps p = s.keeps p)
    (hm : ∀ k, (s.build k).stage.made = true → (t.build k).stage.made = true) : Keeps t refs := by
  constructor
  · intro p o hp
    rw [h.held p o hp, hk p hp]
  · intro n o ho
    obtain ⟨k, rfl, hmade⟩ := h.user n o ho
    exact ⟨k, rfl, hm k hmade⟩

/-- References are added to places and objects that held nothing. -/
theorem keeps_union (h : Keeps s refs) (added : Finset (Place × Place))
    {refs' : Finset (Place × Place)} (hr : ∀ r, r ∈ refs' ↔ r ∈ added ∨ r ∈ refs)
    (hu : ∀ r ∈ added, r.1.isUser = false)
    (hk : ∀ q o, q.isUser = false →
      (t.keeps q = some o ↔ (q, o) ∈ added ∨ s.keeps q = some o))
    (hm : ∀ k, (s.build k).stage.made = true → (t.build k).stage.made = true) :
    Keeps t refs' := by
  constructor
  · intro q x hq
    rw [hr, h.held q x hq, hk q x hq]
  · intro n x hx
    rcases (hr _).mp hx with hx | hx
    · have hn := hu _ hx
      cases hn
    · obtain ⟨k, rfl, hmade⟩ := h.user n x hx
      exact ⟨k, rfl, hm k hmade⟩

/-- A place or an object that held nothing gets a reference. -/
theorem keeps_add (h : Keeps s refs) {p o : Place} (hp : p.isUser = false)
    (hn : s.keeps p = none) (ho : t.keeps p = some o)
    (hk : ∀ q, q.isUser = false → q ≠ p → t.keeps q = s.keeps q)
    (hm : ∀ k, (s.build k).stage.made = true → (t.build k).stage.made = true) :
    Keeps t (insert (p, o) refs) := by
  refine keeps_union h {(p, o)} (by simp) (by simpa using hp) (fun q x hq => ?_) hm
  by_cases hqp : q = p
  · subst hqp
    rw [hn, ho]
    simp [eq_comm]
  · rw [hk q hq hqp]
    simp [hqp]

/-- A place drops what it held; nothing else goes with it. -/
theorem keeps_drop (h : Keeps s refs) {p o : Place} (hp : p.isUser = false)
    (ho : s.keeps p = some o) (hn : t.keeps p = none)
    (hk : ∀ q, q.isUser = false → q ≠ p → t.keeps q = s.keeps q)
    (hm : ∀ k, (s.build k).stage.made = true → (t.build k).stage.made = true) :
    Keeps t (Ownership.drop Place.root refs (p, o)) := by
  have he : Keeps t (refs.erase (p, o)) := by
    constructor
    · intro q x hq
      rw [Finset.mem_erase, h.held q x hq]
      by_cases hqp : q = p
      · subst hqp
        rw [ho, hn]
        simp [eq_comm]
      · rw [hk q hq hqp]
        simp [hqp]
    · intro n x hx
      obtain ⟨k, rfl, hmade⟩ := h.user n x (Finset.mem_of_mem_erase hx)
      exact ⟨k, rfl, hm k hmade⟩
  rw [drop_eq_erase (keeps_supported he)]
  exact he

/-- The program gets a clone of a handle. -/
theorem keeps_clone (h : Keeps s refs) {n k : ℕ} (hk : (s.build k).stage.made = true) :
    Keeps s (insert (.user n, .handle k) refs) := by
  constructor
  · intro p o hp
    have hne : p ≠ .user n := by
      rintro rfl
      cases hp
    simp [hne, h.held p o hp]
  · intro m o hm
    rcases Finset.mem_insert.mp hm with he | hm
    · exact ⟨k, (Prod.mk.inj he).2, hk⟩
    · exact h.user m o hm

/-- The program drops a clone of a handle. -/
theorem keeps_release (h : Keeps s refs) (n k : ℕ) :
    Keeps s (Ownership.drop Place.root refs (.user n, .handle k)) := by
  have he : Keeps s (refs.erase (.user n, .handle k)) := by
    constructor
    · intro p o hp
      have hne : p ≠ .user n := by
        rintro rfl
        cases hp
      simp [hne, h.held p o hp]
    · intro m o hm
      exact h.user m o (Finset.mem_of_mem_erase hm)
  rw [drop_eq_erase (keeps_supported he)]
  exact he

/-- The `Builder` lets go of the hook of a build that came to nothing: the slot,
which only the hook still held, goes with it. -/
theorem keeps_dropFailed (h : Keeps s refs) {c : ℕ} (ha : s.afterStart = some c)
    (hc : (s.build c).stage.made = false) :
    Keeps { s with afterStart := none }
      (Ownership.drop Place.root refs (.builder, .closure c)) := by
  have he : Keeps { s with afterStart := none }
      ((refs.erase (.builder, .closure c)).erase (.closure c, .sender c)) := by
    constructor
    · intro p o hp
      rw [Finset.mem_erase, Finset.mem_erase, h.held p o hp]
      cases p with
      | builder => simp [State.keeps, ha, eq_comm]
      | closure k =>
        by_cases hk : k = c
        · subst hk
          simp [State.keeps, ha, hc, eq_comm]
        · have hca : s.afterStart ≠ some k := fun he => hk (Option.some.inj (he.symm.trans ha))
          simp [State.keeps, hca, hk]
      | _ => simp [State.keeps]
    · intro n o hm
      exact h.user n o (Finset.mem_of_mem_erase (Finset.mem_of_mem_erase hm))
  rw [drop_eq (keeps_supported he) (Finset.erase_subset _ _) fun u hu hs q hq => ?_]
  · exact he
  · refine Finset.mem_erase.mpr ⟨?_, hu hq⟩
    rintro rfl
    -- the hook would have to be held by the `Builder` or by its handle
    obtain hroot | ⟨⟨p, o⟩, hpo, ho⟩ := hs _ hq
    · cases hroot
    · cases ho
      obtain ⟨hne, hmem⟩ := Finset.mem_erase.mp (hu hpo)
      cases p with
      | user n =>
        obtain ⟨k, hk, -⟩ := h.user n _ hmem
        cases hk
      | builder => exact hne rfl
      | handle k =>
        obtain ⟨hmade, hk⟩ := Option.ite_none_right_eq_some.mp ((h.held _ _ rfl).mp hmem)
        cases hk
        rw [hc] at hmade
        cases hmade
      | compatSender k | runtime k | spawner k | pool j | upgraded j | guards j | closure k
      | sender k =>
        have hk := (h.held _ _ rfl).mp hmem
        simp [State.keeps, Worker.pool, Worker.guarded] at hk

/-- Between builds the `Builder` may let go of its hook. -/
theorem keeps_dropHook (h : Keeps s s.refs) : Keeps s.dropHook s.dropHook.refs := by
  unfold State.dropHook
  cases ha : s.afterStart with
  | none => exact h
  | some c =>
    cases hc : (s.build c).stage.made with
    | false => exact keeps_same (keeps_dropFailed h ha hc) (fun _ _ => rfl) fun _ hk => hk
    | true =>
      refine keeps_drop h rfl (by simp [State.keeps, ha]) rfl (fun q hq hne => ?_) fun _ hk => hk
      cases q with
      | closure k =>
        by_cases hk : k = c
        · simp [State.keeps, hk, hc]
        · have hca : s.afterStart ≠ some k := fun he => hk (Option.some.inj (he.symm.trans ha))
          simp [State.keeps, hca]
      | builder => exact absurd rfl hne
      | _ => rfl

end Keeps

/-! ### What is held after a change -/

theorem keeps_setWorker {s : State} {j : ℕ} {t : Worker} {q : Place}
    (h1 : q = .pool j → t.pool = (s.worker j).pool)
    (h2 : q = .guards j → t.guarded = (s.worker j).guarded) :
    (s.setWorker j t).keeps q = s.keeps q := by
  cases q with
  | pool i =>
    by_cases hij : i = j
    · subst hij
      simp [State.keeps, State.setWorker, h1 rfl]
    · simp [State.keeps, State.setWorker, hij]
  | guards i =>
    by_cases hij : i = j
    · subst hij
      simp [State.keeps, State.setWorker, h2 rfl]
    · simp [State.keeps, State.setWorker, hij]
  | builder | compatSender k | runtime k | spawner k | user n | upgraded i | closure k | sender k
  | handle k => rfl

/-- A build changes its stage; the places not named keep what they hold. -/
theorem keeps_stage {s t : State} {k : ℕ} {b : Build} {q : Place}
    (hb : t.build = Function.update s.build k b) (hw : t.worker = s.worker)
    (ha : t.afterStart = s.afterStart)
    (h1 : q ≠ .compatSender k ∨ b.stage.inBuild = (s.build k).stage.inBuild)
    (h2 : q ≠ .runtime k ∨ b.stage.hasTokio = (s.build k).stage.hasTokio)
    (h3 : q ≠ .sender k ∨ b.stage.filled = (s.build k).stage.filled)
    (h4 : b.stage.made = (s.build k).stage.made) : t.keeps q = s.keeps q := by
  have hst : ∀ i, (t.build i).stage = if i = k then b.stage else (s.build i).stage := fun i => by
    rw [hb]
    by_cases hi : i = k
    · simp [hi]
    · simp [hi]
  cases q with
  | builder => simp [State.keeps, ha]
  | compatSender i =>
    by_cases hi : i = k
    · subst hi
      simp [State.keeps, hst, h1.resolve_left fun h => h rfl]
    · simp [State.keeps, hst, hi]
  | runtime i =>
    by_cases hi : i = k
    · subst hi
      simp [State.keeps, hst, h2.resolve_left fun h => h rfl]
    · simp [State.keeps, hst, hi]
  | sender i =>
    by_cases hi : i = k
    · subst hi
      simp [State.keeps, hst, h3.resolve_left fun h => h rfl]
    · simp [State.keeps, hst, hi]
  | closure i | handle i =>
    by_cases hi : i = k
    · subst hi
      simp [State.keeps, hst, h4, ha]
    · simp [State.keeps, hst, hi, ha]
  | pool j | guards j => simp [State.keeps, hw]
  | spawner i | upgraded j | user n => rfl

/-- Nothing un-makes a handle. -/
theorem made_stage {s t : State} {k : ℕ} {b : Build}
    (hb : t.build = Function.update s.build k b)
    (h : (s.build k).stage.made = true → b.stage.made = true) (i : ℕ)
    (hi : (s.build i).stage.made = true) : (t.build i).stage.made = true := by
  rw [hb]
  by_cases hik : i = k
  · rw [hik] at hi ⊢
    rw [Function.update_self]
    exact h hi
  · rw [Function.update_of_ne hik]
    exact hi

/-! ### One step -/

/-- What holds of every state of the current-thread builder. -/
structure Exact (s : State) : Prop extends Made .currentThread s, Workers s where
  keeps : Keeps s s.refs

section Steps

variable {s t : State}

/-- A hook that gets the read lock finds the slot filled for its own runtime. -/
theorem hook_slot {f : Flavor} (h : Made f s) (hw : Workers s) {j : ℕ}
    (hj : (s.worker j).pc.attached = true)
    (hl : (s.build (s.build (s.worker j).rt).hook).stage.writeLocked = false) :
    (s.build (s.build (s.worker j).rt).hook).slot = some ⟨(s.worker j).rt, (s.worker j).rt⟩ := by
  have ht := hw.attached j hj
  rw [h.hook _ ht] at hl ⊢
  apply h.slot
  cases hst : (s.build (s.worker j).rt).stage with
  | written | unlocked | live | ending ds => rfl
  | locked | tokio =>
    rw [hst] at hl
    cases hl
  | absent | gone | failed =>
    rw [hst] at ht
    cases ht

/-- The current-thread runtime ends in one way only. -/
theorem drops_currentThread {e : Ending} {ds : List Drop}
    (h : Flavor.currentThread.drops e = some ds) : ds = [.runtime, .compatBg] := by
  cases e <;> cases h
  rfl

/-- An ending current-thread runtime drops its tokio runtime, then its reactor thread. -/
theorem ending_cases (h : Exact s) {k : ℕ} {d : Drop} {ds : List Drop}
    (hl : (s.build k).stage = .ending (d :: ds)) :
    (d = .runtime ∧ ds = [.compatBg]) ∨ (d = .compatBg ∧ ds = []) := by
  obtain ⟨-, e, all, he, hsuf⟩ := h.ending k _ hl
  rw [drops_currentThread he] at hsuf
  rcases List.suffix_cons_iff.mp hsuf with he | hsuf
  · cases he
    exact Or.inl ⟨rfl, rfl⟩
  · rcases List.suffix_cons_iff.mp hsuf with he | hsuf
    · cases he
      exact Or.inr ⟨rfl, rfl⟩
    · cases List.suffix_nil.mp hsuf

theorem keeps_beginBuild (h : Exact s) (hn : s.building = none)
    (ht : t.build = Function.update s.dropHook.build s.builds
      { s.dropHook.build s.builds with stage := .locked })
    (hw : t.worker = s.worker) (ha : t.afterStart = some s.builds) :
    Keeps t (insert (.closure s.builds, .sender s.builds) (insert (.builder, .closure s.builds)
      (insert (.compatSender s.builds, .sender s.builds) s.dropHook.refs))) := by
  obtain ⟨hb, hw', -, -⟩ := dropHook_same s
  obtain ⟨-, had, -⟩ := made_dropHook h.toMade hn
  have habs : (s.dropHook.build s.builds).stage = .absent := by
    rw [hb]
    exact h.fresh _ le_rfl
  have hst : ∀ i, (t.build i).stage =
      if i = s.builds then .locked else (s.dropHook.build i).stage := fun i => by
    rw [ht]
    by_cases hi : i = s.builds
    · simp [hi]
    · simp [hi]
  refine keeps_union (keeps_dropHook h.keeps) {(.closure s.builds, .sender s.builds),
    (.builder, .closure s.builds), (.compatSender s.builds, .sender s.builds)} (fun r => ?_)
    (by simp [Place.isUser]) (fun q o hq => ?_)
    (made_stage ht fun he => by simp [habs, Stage.made] at he)
  · simp only [Finset.mem_insert, Finset.mem_singleton]
    tauto
  · cases q with
    | builder => simp [State.keeps, had, ha, eq_comm]
    | compatSender i | closure i =>
      by_cases hi : i = s.builds
      · simp [State.keeps, hst, hi, habs, ha, had, Stage.inBuild, Stage.made, eq_comm]
      · simp [State.keeps, hst, hi, ha, had, Ne.symm hi]
    | runtime i | sender i | handle i =>
      by_cases hi : i = s.builds
      · simp [State.keeps, hst, hi, habs, Stage.hasTokio, Stage.filled, Stage.made]
      · simp [State.keeps, hst, hi]
    | pool j | guards j => simp [State.keeps, hw, hw']
    | spawner i | upgraded j | user n => simp [State.keeps]

theorem keeps_tokioBuild (h : Exact s) {k : ℕ} {b : Build} (ha : s.afterStart = some k)
    (hl : (s.build k).stage = .locked) (hb : t.build = Function.update s.build k b)
    (hbt : b.stage = .tokio) (hw : t.worker = s.worker) (hat : t.afterStart = s.afterStart) :
    Keeps t (insert (.handle k, .closure k) (insert (.runtime k, .handle k) s.refs)) := by
  have hst : ∀ i, (t.build i).stage = if i = k then .tokio else (s.build i).stage := fun i => by
    rw [hb]
    by_cases hi : i = k
    · simp [hi, hbt]
    · simp [hi]
  refine keeps_union h.keeps {(.handle k, .closure k), (.runtime k, .handle k)} (fun r => ?_)
    (by simp [Place.isUser]) (fun q o hq => ?_)
    (made_stage hb fun he => by simp [hl, Stage.made] at he)
  · simp only [Finset.mem_insert, Finset.mem_singleton]
    tauto
  · cases q with
    | builder => simp [State.keeps, hat]
    | compatSender i | closure i | sender i =>
      by_cases hi : i = k
      · simp [State.keeps, hst, hi, hl, ha, hat, Stage.inBuild, Stage.filled]
      · simp [State.keeps, hst, hi, hat]
    | runtime i | handle i =>
      by_cases hi : i = k
      · simp [State.keeps, hst, hi, hl, Stage.hasTokio, Stage.made, eq_comm]
      · simp [State.keeps, hst, hi]
    | pool j | guards j => simp [State.keeps, hw]
    | spawner i | upgraded j | user n => simp [State.keeps]

/-- Neither a thread nor a build changes. -/
theorem workers_same (h : Workers s) (hw : t.worker = s.worker) (hb : t.build = s.build) :
    Workers t := by
  constructor
  · rw [hw, hb]
    exact h.attached
  · rw [hw]
    exact h.worker

/-- A thread gains or loses its handle, or passes a point of its hook. -/
theorem exact_worker (h : Exact s) (hm : Made .currentThread t) {j : ℕ} {w : Worker}
    (hw : t.worker = Function.update s.worker j w) (hb : t.build = s.build)
    (ha : w.pc.attached = true → (s.build w.rt).stage.hasTokio = true) (ho : w.Ok)
    (hk : Keeps t t.refs) : Exact t :=
  ⟨hm, workers_set h.toWorkers hw hb ha ho, hk⟩

theorem exact_spawnThread (h : Exact s) {k j : ℕ} (hm : Made .currentThread
      ((s.add (.pool j) (.handle k)).setWorker j ⟨k, .started, Slots.fresh, none⟩))
    (hj : (s.worker j).pc = .absent) (hs : (s.build k).stage.hasTokio = true) :
    Exact ((s.add (.pool j) (.handle k)).setWorker j ⟨k, .started, Slots.fresh, none⟩) := by
  refine exact_worker h hm rfl rfl (fun _ => hs) ⟨rfl, rfl⟩ ?_
  refine keeps_add h.keeps rfl ?_ ?_ (fun q hq hne => ?_) fun _ hk => hk
  · simp [State.keeps, Worker.pool, hj, Pc.attached]
  · simp [State.keeps, State.setWorker, Worker.pool, Pc.attached]
  · refine keeps_setWorker (s := s.add (.pool j) (.handle k)) (fun he => absurd he hne) fun _ => ?_
    simp [State.add, Worker.guarded, Worker.cloned, hj]

theorem exact_upgrade (h : Exact s) {j : ℕ}
    (hm : Made .currentThread (s.setWorker j { s.worker j with pc := .upgraded }))
    (hj : (s.worker j).pc = .started) :
    Exact (s.setWorker j { s.worker j with pc := .upgraded }) := by
  have hok := h.worker j
  have hat := h.attached j (by rw [hj]; rfl)
  refine exact_worker h hm rfl rfl (fun _ => hat) ?_ ?_
  · simpa [Worker.Ok, hj] using hok
  · refine keeps_same h.keeps (fun q hq => keeps_setWorker (fun _ => ?_) fun _ => ?_) fun _ hk => hk
    · simp [Worker.pool, hj, Pc.attached]
    · simp [Worker.guarded, Worker.cloned, hj]

theorem exact_read (h : Exact s) {j : ℕ} {sp : CompatSpawner}
    (hm : Made .currentThread ((s.add (.guards j) (.handle sp.inner)).setWorker j
      { s.worker j with pc := .reading sp }))
    (hj : (s.worker j).pc = .upgraded)
    (hl : (s.build (s.build (s.worker j).rt).hook).stage.writeLocked = false)
    (hs : (s.build (s.build (s.worker j).rt).hook).slot = some sp) :
    Exact ((s.add (.guards j) (.handle sp.inner)).setWorker j
      { s.worker j with pc := .reading sp }) := by
  have hatt : (s.worker j).pc.attached = true := by rw [hj]; rfl
  have hsp := hook_slot h.toMade h.toWorkers hatt hl
  rw [hs] at hsp
  have hok := h.worker j
  simp only [Worker.Ok, hj] at hok
  refine exact_worker h hm rfl rfl (fun _ => h.attached j hatt) ⟨Option.some.inj hsp, hok⟩ ?_
  refine keeps_add h.keeps rfl ?_ ?_ (fun q hq hne => ?_) fun _ hk => hk
  · simp [State.keeps, Worker.guarded, Worker.cloned, hj]
  · simp [State.keeps, State.setWorker, Worker.guarded, Worker.cloned]
  · refine keeps_setWorker (s := s.add (.guards j) (.handle sp.inner)) (fun _ => ?_)
      fun he => absurd he hne
    simp [State.add, Worker.pool, hj, Pc.attached]

theorem exact_setGuards (h : Exact s) {j : ℕ} {sp : CompatSpawner} {slots : Slots}
    (hm : Made .currentThread (s.setWorker j
      { s.worker j with pc := .running, slots := slots, guards := some sp }))
    (hj : (s.worker j).pc = .reading sp)
    (hg : Startup.setGuards sp (s.build (s.worker j).rt).hook (s.worker j).guards
      (s.worker j).slots = .ok slots) :
    Exact (s.setWorker j { s.worker j with pc := .running, slots := slots, guards := some sp }) := by
  have hat := h.attached j (by rw [hj]; rfl)
  have hok := h.worker j
  simp only [Worker.Ok, hj] at hok
  obtain ⟨hsp, hfresh, hnone⟩ := hok
  rw [h.hook _ hat, hfresh, hnone, hsp, setGuards_fresh] at hg
  cases hg
  refine exact_worker h hm rfl rfl (fun _ => hat) ⟨rfl, by rw [hsp]⟩ ?_
  refine keeps_same h.keeps (fun q hq => keeps_setWorker (fun _ => ?_) fun _ => ?_) fun _ hk => hk
  · simp [Worker.pool, hj, Pc.attached]
  · simp [Worker.guarded, Worker.cloned, hj]

theorem exact_threadStop (h : Exact s) {j : ℕ} (hj : (s.worker j).pc = .running)
    (hm : Made .currentThread ((match (s.worker j).guards with
      | some sp => s.drop (.guards j) (.handle sp.inner)
      | none => s).setWorker j { s.worker j with
        pc := .stopping, slots := unsetGuards (s.worker j).guards (s.worker j).slots,
        guards := none })) :
    Exact ((match (s.worker j).guards with
      | some sp => s.drop (.guards j) (.handle sp.inner)
      | none => s).setWorker j { s.worker j with
        pc := .stopping, slots := unsetGuards (s.worker j).guards (s.worker j).slots,
        guards := none }) := by
  have hat := h.attached j (by rw [hj]; rfl)
  have hok := h.worker j
  simp only [Worker.Ok, hj] at hok
  rw [hok.2] at hm ⊢
  refine exact_worker h hm rfl rfl (fun _ => hat) trivial ?_
  refine keeps_drop h.keeps rfl ?_ ?_ (fun q hq hne => ?_) fun _ hk => hk
  · simp [State.keeps, Worker.guarded, Worker.cloned, hj, hok.2]
  · simp [State.keeps, State.setWorker, Worker.guarded, Worker.cloned]
  · refine keeps_setWorker (s := s.drop (.guards j) (.handle (s.worker j).rt)) (fun _ => ?_)
      fun he => absurd he hne
    simp [State.drop, Worker.pool, hj, Pc.attached]

theorem exact_threadExit (h : Exact s) {j : ℕ} (hj : (s.worker j).pc = .stopping)
    (hm : Made .currentThread ((s.drop (.pool j) (.handle (s.worker j).rt)).setWorker j
      { s.worker j with pc := .exited })) :
    Exact ((s.drop (.pool j) (.handle (s.worker j).rt)).setWorker j
      { s.worker j with pc := .exited }) := by
  refine exact_worker h hm rfl rfl nofun trivial ?_
  refine keeps_drop h.keeps rfl ?_ ?_ (fun q hq hne => ?_) fun _ hk => hk
  · simp [State.keeps, Worker.pool, hj, Pc.attached]
  · simp [State.keeps, State.setWorker, Worker.pool, Pc.attached]
  · refine keeps_setWorker (s := s.drop (.pool j) (.handle (s.worker j).rt))
      (fun he => absurd he hne) fun _ => ?_
    simp [State.drop, Worker.guarded, Worker.cloned, hj]

/-- Nothing that a thread of the runtime holds is left once its threads are gone. -/
theorem exact_detached (h : Exact s) {k j : ℕ} (hg : s.ThreadsGone k)
    (hr : (s.worker j).rt = k) : (s.worker j).pc.attached = false := by
  by_contra ha
  rw [Bool.not_eq_false] at ha
  have hm : (Place.pool j, Place.handle k) ∈ s.refs :=
    (h.keeps.held _ _ rfl).mpr (by simp [State.keeps, Worker.pool, ha, hr])
  exact absurd (hg _ hm rfl) (by simp [Place.isPool])

/-- A build or a runtime moves on without a reference changing hands. -/
theorem exact_pass (h : Exact s) (hm : Made .currentThread t) {k : ℕ} {b : Build}
    (hb : t.build = Function.update s.build k b) (hw : t.worker = s.worker)
    (ha : t.afterStart = s.afterStart) (hr : t.refs = s.refs)
    (h1 : b.stage.inBuild = (s.build k).stage.inBuild)
    (h2 : b.stage.hasTokio = (s.build k).stage.hasTokio)
    (h3 : b.stage.filled = (s.build k).stage.filled)
    (h4 : b.stage.made = (s.build k).stage.made) : Exact t := by
  refine ⟨hm, workers_build h.toWorkers hw hb fun j hj he => ?_, ?_⟩
  · rw [h2, ← he]
    exact h.attached j hj
  · rw [hr]
    exact keeps_same h.keeps (fun q _ => keeps_stage hb hw ha (Or.inr h1) (Or.inr h2) (Or.inr h3) h4)
      (made_stage hb fun he => h4.trans he)

/-- A build or a runtime drops the reference of one of its places. -/
theorem exact_drop (h : Exact s) (hm : Made .currentThread t) {k : ℕ} {b : Build} {p o : Place}
    (hb : t.build = Function.update s.build k b) (hw : t.worker = s.worker)
    (ha : t.afterStart = s.afterStart)
    (hr : t.refs = Ownership.drop Place.root s.refs (p, o)) (hp : p.isUser = false)
    (ho : s.keeps p = some o) (hn : t.keeps p = none)
    (h1 : p = .compatSender k ∨ b.stage.inBuild = (s.build k).stage.inBuild)
    (h2 : p = .runtime k ∨ b.stage.hasTokio = (s.build k).stage.hasTokio)
    (h3 : b.stage.filled = (s.build k).stage.filled)
    (h4 : b.stage.made = (s.build k).stage.made)
    (hwt : ∀ j, (s.worker j).pc.attached = true → (s.worker j).rt = k → b.stage.hasTokio = true) :
    Exact t := by
  refine ⟨hm, workers_build h.toWorkers hw hb hwt, ?_⟩
  rw [hr]
  refine keeps_drop h.keeps hp ho hn (fun q hq hne => ?_) (made_stage hb fun he => h4.trans he)
  refine keeps_stage hb hw ha ?_ ?_ (Or.inr h3) h4
  · exact h1.imp_left fun he hqp => hne (hqp.trans he.symm)
  · exact h2.imp_left fun he hqp => hne (hqp.trans he.symm)

/-- Every step of the current-thread builder keeps its accounts. -/
theorem step_exact (h : Exact s) {e : Label} (hs : s.step .currentThread e = some t) :
    Exact t := by
  have hm := step_made h.toMade hs
  cases step_cases hs with
  | beginBuild hb hn =>
    obtain ⟨hb', hw', -, -⟩ := dropHook_same s
    have habs : (s.dropHook.build s.builds).stage.hasTokio = false := by
      rw [hb', h.fresh _ le_rfl]
      rfl
    refine ⟨hm, ?_, keeps_beginBuild h hn rfl hw' rfl⟩
    have hw : Workers s.dropHook := workers_same h.toWorkers hw' hb'
    refine workers_build hw (k := s.builds) rfl rfl fun j hj hr => ?_
    have ht := hw.attached j hj
    rw [hr, habs] at ht
    cases ht
  | @tokioBuild k c hk hl hc =>
    have hck : k = c := Option.some.inj ((h.afterStart k hl).symm.trans hc)
    subst hck
    refine ⟨hm, workers_build h.toWorkers rfl rfl fun _ _ _ => rfl, ?_⟩
    exact keeps_tokioBuild h hc hl rfl rfl rfl rfl
  | @tokioFail k hk hl =>
    refine exact_drop h hm (k := k) rfl rfl rfl rfl rfl ?_ ?_ (Or.inl rfl) (Or.inr ?_) ?_ ?_ ?_
    · simp [State.keeps, hl, Stage.inBuild]
    · simp [State.keeps, State.setStage, Stage.inBuild]
    · simp [hl, Stage.hasTokio]
    · simp [hl, Stage.filled]
    · simp [hl, Stage.made]
    · intro j hj hr
      have ht := h.attached j hj
      rw [hr, hl] at ht
      cases ht
  | @writeSlot k hk hl =>
    refine ⟨hm, workers_build h.toWorkers rfl rfl fun _ _ _ => rfl, ?_⟩
    refine keeps_add h.keeps (p := .sender k) rfl ?_ ?_ (fun q hq hne => ?_) ?_
    · simp [State.keeps, hl, Stage.filled]
    · simp [State.keeps, Stage.filled]
    · refine keeps_stage (s := s) (k := k) rfl rfl rfl (Or.inr ?_) (Or.inr ?_) (Or.inl hne) ?_
      · simp [hl, Stage.inBuild]
      · simp [hl, Stage.hasTokio]
      · simp [hl, Stage.made]
    · exact made_stage (s := s) (k := k) rfl fun _ => rfl
  | @unlock k hk hl =>
    refine exact_pass h hm (k := k) rfl rfl rfl rfl ?_ ?_ ?_ ?_ <;> rw [hl] <;> rfl
  | @finish k hk hl =>
    refine exact_drop h hm (k := k) rfl rfl rfl rfl rfl ?_ ?_ (Or.inl rfl) (Or.inr ?_) ?_ ?_ ?_
    · simp [State.keeps, hl, Stage.inBuild]
    · simp [State.keeps, State.setStage, Stage.inBuild]
    · change Stage.live.hasTokio = _
      rw [hl]
      rfl
    · change Stage.live.filled = _
      rw [hl]
      rfl
    · change Stage.live.made = _
      rw [hl]
      rfl
    · exact fun _ _ _ => rfl
  | spawnThread hj hk => exact exact_spawnThread h hm hj hk
  | upgradeStrong hf hj => exact exact_upgrade h hm hj
  | upgrade hf hj ha => cases hf
  | upgradeFailed hf hj ha => cases hf
  | read hj hl hr => exact exact_read h hm hj hl hr
  | @readUnset j hj hl hr =>
    have hsp := hook_slot h.toMade h.toWorkers (j := j) (by rw [hj]; rfl) hl
    rw [hr] at hsp
    cases hsp
  | setGuards hj hg => exact exact_setGuards h hm hj hg
  | @setGuardsPanic j sp p hj hg =>
    have hok := h.worker j
    simp only [Worker.Ok, hj] at hok
    obtain ⟨rfl, hfresh, hnone⟩ := hok
    rw [h.hook _ (h.attached j (by rw [hj]; rfl)), hfresh, hnone, setGuards_fresh] at hg
    cases hg
  | threadStop hj => exact exact_threadStop h hj hm
  | threadExit hj => exact exact_threadExit h hj hm
  | @clone n k hc =>
    obtain ⟨-, ⟨p, o⟩, hm', ho, -⟩ := hc
    cases ho
    exact ⟨hm, ⟨h.attached, h.worker⟩, keeps_same (keeps_clone h.keeps
      (keeps_handle h.keeps h.toWorkers hm')) (fun _ _ => rfl) fun _ hk => hk⟩
  | @release n k hr =>
    exact ⟨hm, ⟨h.attached, h.worker⟩, keeps_same (keeps_release h.keeps n k) (fun _ _ => rfl)
      fun _ hk => hk⟩
  | @endRuntime k e ds hl he =>
    have hds := drops_currentThread he
    subst hds
    refine exact_pass h hm (k := k) rfl rfl rfl rfl ?_ ?_ ?_ ?_
    · simp [hl, Stage.inBuild]
    · simp [hl, Stage.hasTokio]
    · simp [hl, Stage.filled]
    · simp [hl, Stage.made]
  | @dropNext k d ds hl ht =>
    rcases ending_cases h hl with ⟨rfl, rfl⟩ | ⟨rfl, rfl⟩
    · refine exact_drop h hm (k := k) rfl rfl rfl rfl rfl ?_ ?_ (Or.inr ?_) (Or.inl rfl) ?_ ?_ ?_
      · simp [State.keeps, hl, Stage.hasTokio]
      · simp [State.keeps, State.setStage, Stage.hasTokio]
      · simp [hl, Stage.inBuild]
      · simp [hl, Stage.filled]
      · simp [hl, Stage.made]
      · intro j hj hr
        rw [exact_detached h (ht rfl) hr] at hj
        cases hj
    · refine exact_pass h hm (k := k) rfl rfl rfl rfl ?_ ?_ ?_ ?_
      · simp [hl, Stage.inBuild]
      · simp [hl, Stage.hasTokio]
      · simp [hl, Stage.filled]
      · simp [hl, Stage.made]
  | dropBuilder hb hn =>
    obtain ⟨hb', hw', -, -⟩ := dropHook_same s
    exact ⟨hm, workers_same h.toWorkers hw' hb',
      keeps_same (keeps_dropHook h.keeps) (fun _ _ => rfl) fun _ hk => hk⟩

end Steps

/-- Every run of the current-thread builder keeps its accounts. -/
theorem run_exact {es : List Label} {s : State}
    (h : run (State.step .currentThread) new es = some s) : Exact s := by
  refine run_invariant (fun _ _ _ hi he => step_exact hi he) ?_ h
  refine ⟨made_new, ⟨fun j hj => ?_, fun j => trivial⟩, ⟨fun p o _ => ?_, fun n o hn => ?_⟩⟩
  · cases hj
  · cases p <;> simp [new, State.keeps, Stage.inBuild, Stage.hasTokio, Stage.made, Stage.filled,
      Worker.pool, Worker.guarded, Worker.cloned, Pc.attached]
  · cases hn

end TokioCompat.Startup
