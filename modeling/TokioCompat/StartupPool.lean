import TokioCompat.Startup

/-!
# The thread-pool builder starts and releases its runtimes safely

What each place of the program holds is a function of how far the builds and
the threads have come; the references in the state agree with it at every
step. A thread exists only while its tokio runtime does, the tokio runtime is
dropped before the slot, and the hook has only a weak reference to the slot.
-/

namespace TokioCompat.Startup

open Context Ownership Scope Transition

/-- The runtime, or the call of `build` before it, owns the slot. -/
def Stage.holdsSender : Stage → Bool
  | .locked | .tokio | .written | .unlocked | .live => true
  | .ending ds => ds.contains .compatSender
  | .absent | .gone | .failed => false

/-- The local `spawner` of `shutdown_on_idle` is alive. -/
def Stage.hasSpawner : Stage → Bool
  | .ending ds => ds.contains .spawner
  | _ => false

/-- The slot has been filled. -/
def Stage.filled : Stage → Bool
  | .written | .unlocked | .live | .ending _ | .gone => true
  | .absent | .locked | .tokio | .failed => false

/-- The hook on this thread owns the slot. -/
def Pc.hasSender : Pc → Bool
  | .upgraded | .reading _ => true
  | _ => false

/-- The spawner that the hook on this thread has cloned. -/
def Worker.cloned (t : Worker) : Option CompatSpawner :=
  match t.pc with
  | .reading sp => some sp
  | .running => t.guards
  | _ => none

/-- The tokio handle an existing thread owns. -/
def Worker.pool (t : Worker) : Option Place := if t.pc.attached then some (.handle t.rt) else none

/-- The slot the hook on this thread owns. -/
def Worker.upgraded (t : Worker) : Option Place :=
  if t.pc.hasSender then some (.sender t.rt) else none

/-- The handle inside the spawner the hook cloned. -/
def Worker.guarded (t : Worker) : Option Place := t.cloned.map fun sp => .handle sp.inner

/-- What each place of the library holds. -/
def State.expects (s : State) : Place → Option Place
  | .builder => s.afterStart.map .closure
  | .compatSender k => if (s.build k).stage.holdsSender then some (.sender k) else none
  | .runtime k => if (s.build k).stage.hasTokio then some (.handle k) else none
  | .spawner k => if (s.build k).stage.hasSpawner then some (.handle k) else none
  | .pool j => (s.worker j).pool
  | .upgraded j => (s.worker j).upgraded
  | .guards j => (s.worker j).guarded
  | .user _ | .closure _ | .sender _ | .handle _ => none

/-- A place of the library, as opposed to the program's and to the objects. -/
def Place.own : Place → Bool
  | .user _ | .closure _ | .sender _ | .handle _ => false
  | _ => true

theorem own_root {p : Place} (h : p.own = true) : p.root = true := by
  cases p <;> first | rfl | exact h

/-- The references of the library's places are the expected ones. -/
def Places (s : State) : Prop := ∀ p o, p.own = true → ((p, o) ∈ s.refs ↔ s.expects p = some o)

section Places

variable {s t : State} {p o : Place}

/-- Only references of the program or of objects change. -/
theorem places_same (h : Places s)
    (hr : ∀ q x, q.own = true → ((q, x) ∈ t.refs ↔ (q, x) ∈ s.refs))
    (he : ∀ q, t.expects q = s.expects q) : Places t := by
  intro q x hq
  rw [hr q x hq, he q]
  exact h q x hq

/-- A place that held nothing gets a reference. -/
theorem places_add (h : Places s) (hr : t.refs = insert (p, o) s.refs) (hn : s.expects p = none)
    (hp : t.expects p = some o) (he : ∀ q, q ≠ p → t.expects q = s.expects q) : Places t := by
  intro q x hq
  rw [hr, Finset.mem_insert]
  by_cases hqp : q = p
  · subst hqp
    rw [h q x hq, hn, hp]
    simp [eq_comm]
  · rw [h q x hq, he q hqp]
    simp [hqp]

/-- A place drops the reference it held. -/
theorem places_drop (h : Places s) (hr : t.refs = Ownership.drop Place.root s.refs (p, o))
    (hs : s.expects p = some o) (hp : t.expects p = none)
    (he : ∀ q, q ≠ p → t.expects q = s.expects q) : Places t := by
  intro q x hq
  rw [hr]
  by_cases hqp : q = p
  · subst hqp
    rw [hp]
    refine ⟨fun hm => ?_, nofun⟩
    obtain ⟨hne, hm⟩ := mem_of_mem_drop hm
    have hx := (h q x hq).mp hm
    rw [hs] at hx
    exact absurd (by rw [Option.some.inj hx]) hne
  · rw [he q hqp, ← h q x hq]
    refine ⟨fun hm => (mem_of_mem_drop hm).2, fun hm => mem_drop (own_root hq) hm ?_⟩
    exact fun hx => hqp (Prod.mk.inj hx).1

end Places

/-- The context of a thread between `on_thread_start` and `on_thread_stop`. -/
def Slots.ofRuntime (k : ℕ) : Slots :=
  { Slots.fresh with
    executor := some (.compat ⟨k, k⟩)
    timer := some (.background k)
    reactor := some (.background k) }

/-- What a thread's context contains at each point. -/
def Worker.Ok (t : Worker) : Prop :=
  match t.pc with
  | .absent | .stopping | .exited => True
  | .started | .upgraded => t.slots = Slots.fresh ∧ t.guards = none
  | .reading sp => sp = ⟨t.rt, t.rt⟩ ∧ t.slots = Slots.fresh ∧ t.guards = none
  | .running => t.slots = Slots.ofRuntime t.rt ∧ t.guards = some ⟨t.rt, t.rt⟩
  | .panicked _ => False

/-- The references agree with the expectations, and objects are supported. -/
structure Ledger (s : State) : Prop where
  places : Places s
  objects : ∀ p o, p.root = false → (p, o) ∈ s.refs →
    ∃ k, (p = .handle k ∧ o = .closure k) ∨ (p = .sender k ∧ o = .handle k)
  user : ∀ n o, (.user n, o) ∈ s.refs → ∃ k, o = .handle k
  supported : Supported Place.root s.refs

/-- Facts about each build. -/
structure Builds (s : State) : Prop where
  building : ∀ k, (s.build k).stage = .locked → s.building = some k ∧ s.afterStart = some k
  fresh : ∀ k, s.builds ≤ k → (s.build k).stage = .absent
  hook : ∀ k, (s.build k).stage.hasTokio = true → (s.build k).hook = k
  slot : ∀ k, (s.build k).stage.filled = true → (s.build k).slot = some ⟨k, k⟩
  ending : ∀ k ds, (s.build k).stage = .ending ds → ds.Nodup ∧ ds.getLast? = some .compatSender

/-- Facts about each thread. -/
structure Workers (s : State) : Prop where
  attached : ∀ j, (s.worker j).pc.attached = true →
    (s.build (s.worker j).rt).stage.hasTokio = true
  worker : ∀ j, (s.worker j).Ok

/-- What holds of every state of the thread-pool builder. -/
structure Inv (s : State) : Prop extends Ledger s, Builds s, Workers s

/-- While the tokio runtime exists, the slot does. -/
theorem sender_alive {s : State} (hi : Inv s) {k : ℕ} (h : (s.build k).stage.hasTokio = true) :
    (.compatSender k, .sender k) ∈ s.refs := by
  refine (hi.places _ _ rfl).mpr (if_pos ?_)
  cases hs : (s.build k).stage with
  | ending ds =>
    have hl := (hi.ending k ds hs).2
    simpa [Stage.holdsSender] using List.mem_of_getLast? hl
  | absent | gone | failed =>
    rw [hs] at h
    cases h
  | locked | tokio | written | unlocked | live => rfl

/-- A hook finds the slot alive, so its upgrade succeeds. -/
theorem upgrade_succeeds {s : State} (hi : Inv s) {j : ℕ} (hj : (s.worker j).pc = .started) :
    Alive s.refs (.sender (s.build (s.worker j).rt).hook) := by
  have ht := hi.attached j (by rw [hj]; rfl)
  rw [hi.hook _ ht]
  exact alive_of_mem (sender_alive hi ht)

/-- A hook that gets the read lock finds the slot filled for its own runtime. -/
theorem read_succeeds {s : State} (hi : Inv s) {j : ℕ} (hj : (s.worker j).pc.attached = true)
    (hl : (s.build (s.build (s.worker j).rt).hook).stage.writeLocked = false) :
    (s.build (s.build (s.worker j).rt).hook).slot = some ⟨(s.worker j).rt, (s.worker j).rt⟩ := by
  have ht := hi.attached j hj
  rw [hi.hook _ ht] at hl ⊢
  refine hi.slot _ ?_
  cases hs : (s.build (s.worker j).rt).stage <;>
    simp_all [Stage.filled, Stage.writeLocked, Stage.hasTokio]

/-- On a fresh thread `set_guards` installs the runtime's own defaults. -/
theorem setGuards_fresh (k : ℕ) :
    Startup.setGuards ⟨k, k⟩ k none Slots.fresh = .ok (Slots.ofRuntime k) := rfl

/-! ### Expectations after a change -/

theorem expects_worker {s : State} {j : ℕ} {t : Worker} {q : Place}
    (h1 : q = .pool j → t.pool = (s.worker j).pool)
    (h2 : q = .upgraded j → t.upgraded = (s.worker j).upgraded)
    (h3 : q = .guards j → t.guarded = (s.worker j).guarded) :
    (s.setWorker j t).expects q = s.expects q := by
  cases q with
  | pool i =>
    by_cases hij : i = j
    · subst hij
      simp [State.expects, State.setWorker, h1 rfl]
    · simp [State.expects, State.setWorker, hij]
  | upgraded i =>
    by_cases hij : i = j
    · subst hij
      simp [State.expects, State.setWorker, h2 rfl]
    · simp [State.expects, State.setWorker, hij]
  | guards i =>
    by_cases hij : i = j
    · subst hij
      simp [State.expects, State.setWorker, h3 rfl]
    · simp [State.expects, State.setWorker, hij]
  | builder | compatSender k | runtime k | spawner k | user n | closure k | sender k | handle k => rfl

theorem expects_build {s : State} {k : ℕ} {b : Build} {q : Place}
    (h1 : q = .compatSender k → b.stage.holdsSender = (s.build k).stage.holdsSender)
    (h2 : q = .runtime k → b.stage.hasTokio = (s.build k).stage.hasTokio)
    (h3 : q = .spawner k → b.stage.hasSpawner = (s.build k).stage.hasSpawner) :
    State.expects { s with build := Function.update s.build k b } q = s.expects q := by
  cases q with
  | compatSender i =>
    by_cases hik : i = k
    · subst hik
      simp [State.expects, h1 rfl]
    · simp [State.expects, hik]
  | runtime i =>
    by_cases hik : i = k
    · subst hik
      simp [State.expects, h2 rfl]
    · simp [State.expects, hik]
  | spawner i =>
    by_cases hik : i = k
    · subst hik
      simp [State.expects, h3 rfl]
    · simp [State.expects, hik]
  | builder | pool j | upgraded j | guards j | user n | closure k | sender k | handle k => rfl

theorem expects_stage {s : State} {k : ℕ} {st : Stage} {q : Place}
    (h1 : q = .compatSender k → st.holdsSender = (s.build k).stage.holdsSender)
    (h2 : q = .runtime k → st.hasTokio = (s.build k).stage.hasTokio)
    (h3 : q = .spawner k → st.hasSpawner = (s.build k).stage.hasSpawner) :
    (s.setStage k st).expects q = s.expects q :=
  expects_build (b := { s.build k with stage := st }) h1 h2 h3

section Ledger

variable {s t : State} {p o : Place}

theorem ledger_same (h : Ledger s) (hr : t.refs = s.refs)
    (he : ∀ q, t.expects q = s.expects q) : Ledger t :=
  ⟨places_same h.places (fun _ _ _ => by rw [hr]) he, hr ▸ h.objects, hr ▸ h.user, hr ▸ h.supported⟩

/-- A place of the library gets a reference. -/
theorem ledger_add (h : Ledger s) (ho : p.own = true) (hr : t.refs = insert (p, o) s.refs)
    (hn : s.expects p = none) (hp : t.expects p = some o)
    (he : ∀ q, q ≠ p → t.expects q = s.expects q) : Ledger t := by
  refine ⟨places_add h.places hr hn hp he, ?_, ?_, ?_⟩
  · intro q x hq hm
    rw [hr, Finset.mem_insert] at hm
    rcases hm with hm | hm
    · rw [(Prod.mk.inj hm).1, own_root ho] at hq
      cases hq
    · exact h.objects q x hq hm
  · intro n x hm
    rw [hr, Finset.mem_insert] at hm
    rcases hm with hm | hm
    · rw [← (Prod.mk.inj hm).1] at ho
      cases ho
    · exact h.user n x hm
  · rw [hr]
    exact supported_insert h.supported (Or.inl (own_root ho))

/-- A place of the library drops its reference. -/
theorem ledger_drop (h : Ledger s) (hr : t.refs = Ownership.drop Place.root s.refs (p, o))
    (hs : s.expects p = some o) (hp : t.expects p = none)
    (he : ∀ q, q ≠ p → t.expects q = s.expects q) : Ledger t := by
  refine ⟨places_drop h.places hr hs hp he, ?_, ?_, ?_⟩
  · intro q x hq hm
    rw [hr] at hm
    exact h.objects q x hq (mem_of_mem_drop hm).2
  · intro n x hm
    rw [hr] at hm
    exact h.user n x (mem_of_mem_drop hm).2
  · rw [hr]
    exact drop_supported _ _

/-- The program gets a clone of a handle. -/
theorem ledger_clone (h : Ledger s) (n k : ℕ) : Ledger (s.add (.user n) (.handle k)) := by
  refine ⟨places_same h.places (fun q x hq => ?_) fun _ => rfl, ?_, ?_, ?_⟩
  · have hne : q ≠ .user n := by
      rintro rfl
      cases hq
    simp [State.add, hne]
  · intro q x hq hm
    rcases Finset.mem_insert.mp hm with hm | hm
    · rw [(Prod.mk.inj hm).1] at hq
      cases hq
    · exact h.objects q x hq hm
  · intro m x hm
    rcases Finset.mem_insert.mp hm with hm | hm
    · exact ⟨k, (Prod.mk.inj hm).2⟩
    · exact h.user m x hm
  · exact supported_insert h.supported (Or.inl rfl)

/-- The program drops a clone of a handle. -/
theorem ledger_release (h : Ledger s) (n k : ℕ) : Ledger (s.drop (.user n) (.handle k)) := by
  refine ⟨places_same h.places (fun q x hq => ?_) fun _ => rfl, ?_, ?_, drop_supported _ _⟩
  · have hne : (q, x) ≠ (.user n, .handle k) := fun he => by
      rw [(Prod.mk.inj he).1] at hq
      cases hq
    exact ⟨fun hm => (mem_of_mem_drop hm).2, fun hm => mem_drop (own_root hq) hm hne⟩
  · intro q x hq hm
    exact h.objects q x hq (mem_of_mem_drop hm).2
  · intro m x hm
    exact h.user m x (mem_of_mem_drop hm).2

/-- A live object gets the one reference of its kind. -/
theorem ledger_object (h : Ledger s) {k : ℕ} (ha : Alive s.refs p)
    (hp : (p = .handle k ∧ o = .closure k) ∨ (p = .sender k ∧ o = .handle k)) :
    Ledger (s.add p o) := by
  have hown : p.own = false ∧ ∀ n, p ≠ .user n := by
    rcases hp with ⟨rfl, _⟩ | ⟨rfl, _⟩ <;> exact ⟨rfl, fun n => by simp⟩
  refine ⟨places_same h.places (fun q x hq => ?_) fun _ => rfl, ?_, ?_, ?_⟩
  · have hne : q ≠ p := by
      rintro rfl
      rw [hown.1] at hq
      cases hq
    simp [State.add, hne]
  · intro q x hq hm
    rcases Finset.mem_insert.mp hm with hm | hm
    · obtain ⟨rfl, rfl⟩ := Prod.mk.inj hm
      exact ⟨k, hp⟩
    · exact h.objects q x hq hm
  · intro m x hm
    rcases Finset.mem_insert.mp hm with hm | hm
    · exact absurd (Prod.mk.inj hm).1.symm (hown.2 m)
    · exact h.user m x hm
  · exact supported_insert h.supported (Or.inr ha)

end Ledger

/-- One build changes; what is asked of the new record is what the facts say. -/
theorem builds_update {s t : State} (h : Builds s) {k : ℕ} {b : Build}
    (hb : t.build = Function.update s.build k b) (hn : s.builds ≤ t.builds) (hk : k < t.builds)
    (ho : ∀ i, i ≠ k → (s.build i).stage = .locked → t.building = some i ∧ t.afterStart = some i)
    (hl : b.stage = .locked → t.building = some k ∧ t.afterStart = some k)
    (hh : b.stage.hasTokio = true → b.hook = k)
    (hs : b.stage.filled = true → b.slot = some ⟨k, k⟩)
    (he : ∀ ds, b.stage = .ending ds → ds.Nodup ∧ ds.getLast? = some .compatSender) :
    Builds t := by
  have hne : ∀ i, i ≠ k → t.build i = s.build i := fun i hi => by
    rw [hb, Function.update_of_ne hi]
  have heq : t.build k = b := by rw [hb, Function.update_self]
  constructor
  · intro i
    by_cases hi : i = k
    · rw [hi, heq]
      exact hl
    · rw [hne i hi]
      exact ho i hi
  · intro i hle
    rw [hne i (by omega)]
    exact h.fresh i (hn.trans hle)
  · intro i
    by_cases hi : i = k
    · rw [hi, heq]
      exact hh
    · rw [hne i hi]
      exact h.hook i
  · intro i
    by_cases hi : i = k
    · rw [hi, heq]
      exact hs
    · rw [hne i hi]
      exact h.slot i
  · intro i
    by_cases hi : i = k
    · rw [hi, heq]
      exact he
    · rw [hne i hi]
      exact h.ending i

/-- A build that has begun is one of those counted. -/
theorem lt_builds {s : State} (h : Builds s) {k : ℕ} (hk : (s.build k).stage ≠ .absent) :
    k < s.builds := by
  by_contra hn
  exact hk (h.fresh k (by omega))

/-- Threads keep their runtime when a build changes without losing its own. -/
theorem workers_build {s t : State} (h : Workers s) {k : ℕ} {b : Build}
    (hw : t.worker = s.worker) (hb : t.build = Function.update s.build k b)
    (hk : ∀ j, (s.worker j).pc.attached = true → (s.worker j).rt = k → b.stage.hasTokio = true) :
    Workers t := by
  refine ⟨fun j hj => ?_, fun j => hw ▸ h.worker j⟩
  rw [hw] at hj ⊢
  rw [hb]
  by_cases he : (s.worker j).rt = k
  · rw [he, Function.update_self]
    exact hk j hj he
  · rw [Function.update_of_ne he]
    exact h.attached j hj

/-- One thread changes. -/
theorem workers_set {s t : State} (h : Workers s) {j : ℕ} {w : Worker}
    (hw : t.worker = Function.update s.worker j w) (hb : t.build = s.build)
    (ha : w.pc.attached = true → (s.build w.rt).stage.hasTokio = true) (ho : w.Ok) :
    Workers t := by
  refine ⟨fun i hi => ?_, fun i => ?_⟩
  · by_cases hij : i = j
    · rw [hw, hij, Function.update_self] at hi ⊢
      rw [hb]
      exact ha hi
    · rw [hw, Function.update_of_ne hij] at hi ⊢
      rw [hb]
      exact h.attached i hi
  · by_cases hij : i = j
    · rw [hw, hij, Function.update_self]
      exact ho
    · rw [hw, Function.update_of_ne hij]
      exact h.worker i

/-! ### Steps of a build -/

/-- A build that is in progress is the only one with a lock. -/
theorem other_locked {s : State} (h : Builds s) {k : ℕ} (hk : s.building = some k) {i : ℕ}
    (hi : i ≠ k) : (s.build i).stage ≠ .locked := fun he => by
  have := (h.building i he).1
  rw [hk] at this
  exact hi (Option.some.inj this).symm

/-- Between builds no slot is locked by a build. -/
theorem none_locked {s : State} (h : Builds s) (hn : s.building = none) (k : ℕ) :
    (s.build k).stage ≠ .locked := fun he => by
  have := (h.building k he).1
  rw [hn] at this
  cases this

theorem dropHook_same (s : State) : s.dropHook.build = s.build ∧ s.dropHook.worker = s.worker ∧
    s.dropHook.builds = s.builds ∧ s.dropHook.building = s.building := by
  unfold State.dropHook
  split <;> exact ⟨rfl, rfl, rfl, rfl⟩

/-- Between builds the `Builder` may let go of its hook. -/
theorem inv_dropHook {s : State} (hi : Inv s) (hn : s.building = none) :
    Inv s.dropHook ∧ s.dropHook.afterStart = none := by
  obtain ⟨hb, hw, hbs, hbd⟩ := dropHook_same s
  have hB : Builds s.dropHook := by
    refine ⟨fun k hk => ?_, ?_, ?_, ?_, ?_⟩
    · rw [hb] at hk
      exact absurd hk (none_locked hi.toBuilds hn k)
    · rw [hb, hbs]
      exact hi.fresh
    · rw [hb]
      exact hi.hook
    · rw [hb]
      exact hi.slot
    · rw [hb]
      exact hi.ending
  have hW : Workers s.dropHook := by
    refine ⟨?_, ?_⟩
    · rw [hw, hb]
      exact hi.attached
    · rw [hw]
      exact hi.worker
  refine ⟨⟨?_, hB, hW⟩, ?_⟩
  · unfold State.dropHook
    cases ha : s.afterStart with
    | none => exact hi.toLedger
    | some c =>
      refine ledger_drop hi.toLedger rfl (by simp [State.expects, ha]) rfl fun q hq => ?_
      cases q <;> first | rfl | exact absurd rfl hq
  · unfold State.dropHook
    cases ha : s.afterStart with
    | none => exact ha
    | some c => rfl

theorem inv_beginBuild {s : State} (hi : Inv s) (hn : s.building = none) :
    Inv { (((s.dropHook.add (.compatSender s.builds) (.sender s.builds)).add .builder
      (.closure s.builds)).setStage s.builds .locked) with
        afterStart := some s.builds, builds := s.builds + 1, building := some s.builds } := by
  obtain ⟨hd, ha⟩ := inv_dropHook hi hn
  obtain ⟨hb, hw, hbs, hbd⟩ := dropHook_same s
  have hfree : (s.dropHook.build s.builds).stage = .absent := by
    rw [hb]
    exact hi.fresh _ le_rfl
  refine ⟨?_, ?_, ?_⟩
  · -- first the slot with its lock, then the hook
    have h1 : Ledger ((s.dropHook.add (.compatSender s.builds) (.sender s.builds)).setStage
        s.builds .locked) := by
      refine ledger_add hd.toLedger (p := .compatSender s.builds) rfl rfl
        (by simp [State.expects, hfree, Stage.holdsSender])
        (by simp [State.expects, State.setStage, Stage.holdsSender]) fun q hq => ?_
      exact expects_stage (s := s.dropHook.add (.compatSender s.builds) (.sender s.builds))
        (fun h => absurd h hq) (fun _ => by simp [hfree, Stage.hasTokio])
        fun _ => by simp [hfree, Stage.hasSpawner]
    refine ledger_add h1 (p := .builder) rfl rfl ?_ rfl fun q hq => ?_
    · change s.dropHook.afterStart.map Place.closure = none
      rw [ha]
      rfl
    · cases q <;> first | rfl | exact absurd rfl hq
  · refine builds_update hd.toBuilds (k := s.builds) rfl (by rw [hbs]; exact Nat.le_succ _)
      (Nat.lt_succ_self _) (fun i _ hl => ?_) (fun _ => ⟨rfl, rfl⟩) nofun nofun nofun
    rw [hb] at hl
    exact absurd hl (none_locked hi.toBuilds hn i)
  · refine workers_build hd.toWorkers (k := s.builds) rfl rfl fun j hj hr => ?_
    have := hd.attached j hj
    rw [hr, hfree] at this
    cases this

theorem inv_tokioBuild {s : State} (hi : Inv s) {k c : ℕ} (hk : s.building = some k)
    (hl : (s.build k).stage = .locked) (hc : s.afterStart = some c) :
    Inv { (s.add (.runtime k) (.handle k)).add (.handle k) (.closure c) with
      build := Function.update s.build k { s.build k with stage := .tokio, hook := c } } := by
  obtain rfl : k = c := Option.some.inj ((hi.building k hl).2.symm.trans hc)
  refine ⟨?_, ?_, ?_⟩
  · have h1 : Ledger { s.add (.runtime k) (.handle k) with
        build := Function.update s.build k { s.build k with stage := .tokio, hook := k } } := by
      refine ledger_add hi.toLedger (p := .runtime k) rfl rfl
        (by simp [State.expects, hl, Stage.hasTokio])
        (by simp [State.expects, Stage.hasTokio]) fun q hq => ?_
      exact expects_build (fun _ => by simp [hl, Stage.holdsSender]) (fun h => absurd h hq)
        fun _ => by simp [hl, Stage.hasSpawner]
    refine ledger_object h1 (k := k) ?_ (Or.inl ⟨rfl, rfl⟩)
    exact alive_of_mem (Finset.mem_insert_self (Place.runtime k, Place.handle k) s.refs)
  · exact builds_update hi.toBuilds rfl le_rfl
      (lt_builds hi.toBuilds (by rw [hl]; nofun))
      (fun i hik h => absurd h (other_locked hi.toBuilds hk hik)) nofun (fun _ => rfl) nofun nofun
  · exact workers_build hi.toWorkers rfl rfl fun _ _ _ => rfl

theorem inv_tokioFail {s : State} (hi : Inv s) {k : ℕ} (hk : s.building = some k)
    (hl : (s.build k).stage = .locked) :
    Inv { (s.drop (.compatSender k) (.sender k)).setStage k .failed with building := none } := by
  refine ⟨?_, ?_, ?_⟩
  · refine ledger_drop hi.toLedger (p := .compatSender k) rfl
      (by simp [State.expects, hl, Stage.holdsSender])
      (by simp [State.expects, State.setStage, Stage.holdsSender]) fun q hq => ?_
    exact expects_stage (s := s.drop (.compatSender k) (.sender k)) (fun h => absurd h hq)
      (fun _ => by simp [hl, Stage.hasTokio])
      fun _ => by simp [hl, Stage.hasSpawner]
  · exact builds_update hi.toBuilds rfl le_rfl (lt_builds hi.toBuilds (by rw [hl]; nofun))
      (fun i hik h => absurd h (other_locked hi.toBuilds hk hik)) nofun nofun nofun nofun
  · refine workers_build hi.toWorkers rfl rfl fun j hj hr => ?_
    have := hi.attached j hj
    rw [hr, hl] at this
    cases this

theorem inv_writeSlot {s : State} (hi : Inv s) {k : ℕ} (hk : s.building = some k)
    (hl : (s.build k).stage = .tokio) :
    Inv { s.add (.sender k) (.handle k) with
      build := Function.update s.build k
        { s.build k with stage := .written, slot := some ⟨k, k⟩ } } := by
  have ht : (s.build k).stage.hasTokio = true := by rw [hl]; rfl
  refine ⟨?_, ?_, ?_⟩
  · have h1 : Ledger (s.add (.sender k) (.handle k)) :=
      ledger_object hi.toLedger (k := k) (alive_of_mem (sender_alive hi ht)) (Or.inr ⟨rfl, rfl⟩)
    refine ledger_same h1 rfl fun q => ?_
    exact expects_build (s := s.add (.sender k) (.handle k))
      (fun _ => by simp [hl, Stage.holdsSender])
      (fun _ => by simp [hl, Stage.hasTokio])
      fun _ => by simp [hl, Stage.hasSpawner]
  · exact builds_update hi.toBuilds rfl le_rfl (lt_builds hi.toBuilds (by rw [hl]; nofun))
      (fun i hik h => absurd h (other_locked hi.toBuilds hk hik)) nofun (fun _ => hi.hook k ht)
      (fun _ => rfl) nofun
  · exact workers_build hi.toWorkers rfl rfl fun _ _ _ => rfl

/-- A step of `build` that only passes control: no reference changes hands. -/
theorem inv_pass {s t : State} (hi : Inv s) {k : ℕ} {st : Stage}
    (ht : t = { s.setStage k st with building := t.building }) (hb : (s.build k).stage.filled = true)
    (hs : st = .unlocked ∨ st = .live)
    (h1 : (s.build k).stage.holdsSender = true) (h2 : (s.build k).stage.hasTokio = true)
    (h3 : (s.build k).stage.hasSpawner = false) (hk : s.building = some k) : Inv t := by
  have e1 : st.holdsSender = true ∧ st.hasTokio = true ∧ st.hasSpawner = false ∧
      st ≠ .locked ∧ ∀ ds, st ≠ .ending ds := by
    rcases hs with rfl | rfl <;> exact ⟨rfl, rfl, rfl, nofun, nofun⟩
  have hbuild : t.build = Function.update s.build k { s.build k with stage := st } := by rw [ht]; rfl
  have hwork : t.worker = s.worker := by rw [ht]; rfl
  refine ⟨?_, ?_, ?_⟩
  · refine ledger_same hi.toLedger (by rw [ht]; rfl) fun q => ?_
    have he : t.expects q = (s.setStage k st).expects q := by
      rw [ht]
      cases q <;> rfl
    rw [he]
    exact expects_stage (fun _ => by rw [h1, e1.1]) (fun _ => by rw [h2, e1.2.1])
      fun _ => by rw [h3, e1.2.2.1]
  · exact builds_update hi.toBuilds hbuild (by rw [ht]; exact le_rfl)
      (by rw [ht]; exact lt_builds hi.toBuilds fun he => by rw [he] at h2; cases h2)
      (fun i hik h => absurd h (other_locked hi.toBuilds hk hik))
      (fun h => absurd h e1.2.2.2.1) (fun _ => hi.hook k h2) (fun _ => hi.slot k hb)
      fun ds h => absurd h (e1.2.2.2.2 ds)
  · exact workers_build hi.toWorkers hwork hbuild fun _ _ _ => e1.2.1

/-! ### Steps of a thread, of the program and of an ending runtime -/

theorem builds_same {s t : State} (h : Builds s) (hb : t.build = s.build)
    (hn : t.builds = s.builds) (hk : t.building = s.building) (ha : t.afterStart = s.afterStart) :
    Builds t := by
  refine ⟨?_, ?_, ?_, ?_, ?_⟩
  · rw [hb, hk, ha]
    exact h.building
  · rw [hb, hn]
    exact h.fresh
  · rw [hb]
    exact h.hook
  · rw [hb]
    exact h.slot
  · rw [hb]
    exact h.ending

/-- A thread step that gives its thread one more reference. -/
theorem inv_worker_add {s : State} (hi : Inv s) {j : ℕ} {w : Worker} {p o : Place}
    (hp : p.own = true) (hn : s.expects p = none)
    (hs : (s.setWorker j w).expects p = some o)
    (h1 : p ≠ .pool j → w.pool = (s.worker j).pool)
    (h2 : p ≠ .upgraded j → w.upgraded = (s.worker j).upgraded)
    (h3 : p ≠ .guards j → w.guarded = (s.worker j).guarded)
    (ha : w.pc.attached = true → (s.build w.rt).stage.hasTokio = true) (hw : w.Ok) :
    Inv ((s.add p o).setWorker j w) := by
  refine ⟨?_, builds_same hi.toBuilds rfl rfl rfl rfl, workers_set hi.toWorkers rfl rfl ha hw⟩
  refine ledger_add hi.toLedger hp rfl hn hs fun q hq => ?_
  exact expects_worker (s := s.add p o) (fun h => h1 (h ▸ hq.symm)) (fun h => h2 (h ▸ hq.symm))
    fun h => h3 (h ▸ hq.symm)

/-- A thread step that drops one reference of its thread. -/
theorem inv_worker_drop {s : State} (hi : Inv s) {j : ℕ} {w : Worker} {p o : Place}
    (hs : s.expects p = some o) (hn : (s.setWorker j w).expects p = none)
    (h1 : p ≠ .pool j → w.pool = (s.worker j).pool)
    (h2 : p ≠ .upgraded j → w.upgraded = (s.worker j).upgraded)
    (h3 : p ≠ .guards j → w.guarded = (s.worker j).guarded)
    (ha : w.pc.attached = true → (s.build w.rt).stage.hasTokio = true) (hw : w.Ok) :
    Inv ((s.drop p o).setWorker j w) := by
  refine ⟨?_, builds_same hi.toBuilds rfl rfl rfl rfl, workers_set hi.toWorkers rfl rfl ha hw⟩
  refine ledger_drop hi.toLedger rfl hs hn fun q hq => ?_
  exact expects_worker (s := s.drop p o) (fun h => h1 (h ▸ hq.symm)) (fun h => h2 (h ▸ hq.symm))
    fun h => h3 (h ▸ hq.symm)

theorem setWorker_pool (s : State) (j : ℕ) (w : Worker) :
    (s.setWorker j w).expects (.pool j) = w.pool := by
  simp [State.expects, State.setWorker]

theorem setWorker_upgraded (s : State) (j : ℕ) (w : Worker) :
    (s.setWorker j w).expects (.upgraded j) = w.upgraded := by
  simp [State.expects, State.setWorker]

theorem setWorker_guards (s : State) (j : ℕ) (w : Worker) :
    (s.setWorker j w).expects (.guards j) = w.guarded := by
  simp [State.expects, State.setWorker]

theorem inv_spawnThread {s : State} (hi : Inv s) {k j : ℕ} (hj : (s.worker j).pc = .absent)
    (hs : (s.build k).stage.hasTokio = true) :
    Inv ((s.add (.pool j) (.handle k)).setWorker j ⟨k, .started, Slots.fresh, none⟩) := by
  refine inv_worker_add hi rfl ?_ ?_ (fun h => absurd rfl h) (fun _ => ?_) (fun _ => ?_)
    (fun _ => hs) ⟨rfl, rfl⟩
  · simp [State.expects, Worker.pool, hj, Pc.attached]
  · rw [setWorker_pool]
    rfl
  · simp [Worker.upgraded, hj, Pc.hasSender]
  · simp [Worker.guarded, Worker.cloned, hj]

theorem inv_upgrade {s : State} (hi : Inv s) {j : ℕ} (hj : (s.worker j).pc = .started) :
    Inv ((s.add (.upgraded j) (.sender (s.build (s.worker j).rt).hook)).setWorker j
      { s.worker j with pc := .upgraded }) := by
  have ht := hi.attached j (by rw [hj]; rfl)
  have hw := hi.worker j
  rw [hi.hook _ ht]
  refine inv_worker_add hi rfl ?_ ?_ (fun _ => ?_) (fun h => absurd rfl h) (fun _ => ?_)
    (fun _ => ht) ?_
  · simp [State.expects, Worker.upgraded, hj, Pc.hasSender]
  · rw [setWorker_upgraded]
    rfl
  · simp [Worker.pool, hj, Pc.attached]
  · simp [Worker.guarded, Worker.cloned, hj]
  · simpa [Worker.Ok, hj] using hw

theorem inv_read {s : State} (hi : Inv s) {j : ℕ} {sp : CompatSpawner}
    (hj : (s.worker j).pc = .upgraded)
    (hl : (s.build (s.build (s.worker j).rt).hook).stage.writeLocked = false)
    (hs : (s.build (s.build (s.worker j).rt).hook).slot = some sp) :
    Inv ((s.add (.guards j) (.handle sp.inner)).setWorker j
      { s.worker j with pc := .reading sp }) := by
  have hsp := read_succeeds hi (j := j) (by rw [hj]; rfl) hl
  rw [hs] at hsp
  have hw := hi.worker j
  refine inv_worker_add hi rfl ?_ ?_ (fun _ => ?_) (fun _ => ?_) (fun h => absurd rfl h)
    (fun _ => hi.attached j (by rw [hj]; rfl)) ?_
  · simp [State.expects, Worker.guarded, Worker.cloned, hj]
  · rw [setWorker_guards]
    rfl
  · simp [Worker.pool, hj, Pc.attached]
  · simp [Worker.upgraded, hj, Pc.hasSender]
  · simp only [Worker.Ok, hj] at hw ⊢
    exact ⟨Option.some.inj hsp, hw⟩

theorem inv_setGuards {s : State} (hi : Inv s) {j : ℕ} {sp : CompatSpawner} {slots : Slots}
    (hj : (s.worker j).pc = .reading sp)
    (hg : Startup.setGuards sp (s.build (s.worker j).rt).hook (s.worker j).guards
      (s.worker j).slots = .ok slots) :
    Inv ((s.drop (.upgraded j) (.sender (s.build (s.worker j).rt).hook)).setWorker j
      { s.worker j with pc := .running, slots := slots, guards := some sp }) := by
  have ht := hi.attached j (by rw [hj]; rfl)
  have hw := hi.worker j
  simp only [Worker.Ok, hj] at hw
  obtain ⟨rfl, hfresh, hnone⟩ := hw
  rw [hi.hook _ ht, hfresh, hnone, setGuards_fresh] at hg
  cases hg
  rw [hi.hook _ ht]
  refine inv_worker_drop hi ?_ ?_ (fun _ => ?_) (fun h => absurd rfl h) (fun _ => ?_)
    (fun _ => ht) ⟨rfl, rfl⟩
  · simp [State.expects, Worker.upgraded, hj, Pc.hasSender]
  · rw [setWorker_upgraded]
    rfl
  · simp [Worker.pool, hj, Pc.attached]
  · simp [Worker.guarded, Worker.cloned, hj]

theorem inv_threadStop {s : State} (hi : Inv s) {j : ℕ} (hj : (s.worker j).pc = .running) :
    Inv ((match (s.worker j).guards with
      | some sp => s.drop (.guards j) (.handle sp.inner)
      | none => s).setWorker j { s.worker j with
        pc := .stopping, slots := unsetGuards (s.worker j).guards (s.worker j).slots,
        guards := none }) := by
  have hw := hi.worker j
  simp only [Worker.Ok, hj] at hw
  rw [hw.2]
  refine inv_worker_drop hi ?_ ?_ (fun _ => ?_) (fun _ => ?_) (fun h => absurd rfl h)
    (fun _ => hi.attached j (by rw [hj]; rfl)) trivial
  · simp [State.expects, Worker.guarded, Worker.cloned, hj, hw.2]
  · rw [setWorker_guards]
    rfl
  · simp [Worker.pool, hj, Pc.attached]
  · simp [Worker.upgraded, hj, Pc.hasSender]

theorem inv_threadExit {s : State} (hi : Inv s) {j : ℕ} (hj : (s.worker j).pc = .stopping) :
    Inv ((s.drop (.pool j) (.handle (s.worker j).rt)).setWorker j
      { s.worker j with pc := .exited }) := by
  refine inv_worker_drop hi ?_ ?_ (fun h => absurd rfl h) (fun _ => ?_) (fun _ => ?_) nofun trivial
  · simp [State.expects, Worker.pool, hj, Pc.attached]
  · rw [setWorker_pool]
    rfl
  · simp [Worker.upgraded, hj, Pc.hasSender]
  · simp [Worker.guarded, Worker.cloned, hj]

/-- The lists of drops: no value twice, the slot last. -/
theorem drops_order {e : Ending} {ds : List Drop} (h : Flavor.threadPool.drops e = some ds) :
    ds.Nodup ∧ ds.getLast? = some .compatSender ∧ .runtime ∈ ds := by
  cases e <;> cases h <;> decide

theorem inv_endRuntime {s : State} (hi : Inv s) {k : ℕ} {e : Ending} {ds : List Drop}
    (hl : (s.build k).stage = .live) (he : Flavor.threadPool.drops e = some ds) :
    Inv ((if .spawner ∈ ds then s.add (.spawner k) (.handle k) else s).setStage k
      (.ending ds)) := by
  obtain ⟨hd, hlast, hrt⟩ := drops_order he
  have ht : (s.build k).stage.hasTokio = true := by rw [hl]; rfl
  have hsame : (if .spawner ∈ ds then s.add (.spawner k) (.handle k) else s).build = s.build ∧
      (if .spawner ∈ ds then s.add (.spawner k) (.handle k) else s).worker = s.worker := by
    split <;> exact ⟨rfl, rfl⟩
  refine ⟨?_, ?_, ?_⟩
  · have hmem := List.mem_of_getLast? hlast
    by_cases hsp : Drop.spawner ∈ ds
    · rw [if_pos hsp]
      refine ledger_add hi.toLedger (p := .spawner k) rfl rfl
        (by simp [State.expects, hl, Stage.hasSpawner])
        (by simp [State.expects, State.setStage, Stage.hasSpawner, hsp]) fun q hq => ?_
      exact expects_stage (s := s.add (.spawner k) (.handle k))
        (fun _ => by simp [hl, hmem, Stage.holdsSender]) (fun _ => by simp [hl, hrt, Stage.hasTokio])
        fun h => absurd h hq
    · rw [if_neg hsp]
      refine ledger_same hi.toLedger rfl fun q => expects_stage ?_ ?_ ?_
      · exact fun _ => by simp [hl, hmem, Stage.holdsSender]
      · exact fun _ => by simp [hl, hrt, Stage.hasTokio]
      · exact fun _ => by simp [hl, hsp, Stage.hasSpawner]
  · have hb : Builds (if .spawner ∈ ds then s.add (.spawner k) (.handle k) else s) := by
      split
      · exact builds_same hi.toBuilds rfl rfl rfl rfl
      · exact hi.toBuilds
    have hlt := lt_builds hb (k := k) (by rw [hsame.1, hl]; nofun)
    refine builds_update hb rfl le_rfl hlt (fun i _ h => hb.building i h) nofun (fun _ => ?_)
      (fun _ => ?_) fun ds' h => ?_
    · rw [hsame.1]
      exact hi.hook k ht
    · rw [hsame.1]
      exact hi.slot k (by rw [hl]; rfl)
    · cases h
      exact ⟨hd, hlast⟩
  · have hw : Workers (if .spawner ∈ ds then s.add (.spawner k) (.handle k) else s) := by
      split <;> exact ⟨hi.attached, hi.worker⟩
    refine workers_build hw rfl rfl fun _ _ _ => ?_
    simpa [Stage.hasTokio] using hrt

/-- What an ending runtime still owns, and what is left after its next drop. -/
theorem endStage_holds (d : Drop) (ds : List Drop) (hd : (d :: ds).Nodup) :
    let st : Stage := if ds = [] then .gone else .ending ds
    (d ≠ .compatSender → st.holdsSender = Stage.holdsSender (.ending (d :: ds))) ∧
      (d ≠ .runtime → st.hasTokio = Stage.hasTokio (.ending (d :: ds))) ∧
      (d ≠ .spawner → st.hasSpawner = Stage.hasSpawner (.ending (d :: ds))) ∧
      (d = .compatSender → st.holdsSender = false) ∧
      (d = .runtime → st.hasTokio = false) ∧ (d = .spawner → st.hasSpawner = false) := by
  rw [List.nodup_cons] at hd
  cases ds with
  | nil => cases d <;> simp [Stage.holdsSender, Stage.hasTokio, Stage.hasSpawner]
  | cons x xs =>
    rw [if_neg (List.cons_ne_nil x xs)]
    cases d <;> simp_all [Stage.holdsSender, Stage.hasTokio, Stage.hasSpawner]

/-- Once its threads are gone, no thread belongs to a runtime. -/
theorem gone_detached {s : State} (hi : Inv s) {k j : ℕ} (hg : s.ThreadsGone k)
    (hr : (s.worker j).rt = k) : (s.worker j).pc.attached = false := by
  by_contra ha
  rw [Bool.not_eq_false] at ha
  have hm : (Place.pool j, Place.handle k) ∈ s.refs :=
    (hi.places _ _ rfl).mpr (by simp [State.expects, Worker.pool, ha, hr])
  exact absurd (hg _ hm rfl) (by simp [Place.isPool])

theorem inv_dropNext {s : State} (hi : Inv s) {k : ℕ} {d : Drop} {ds : List Drop}
    (hl : (s.build k).stage = .ending (d :: ds)) (ht : d = .runtime → s.ThreadsGone k) :
    Inv ((s.release k d).setStage k (if ds = [] then .gone else .ending ds)) := by
  obtain ⟨hd, hlast⟩ := hi.ending k _ hl
  obtain ⟨k1, k2, k3, n1, n2, n3⟩ := endStage_holds d ds hd
  generalize hst : (if ds = [] then Stage.gone else .ending ds) = st at k1 k2 k3 n1 n2 n3 ⊢
  have hsame : (s.release k d).build = s.build ∧ (s.release k d).worker = s.worker ∧
      (s.release k d).builds = s.builds ∧ (s.release k d).building = s.building ∧
      (s.release k d).afterStart = s.afterStart := by
    cases d <;> exact ⟨rfl, rfl, rfl, rfl, rfl⟩
  refine ⟨?_, ?_, ?_⟩
  · cases d with
    | spawner =>
      refine ledger_drop hi.toLedger (p := .spawner k) rfl
        (by simp [State.expects, hl, Stage.hasSpawner])
        (by simp [State.expects, State.setStage, n3 rfl]) fun q hq => ?_
      exact expects_stage (s := s.drop (.spawner k) (.handle k))
        (fun _ => by rw [drop_build, hl, k1 nofun]) (fun _ => by rw [drop_build, hl, k2 nofun])
        fun h => absurd h hq
    | runtime =>
      refine ledger_drop hi.toLedger (p := .runtime k) rfl
        (by simp [State.expects, hl, Stage.hasTokio])
        (by simp [State.expects, State.setStage, n2 rfl]) fun q hq => ?_
      exact expects_stage (s := s.drop (.runtime k) (.handle k))
        (fun _ => by rw [drop_build, hl, k1 nofun]) (fun h => absurd h hq)
        fun _ => by rw [drop_build, hl, k3 nofun]
    | compatBg =>
      refine ledger_same hi.toLedger rfl fun q => ?_
      exact expects_stage (s := s) (fun _ => by rw [hl, k1 nofun]) (fun _ => by rw [hl, k2 nofun])
        fun _ => by rw [hl, k3 nofun]
    | compatSender =>
      refine ledger_drop hi.toLedger (p := .compatSender k) rfl
        (by simp [State.expects, hl, Stage.holdsSender])
        (by simp [State.expects, State.setStage, n1 rfl]) fun q hq => ?_
      exact expects_stage (s := s.drop (.compatSender k) (.sender k)) (fun h => absurd h hq)
        (fun _ => by rw [drop_build, hl, k2 nofun]) fun _ => by rw [drop_build, hl, k3 nofun]
  · have hb := builds_same hi.toBuilds hsame.1 hsame.2.2.1 hsame.2.2.2.1 hsame.2.2.2.2
    have hne : st ≠ .locked := by
      rw [← hst]
      split <;> nofun
    refine builds_update hb (b := { (s.release k d).build k with stage := st }) rfl le_rfl
      (lt_builds hb (by rw [hsame.1, hl]; nofun)) (fun i _ h => hb.building i h)
      (fun h => absurd h hne) (fun h => ?_) (fun _ => ?_) fun ds' h => ?_
    · -- the tokio runtime is still there, so it was before
      by_cases hd' : d = .runtime
      · exact absurd (n2 hd') (by simpa using h)
      · have h' : st.hasTokio = true := h
        rw [k2 hd', ← hl] at h'
        rw [hsame.1]
        exact hi.hook k h'
    · rw [hsame.1]
      exact hi.slot k (by rw [hl]; rfl)
    · have h' : (if ds = [] then Stage.gone else .ending ds) = .ending ds' := hst.trans h
      split at h'
      · cases h'
      next hds =>
        cases h'
        rw [List.getLast?_cons] at hlast
        exact ⟨(List.nodup_cons.mp hd).2, by
          rw [List.getLast?_eq_getLast_of_ne_nil hds] at hlast ⊢
          simpa using hlast⟩
  · have hw : Workers (s.release k d) := by
      refine ⟨?_, ?_⟩
      · rw [hsame.2.1, hsame.1]
        exact hi.attached
      · rw [hsame.2.1]
        exact hi.worker
    refine workers_build hw (b := { (s.release k d).build k with stage := st }) rfl rfl
      fun j hj hr => ?_
    rw [hsame.2.1] at hj hr
    by_cases hd' : d = .runtime
    · rw [gone_detached hi (ht hd') hr] at hj
      cases hj
    · change st.hasTokio = true
      rw [k2 hd', ← hl, ← hr]
      exact hi.attached j hj

/-- Every step of the thread-pool protocol keeps the invariant. -/
theorem step_inv {s t : State} {e : Label} (hi : Inv s)
    (h : s.step Flavor.threadPool e = some t) : Inv t := by
  cases step_cases h with
  | beginBuild hb hn => exact inv_beginBuild hi hn
  | tokioBuild hk hl hc => exact inv_tokioBuild hi hk hl hc
  | tokioFail hk hl => exact inv_tokioFail hi hk hl
  | writeSlot hk hl => exact inv_writeSlot hi hk hl
  | @unlock k hk hl =>
    exact inv_pass hi (k := k) rfl (by rw [hl]; rfl) (Or.inl rfl) (by rw [hl]; rfl)
      (by rw [hl]; rfl) (by rw [hl]; rfl) hk
  | @finish k hk hl =>
    exact inv_pass hi (k := k) rfl (by rw [hl]; rfl) (Or.inr rfl) (by rw [hl]; rfl)
      (by rw [hl]; rfl) (by rw [hl]; rfl) hk
  | spawnThread hj hs => exact inv_spawnThread hi hj hs
  | upgradeStrong hf hj => cases hf
  | upgrade hf hj ha => exact inv_upgrade hi hj
  | upgradeFailed hf hj ha => exact absurd (upgrade_succeeds hi hj) ha
  | read hj hl hs => exact inv_read hi hj hl hs
  | @readUnset j hj hl hs =>
    have hf := read_succeeds hi (j := j) (by rw [hj]; rfl) hl
    rw [hs] at hf
    cases hf
  | setGuards hj hg => exact inv_setGuards hi hj hg
  | @setGuardsPanic j sp p hj hg =>
    have hw := hi.worker j
    simp only [Worker.Ok, hj] at hw
    obtain ⟨rfl, hfresh, hnone⟩ := hw
    rw [hi.hook _ (hi.attached j (by rw [hj]; rfl)), hfresh, hnone, setGuards_fresh] at hg
    cases hg
  | threadStop hj => exact inv_threadStop hi hj
  | threadExit hj => exact inv_threadExit hi hj
  | clone hc =>
    exact ⟨ledger_clone hi.toLedger _ _, builds_same hi.toBuilds rfl rfl rfl rfl,
      ⟨hi.attached, hi.worker⟩⟩
  | release hr =>
    exact ⟨ledger_release hi.toLedger _ _, builds_same hi.toBuilds rfl rfl rfl rfl,
      ⟨hi.attached, hi.worker⟩⟩
  | endRuntime hl he => exact inv_endRuntime hi hl he
  | dropNext hl ht => exact inv_dropNext hi hl ht
  | dropBuilder hb hn =>
    have hd := (inv_dropHook hi hn).1
    exact ⟨ledger_same hd.toLedger rfl fun q => by cases q <;> rfl,
      builds_same hd.toBuilds rfl rfl rfl rfl, ⟨hd.attached, hd.worker⟩⟩

theorem run_inv {es : List Label} {s : State}
    (h : run (State.step .threadPool) new es = some s) : Inv s := by
  refine run_invariant (fun _ _ _ hi he => step_inv hi he) ?_ h
  refine ⟨⟨fun p o hp => ?_, ?_, ?_, ?_⟩, ⟨?_, ?_, ?_, ?_, ?_⟩, ⟨?_, ?_⟩⟩
  · cases p <;> simp [new, State.expects, Stage.holdsSender, Stage.hasTokio, Stage.hasSpawner,
      Worker.pool, Worker.upgraded, Worker.guarded, Worker.cloned, Pc.attached, Pc.hasSender]
  all_goals simp [new, Supported, Stage.hasTokio, Stage.filled, Pc.attached, Worker.Ok]

/-- Everything that can hold a strong reference, and to what. -/
theorem holder_cases {s : State} (hi : Inv s) {p o : Place} (hm : (p, o) ∈ s.refs) :
    s.expects p = some o ∨ (∃ n k, p = .user n ∧ o = .handle k) ∨
      ∃ k, (p = .handle k ∧ o = .closure k) ∨ (p = .sender k ∧ o = .handle k) := by
  cases p with
  | user n =>
    obtain ⟨k, rfl⟩ := hi.user n o hm
    exact Or.inr (Or.inl ⟨n, k, rfl, rfl⟩)
  | closure k | sender k | handle k => exact Or.inr (Or.inr (hi.objects _ _ rfl hm))
  | builder | compatSender k | runtime k | spawner k | pool j | upgraded j | guards j =>
    exact Or.inl ((hi.places _ _ rfl).mp hm)

/-- A gone runtime has no thread left. -/
theorem gone_no_thread {s : State} (hi : Inv s) {k : ℕ} (hk : (s.build k).stage = .gone) {j : ℕ}
    (hr : (s.worker j).rt = k) : (s.worker j).pc.attached = false := by
  by_contra ha
  have := hi.attached j (by simpa using ha)
  rw [hr, hk] at this
  cases this

/-- A gone runtime has released its slot. -/
theorem gone_sender {s : State} (hi : Inv s) {k : ℕ} (hk : (s.build k).stage = .gone) :
    ¬Alive s.refs (.sender k) := by
  rintro ⟨⟨p, o⟩, hm, rfl⟩
  rcases holder_cases hi hm with he | ⟨n, i, _, ho⟩ | ⟨i, ⟨_, ho⟩ | ⟨_, ho⟩⟩
  · cases p with
    | compatSender i =>
      obtain ⟨hs, ho⟩ := Option.ite_none_right_eq_some.mp he
      obtain rfl : i = k := by simpa using ho
      rw [hk] at hs
      cases hs
    | upgraded j =>
      obtain ⟨hs, ho⟩ := Option.ite_none_right_eq_some.mp he
      have ha := gone_no_thread hi hk (j := j) (by simpa using ho)
      revert hs ha
      cases (s.worker j).pc <;> simp [Pc.hasSender, Pc.attached]
    | builder | runtime i | spawner i | pool j | guards j =>
      simp [State.expects, Worker.pool, Worker.guarded] at he
    | user n | closure i | sender i | handle i => cases he
  · cases ho
  · cases ho
  · cases ho

/-- Of a gone runtime's tokio handle only the program has clones. -/
theorem gone_handle {s : State} (hi : Inv s) {k : ℕ} (hk : (s.build k).stage = .gone) {p : Place}
    (hm : (p, .handle k) ∈ s.refs) : ∃ n, p = .user n := by
  rcases holder_cases hi hm with he | ⟨n, i, hp, _⟩ | ⟨i, ⟨_, ho⟩ | ⟨rfl, ho⟩⟩
  · cases p with
    | runtime i =>
      obtain ⟨hs, ho⟩ := Option.ite_none_right_eq_some.mp he
      obtain rfl : i = k := by simpa using ho
      rw [hk] at hs
      cases hs
    | spawner i =>
      obtain ⟨hs, ho⟩ := Option.ite_none_right_eq_some.mp he
      obtain rfl : i = k := by simpa using ho
      rw [hk] at hs
      cases hs
    | pool j =>
      obtain ⟨hs, ho⟩ := Option.ite_none_right_eq_some.mp he
      have ha := gone_no_thread hi hk (j := j) (by simpa using ho)
      rw [ha] at hs
      cases hs
    | guards j =>
      obtain ⟨sp, hsp, ho⟩ := Option.map_eq_some_iff.mp he
      obtain rfl : sp.inner = k := by simpa using ho
      have hw := hi.worker j
      have ha : (s.worker j).rt = sp.inner → (s.worker j).pc.attached = false := gone_no_thread hi hk
      revert hsp hw ha
      unfold Worker.cloned Worker.Ok
      cases (s.worker j).pc with
      | reading sp' =>
        rintro ⟨⟩ ⟨rfl, _⟩ ha
        cases ha rfl
      | running =>
        rintro hsp ⟨_, hg⟩ ha
        rw [hg] at hsp
        cases hsp
        cases ha rfl
      | absent | started | upgraded | stopping | exited | panicked p => nofun
    | builder | compatSender i | upgraded j =>
      simp [State.expects, Worker.upgraded] at he
    | user n | closure i | sender i | handle i => cases he
  · exact ⟨n, hp⟩
  · cases ho
  · -- the slot could hold it only while something holds the slot
    cases ho
    rcases hi.supported _ hm with hr | ha
    · cases hr
    · exact absurd ha (gone_sender hi hk)

/-- Start-up and release of thread-pool runtimes, in every run of one `Builder`:
no hook panics; between its start and stop hooks a thread has the defaults of
its own runtime; and once a runtime is gone, nothing holds its slot and only
clones of the program hold its tokio handle. -/
theorem pool_startup_and_release {es : List Label} {s : State}
    (h : run (State.step .threadPool) new es = some s) :
    (∀ j p, (s.worker j).pc ≠ .panicked p) ∧
      (∀ j, (s.worker j).pc = .running →
        (s.worker j).slots.executor = some (.compat ⟨(s.worker j).rt, (s.worker j).rt⟩) ∧
          (s.worker j).slots.timer = some (.background (s.worker j).rt) ∧
          (s.worker j).slots.reactor = some (.background (s.worker j).rt)) ∧
      ∀ k, (s.build k).stage = .gone →
        ¬Alive s.refs (.sender k) ∧ ∀ p, (p, .handle k) ∈ s.refs → ∃ n, p = .user n := by
  have hi := run_inv h
  refine ⟨fun j p hp => ?_, fun j hj => ?_, fun k hk => ?_⟩
  · have hw := hi.worker j
    simp only [Worker.Ok, hp] at hw
  · have hw := hi.worker j
    simp only [Worker.Ok, hj] at hw
    rw [hw.1]
    exact ⟨rfl, rfl, rfl⟩
  · exact ⟨gone_sender hi hk, fun p hm => gone_handle hi hk hm⟩

/-- Two runtimes of one `Builder`: a thread of the first starts while the slot
is locked and runs until the first runtime shuts down; the second lives on. -/
theorem pool_startup_and_release_run :
    ∃ s, run (State.step .threadPool) new
        [.beginBuild, .tokioBuild, .spawnThread 0 0, .upgrade 0, .writeSlot, .unlock, .finish,
          .beginBuild, .read 0, .tokioBuild, .setGuards 0, .writeSlot, .unlock, .finish,
          .endRuntime 0 .shutdownOnIdle, .dropNext 0, .threadStop 0, .threadExit 0, .dropNext 0,
          .dropNext 0, .dropNext 0] = some s ∧
      (s.build 0).stage = .gone ∧ ¬Alive s.refs (.sender 0) := by
  refine ⟨_, rfl, rfl, ?_⟩
  exact ((@pool_startup_and_release
    [.beginBuild, .tokioBuild, .spawnThread 0 0, .upgrade 0, .writeSlot, .unlock, .finish,
      .beginBuild, .read 0, .tokioBuild, .setGuards 0, .writeSlot, .unlock, .finish,
      .endRuntime 0 .shutdownOnIdle, .dropNext 0, .threadStop 0, .threadExit 0, .dropNext 0,
      .dropNext 0, .dropNext 0] _ rfl).2.2 0 rfl).1

end TokioCompat.Startup
