import Mathlib.Data.List.Basic
import Mathlib.Data.List.Induction

/-!
# Labelled transition systems with executable steps

A step either yields the next state or is refused. Runs follow a literal
list of labels, so every schedule of a concurrent system is one such list.
The file supplies composition of runs, the invariant rule, the rule for
facts that also mention the labels already taken, step counting along a run,
and forward simulation between two systems.
-/

namespace TokioCompat.Transition

/-- The next state, or `none` when the label is not enabled. -/
abbrev Step (σ ε : Type*) := σ → ε → Option σ

variable {σ ε τ δ : Type*}

/-- Follow the labels in order; a refused label refuses the whole run. -/
def run (step : Step σ ε) : σ → List ε → Option σ
  | s, [] => some s
  | s, e :: es => (step s e).bind fun t => run step t es

/-- Runs compose along concatenated label lists. -/
theorem run_append (step : Step σ ε) (s : σ) (xs ys : List ε) :
    run step s (xs ++ ys) = (run step s xs).bind fun t => run step t ys := by
  induction xs generalizing s with
  | nil => rfl
  | cons e xs ih =>
    simp only [List.cons_append, run]
    cases step s e with
    | none => rfl
    | some t => simpa only [Option.bind_some] using ih t

/-- A one-label run is one step. -/
theorem run_single (step : Step σ ε) (s : σ) (e : ε) : run step s [e] = step s e := by
  simp only [run]
  cases step s e <;> rfl

/-- A run that ends with label `e` is a run followed by one step. -/
theorem run_concat {step : Step σ ε} {s u : σ} {es : List ε} {e : ε} :
    run step s (es ++ [e]) = some u ↔ ∃ t, run step s es = some t ∧ step t e = some u := by
  rw [run_append, Option.bind_eq_some_iff]
  simp only [run_single]

/-- A run that begins with label `e` is one step followed by a run. -/
theorem run_cons {step : Step σ ε} {s u : σ} {es : List ε} {e : ε} :
    run step s (e :: es) = some u ↔ ∃ t, step s e = some t ∧ run step t es = some u := by
  simp only [run, Option.bind_eq_some_iff]

/-- Facts about a state and the labels that led to it hold of every run
when they hold of the empty one and each step extends them. -/
theorem run_history {step : Step σ ε} {s : σ} {P : List ε → σ → Prop} (h0 : P [] s)
    (hs : ∀ es t e u, run step s es = some t → P es t → step t e = some u → P (es ++ [e]) u)
    {es : List ε} {t : σ} (h : run step s es = some t) : P es t := by
  induction es using List.reverseRecOn generalizing t with
  | nil =>
    cases h
    exact h0
  | append_singleton es e ih =>
    obtain ⟨m, hm, he⟩ := run_concat.mp h
    exact hs es m e t hm (ih hm) he

/-- The invariant rule: what one step preserves, every run preserves. -/
theorem run_invariant {step : Step σ ε} {P : σ → Prop}
    (hs : ∀ t e u, P t → step t e = some u → P u)
    {s t : σ} {es : List ε} (h0 : P s) (h : run step s es = some t) : P t :=
  run_history (P := fun _ u => P u) h0 (fun _ t e u _ hp he => hs t e u hp he) h

/-- The measure rule: when each allowed step keeps `P` and lowers `μ`, a run of
allowed steps is no longer than `μ` was at its start. -/
theorem run_bounded {step : Step σ ε} {P : σ → Prop} {L : ε → Prop} (μ : σ → ℕ)
    (hs : ∀ s e t, P s → L e → step s e = some t → P t ∧ μ t < μ s)
    {es : List ε} {s t : σ} (hp : P s) (hl : ∀ e ∈ es, L e) (h : run step s es = some t) :
    P t ∧ es.length + μ t ≤ μ s := by
  induction es generalizing s with
  | nil =>
    cases h
    exact ⟨hp, by simp⟩
  | cons e es ih =>
    obtain ⟨m, hm, hr⟩ := run_cons.mp h
    obtain ⟨hpm, hlt⟩ := hs s e m hp (hl e (List.mem_cons_self ..)) hm
    obtain ⟨hpt, hle⟩ := ih hpm (fun f hf => hl f (List.mem_cons_of_mem e hf)) hr
    refine ⟨hpt, ?_⟩
    rw [List.length_cons]
    omega

/-- The progress rule: when moreover some allowed step is possible until the
goal is reached, allowed steps lead there. -/
theorem run_reaches {step : Step σ ε} {P G : σ → Prop} {L : ε → Prop} (μ : σ → ℕ)
    (hs : ∀ s e t, P s → L e → step s e = some t → P t ∧ μ t < μ s)
    (hg : ∀ s, P s → G s ∨ ∃ e t, L e ∧ step s e = some t) {s : σ} (hp : P s) :
    ∃ es t, (∀ e ∈ es, L e) ∧ run step s es = some t ∧ G t := by
  induction hn : μ s using Nat.strongRecOn generalizing s with
  | ind n ih =>
    rcases hg s hp with hgs | ⟨e, m, he, hm⟩
    · exact ⟨[], s, nofun, rfl, hgs⟩
    · obtain ⟨hpm, hlt⟩ := hs s e m hp he hm
      obtain ⟨es, t, hes, hr, hgt⟩ := ih (μ m) (hn ▸ hlt) hpm rfl
      refine ⟨e :: es, t, fun f hf => ?_, run_cons.mpr ⟨m, hm, hr⟩, hgt⟩
      rcases List.mem_cons.mp hf with rfl | hf
      · exact he
      · exact hes f hf

/-- The run along `es` from `s` passes through `t`. -/
def Visits (step : Step σ ε) (s : σ) (es : List ε) (t : σ) : Prop :=
  ∃ xs ys, es = xs ++ ys ∧ run step s xs = some t

/-- The run along `es` from `s` takes the step labelled `e` from `t`. -/
def Takes (step : Step σ ε) (s : σ) (es : List ε) (t : σ) (e : ε) : Prop :=
  ∃ xs ys, es = xs ++ e :: ys ∧ run step s xs = some t

theorem visits_last {step : Step σ ε} {s t : σ} {es : List ε} (h : run step s es = some t) :
    Visits step s es t := ⟨es, [], (List.append_nil es).symm, h⟩

theorem visits_append {step : Step σ ε} {s t : σ} {es : List ε} (h : Visits step s es t)
    (fs : List ε) : Visits step s (es ++ fs) t := by
  obtain ⟨xs, ys, rfl, hx⟩ := h
  exact ⟨xs, ys ++ fs, List.append_assoc xs ys fs, hx⟩

/-- A run that begins with `e` visits its start and what the rest visits. -/
theorem visits_step {step : Step σ ε} {s m t : σ} {e : ε} {es : List ε} (hm : step s e = some m)
    (h : Visits step s (e :: es) t) : t = s ∨ Visits step m es t := by
  obtain ⟨xs, ys, he, hx⟩ := h
  cases xs with
  | nil => exact Or.inl (Option.some.inj hx).symm
  | cons f xs =>
    obtain ⟨rfl, rfl⟩ := List.cons.inj he
    obtain ⟨m', hm', hr⟩ := run_cons.mp hx
    rw [hm] at hm'
    exact Or.inr ⟨xs, ys, rfl, Option.some.inj hm' ▸ hr⟩

theorem takes_last {step : Step σ ε} {s t : σ} {es : List ε} (e : ε)
    (h : run step s es = some t) : Takes step s (es ++ [e]) t e := ⟨es, [], rfl, h⟩

theorem takes_append {step : Step σ ε} {s t : σ} {es : List ε} {e : ε}
    (h : Takes step s es t e) (fs : List ε) : Takes step s (es ++ fs) t e := by
  obtain ⟨xs, ys, rfl, hx⟩ := h
  exact ⟨xs, ys ++ fs, by simp, hx⟩

/-- Evaluate `p` at every state a run visits. -/
def always (step : Step σ ε) (p : σ → Bool) : σ → List ε → Bool
  | s, [] => p s
  | s, e :: es => p s && ((step s e).map fun t => always step p t es).getD true

/-- The evaluation speaks about the visited states. -/
theorem always_visits {step : Step σ ε} {p : σ → Bool} {s t : σ} {es : List ε}
    (h : always step p s es = true) (hv : Visits step s es t) : p t = true := by
  obtain ⟨xs, ys, rfl, hx⟩ := hv
  induction xs generalizing s with
  | nil =>
    obtain rfl := Option.some.inj hx
    cases ys with
    | nil => exact h
    | cons e ys =>
      rw [List.nil_append, always, Bool.and_eq_true] at h
      exact h.1
  | cons e xs ih =>
    obtain ⟨m, hm, hr⟩ := run_cons.mp hx
    rw [List.cons_append, always, hm, Bool.and_eq_true] at h
    exact ih hr h.2

/-- How many steps of the run satisfy `p`, read at the state before each. -/
def count (step : Step σ ε) (p : σ → ε → Bool) : σ → List ε → ℕ
  | _, [] => 0
  | s, e :: es => (p s e).toNat + ((step s e).map fun t => count step p t es).getD 0

/-- Counting along one more step. -/
theorem count_concat {step : Step σ ε} (p : σ → ε → Bool) {s t u : σ} {es : List ε} {e : ε}
    (h : run step s es = some t) (hu : step t e = some u) :
    count step p s (es ++ [e]) = count step p s es + (p t e).toNat := by
  induction es generalizing s with
  | nil =>
    cases h
    simp only [List.nil_append, count, hu, Option.map_some, Option.getD_some]
    omega
  | cons f es ih =>
    obtain ⟨m, hm, hr⟩ := run_cons.mp h
    simp only [List.cons_append, count, hm, Option.map_some, Option.getD_some, ih hr]
    omega

/-- A forward simulation: each concrete step from a state in `good` becomes the
listed abstract steps between the abstracted states. -/
structure Simulation (step : Step σ ε) (astep : Step τ δ) where
  /-- States for which the simulation is claimed. -/
  good : σ → Prop
  /-- The abstract state. -/
  abs : σ → τ
  /-- The abstract labels of one concrete step. -/
  emit : σ → ε → List δ
  step_good : ∀ s e t, good s → step s e = some t → good t
  step_abs : ∀ s e t, good s → step s e = some t → run astep (abs s) (emit s e) = some (abs t)

/-- The abstract labels of a whole run. -/
def Simulation.emits {step : Step σ ε} {astep : Step τ δ} (R : Simulation step astep) :
    σ → List ε → List δ
  | _, [] => []
  | s, e :: es => R.emit s e ++ ((step s e).map fun t => R.emits t es).getD []

/-- The labels of a longer run extend those of the shorter one. -/
theorem Simulation.emits_concat {step : Step σ ε} {astep : Step τ δ} (R : Simulation step astep)
    {s t u : σ} {es : List ε} {e : ε} (h : run step s es = some t) (hu : step t e = some u) :
    R.emits s (es ++ [e]) = R.emits s es ++ R.emit t e := by
  induction es generalizing s with
  | nil =>
    cases h
    simp [Simulation.emits, hu]
  | cons f es ih =>
    obtain ⟨m, hm, hr⟩ := run_cons.mp h
    simp only [List.cons_append, Simulation.emits, hm, Option.map_some, Option.getD_some, ih hr,
      List.append_assoc]

/-- Every run of the concrete system is a run of the abstract one. -/
theorem Simulation.run_abs {step : Step σ ε} {astep : Step τ δ} (R : Simulation step astep)
    {s t : σ} {es : List ε} (hg : R.good s) (h : run step s es = some t) :
    run astep (R.abs s) (R.emits s es) = some (R.abs t) := by
  induction es generalizing s with
  | nil =>
    cases h
    rfl
  | cons e es ih =>
    obtain ⟨m, hm, hr⟩ := run_cons.mp h
    simp only [Simulation.emits, hm, Option.map_some, Option.getD_some]
    rw [run_append, R.step_abs s e m hg hm]
    exact ih (R.step_good s e m hg hm) hr

end TokioCompat.Transition
