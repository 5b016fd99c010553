import Mathlib.Data.List.Basic

/-!
# Scoped guards on a mutable context

A guard changes a context when it is acquired and undoes the change when it
is dropped; acquiring may panic instead. Guards that are locals of one
function are dropped latest first, on a return and on a panic alike. Whatever
holds of a single guard is lifted here to the list of guards a scope holds.
-/

namespace TokioCompat.Scope

variable {σ γ π : Type*}

/-- A family of guards over a context, each undone exactly by its release. -/
structure Guards (σ γ π : Type*) where
  /-- The panic, if any, and the context after the attempt. -/
  acquire : γ → σ → Option π × σ
  /-- What dropping the guard does. -/
  release : γ → σ → σ
  release_acquire : ∀ {g s t}, acquire g s = (none, t) → release g t = s

namespace Guards

/-- Acquiring the listed guards, the latest first, led from `s` to `t`. -/
def Held (G : Guards σ γ π) (s : σ) : List γ → σ → Prop
  | [], t => t = s
  | g :: gs, t => ∃ m, G.Held s gs m ∧ G.acquire g m = (none, t)

/-- Drop the listed guards, the latest first. -/
def releaseAll (G : Guards σ γ π) : List γ → σ → σ
  | [], t => t
  | g :: gs, t => G.releaseAll gs (G.release g t)

variable {G : Guards σ γ π}

/-- Dropping every guard of a scope restores the context it began with. -/
theorem releaseAll_held {s t : σ} {gs : List γ} (h : G.Held s gs t) : G.releaseAll gs t = s := by
  induction gs generalizing t with
  | nil => exact h
  | cons g gs ih =>
    obtain ⟨m, hm, hg⟩ := h
    rw [releaseAll, G.release_acquire hg]
    exact ih hm

/-- A relation kept by each acquisition relates the two ends of a scope. -/
theorem held_rel {R : σ → σ → Prop} (hr : ∀ s, R s s) (ht : ∀ {a b c}, R a b → R b c → R a c)
    (hg : ∀ {g s t}, G.acquire g s = (none, t) → R s t) {s t : σ} {gs : List γ}
    (h : G.Held s gs t) : R s t := by
  induction gs generalizing t with
  | nil =>
    subst h
    exact hr _
  | cons g gs ih =>
    obtain ⟨m, hm, ha⟩ := h
    exact ht (ih hm) (hg ha)

/-- What a held guard establishes, and later acquisitions keep, holds. -/
theorem held_mem {P : σ → Prop} {g : γ} (hp : ∀ {s t}, G.acquire g s = (none, t) → P t)
    (hk : ∀ {f s t}, G.acquire f s = (none, t) → P s → P t) {s t : σ} {gs : List γ}
    (h : G.Held s gs t) (hm : g ∈ gs) : P t := by
  induction gs generalizing t with
  | nil => cases hm
  | cons f gs ih =>
    obtain ⟨m, hh, ha⟩ := h
    rcases List.mem_cons.mp hm with rfl | hm
    · exact hp ha
    · exact hk ha (ih hh hm)

end Guards

end TokioCompat.Scope
