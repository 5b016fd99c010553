import TokioCompat.Transition
import Mathlib.Data.Finset.Card
import Mathlib.Data.Finset.Range

/-!
# What keeps a runtime alive

The abstract rule behind the idle trackers: each runtime is kept alive by a
set of obligations. One is incurred before a task is handed over and discharged
when the task has ended; a runtime may stop when its set is empty. Neither
what an obligation stands for nor how it is counted matters here.
-/

namespace TokioCompat.KeepAlive

open Transition

variable {ρ κ : Type*} [DecidableEq ρ] [DecidableEq κ]

/-- The obligations of each runtime. -/
abbrev State (ρ κ : Type*) := ρ → Finset κ

/-- The two ways in which the obligations of a runtime change. -/
inductive Label (ρ κ : Type*) where
  | incur (r : ρ) (n : κ)
  | discharge (r : ρ) (n : κ)

/-- Incur an obligation that is not there, or discharge one that is. -/
def step (s : State ρ κ) : Label ρ κ → Option (State ρ κ)
  | .incur r n => if n ∉ s r then some (Function.update s r (insert n (s r))) else none
  | .discharge r n => if n ∈ s r then some (Function.update s r ((s r).erase n)) else none

/-- Nothing keeps any runtime alive. -/
def idle : State ρ κ := fun _ => ∅

/-- The obligations that a list of labels incurs or discharges on a runtime. -/
def Label.incurs (r : ρ) : Label ρ κ → Bool
  | .incur k _ => k = r
  | .discharge _ _ => false

def Label.discharges (r : ρ) : Label ρ κ → Bool
  | .incur _ _ => false
  | .discharge k _ => k = r

/-- One step moves the number of obligations by its own obligation alone. -/
theorem step_card {s t : State ρ κ} {e : Label ρ κ} (h : step s e = some t) (r : ρ) :
    (t r).card + (e.discharges r).toNat = (s r).card + (e.incurs r).toNat := by
  cases e with
  | incur k n =>
    obtain ⟨hn, ⟨⟩⟩ := Option.ite_none_right_eq_some.mp h
    by_cases hk : k = r
    · subst hk
      simp [Label.incurs, Label.discharges, Finset.card_insert_of_notMem hn]
    · simp [Label.incurs, Label.discharges, hk, Function.update_of_ne (Ne.symm hk)]
  | discharge k n =>
    obtain ⟨hn, ⟨⟩⟩ := Option.ite_none_right_eq_some.mp h
    by_cases hk : k = r
    · subst hk
      simp [Label.incurs, Label.discharges, Finset.card_erase_add_one hn]
    · simp [Label.incurs, Label.discharges, hk, Function.update_of_ne (Ne.symm hk)]

/-- A runtime has as many obligations as were incurred and not discharged. -/
theorem run_card {s : State ρ κ} {es : List (Label ρ κ)} (h : run step idle es = some s) (r : ρ) :
    (s r).card + es.countP (·.discharges r) = es.countP (·.incurs r) := by
  refine run_history (P := fun es s => (s r).card + es.countP (·.discharges r) =
    es.countP (·.incurs r)) rfl ?_ h
  intro es s e t _ ih ht
  have hs := step_card ht r
  have single : ∀ p : Label ρ κ → Bool, [e].countP p = (p e).toNat := fun p => by
    rw [List.countP_singleton]
    cases p e <;> rfl
  rw [List.countP_append, List.countP_append, single, single]
  omega

end TokioCompat.KeepAlive
