import Mathlib.Data.Finset.Card

/-!
# Shared ownership by strong references

A strong reference has a holder and a target. Holders are either places of
the program, which release their references explicitly, or shared objects,
which release theirs once nothing refers to them any more. Dropping a
reference therefore removes it together with everything that is no longer
supported by a place; cycles of objects support one another and stay.
-/

namespace TokioCompat.Ownership

variable {ν : Type*}

/-- Something refers to the object, so a weak reference to it can be upgraded. -/
def Alive (refs : Finset (ν × ν)) (o : ν) : Prop := ∃ r ∈ refs, r.2 = o

theorem alive_of_mem {refs : Finset (ν × ν)} {p o : ν} (h : (p, o) ∈ refs) : Alive refs o :=
  ⟨(p, o), h, rfl⟩

variable [DecidableEq ν] (root : ν → Bool)

instance (refs : Finset (ν × ν)) (o : ν) : Decidable (Alive refs o) :=
  inferInstanceAs (Decidable (∃ r ∈ refs, r.2 = o))

/-- Every holder is a place or an object that something refers to. -/
def Supported (refs : Finset (ν × ν)) : Prop :=
  ∀ r ∈ refs, root r.1 = true ∨ Alive refs r.1

/-- Release what objects without a reference held. -/
def sweep (refs : Finset (ν × ν)) : Finset (ν × ν) :=
  refs.filter fun r => root r.1 = true ∨ Alive refs r.1

/-- Sweep until nothing changes; each sweep before that removes a reference. -/
def collect (refs : Finset (ν × ν)) : Finset (ν × ν) := (sweep root)^[refs.card] refs

/-- Drop one reference, and with it whatever only it supported. -/
def drop (refs : Finset (ν × ν)) (r : ν × ν) : Finset (ν × ν) := collect root (refs.erase r)

variable {root}

theorem sweep_subset (refs : Finset (ν × ν)) : sweep root refs ⊆ refs := Finset.filter_subset _ _

/-- A supported set of references survives every sweep of a larger set. -/
theorem subset_sweep {s refs : Finset (ν × ν)} (hs : Supported root s) (h : s ⊆ refs) :
    s ⊆ sweep root refs := by
  intro r hr
  refine Finset.mem_filter.mpr ⟨h hr, (hs r hr).imp_right ?_⟩
  rintro ⟨q, hq, he⟩
  exact ⟨q, h hq, he⟩

theorem iterate_subset (n : ℕ) (refs : Finset (ν × ν)) : (sweep root)^[n] refs ⊆ refs := by
  induction n generalizing refs with
  | zero => exact subset_rfl
  | succ n ih => exact (ih _).trans (sweep_subset refs)

theorem subset_iterate {s refs : Finset (ν × ν)} (hs : Supported root s) (n : ℕ) (h : s ⊆ refs) :
    s ⊆ (sweep root)^[n] refs := by
  induction n generalizing refs with
  | zero => exact h
  | succ n ih => exact ih (subset_sweep hs h)

/-- As many sweeps as there are references reach a fixed point. -/
theorem iterate_fixed {n : ℕ} {refs : Finset (ν × ν)} (h : refs.card ≤ n) :
    sweep root ((sweep root)^[n] refs) = (sweep root)^[n] refs := by
  induction n generalizing refs with
  | zero =>
    rw [Finset.card_eq_zero.mp (Nat.le_zero.mp h)]
    rfl
  | succ n ih =>
    by_cases hf : sweep root refs = refs
    · rw [Function.iterate_fixed hf, hf]
    · have := Finset.card_lt_card ((sweep_subset refs).ssubset_of_ne hf)
      exact ih (by omega)

/-- A fixed point of the sweep is supported. -/
theorem supported_of_fixed {refs : Finset (ν × ν)} (h : sweep root refs = refs) :
    Supported root refs := by
  intro r hr
  rw [← h] at hr
  exact (Finset.mem_filter.mp hr).2

theorem drop_subset (refs : Finset (ν × ν)) (r : ν × ν) : drop root refs r ⊆ refs.erase r :=
  iterate_subset _ _

/-- After a drop every remaining holder is supported. -/
theorem drop_supported (refs : Finset (ν × ν)) (r : ν × ν) : Supported root (drop root refs r) :=
  supported_of_fixed (iterate_fixed le_rfl)

/-- A drop leaves every supported set that does not contain the reference. -/
theorem subset_drop {s refs : Finset (ν × ν)} {r : ν × ν} (hs : Supported root s) (h : s ⊆ refs)
    (hr : r ∉ s) : s ⊆ drop root refs r :=
  subset_iterate hs _ fun _ hq => Finset.mem_erase.mpr ⟨fun he => hr (he ▸ hq), h hq⟩

/-- A drop leaves every other reference that a place holds. -/
theorem mem_drop {refs : Finset (ν × ν)} {p o : ν} {r : ν × ν} (hp : root p = true)
    (h : (p, o) ∈ refs) (hr : (p, o) ≠ r) : (p, o) ∈ drop root refs r := by
  have hs : Supported root {(p, o)} := fun q hq => Or.inl (by rwa [Finset.mem_singleton.mp hq])
  exact subset_drop hs (Finset.singleton_subset_iff.mpr h)
    (fun he => hr (Finset.mem_singleton.mp he).symm) (Finset.mem_singleton_self _)

theorem mem_of_mem_drop {refs : Finset (ν × ν)} {q r : ν × ν} (h : q ∈ drop root refs r) :
    q ≠ r ∧ q ∈ refs := Finset.mem_erase.mp (drop_subset refs r h)

/-- A drop leaves the largest supported set without the reference. -/
theorem drop_eq {s refs : Finset (ν × ν)} {r : ν × ν} (hs : Supported root s)
    (hsub : s ⊆ refs.erase r) (hmax : ∀ u, u ⊆ refs.erase r → Supported root u → u ⊆ s) :
    drop root refs r = s := by
  apply Finset.Subset.antisymm
  · exact hmax _ (drop_subset refs r) (drop_supported refs r)
  · have hsr : s ⊆ refs := hsub.trans (Finset.erase_subset r refs)
    exact subset_drop hs hsr fun hm => Finset.notMem_erase r refs (hsub hm)

/-- Where everything else stays supported, a drop removes one reference. -/
theorem drop_eq_erase {refs : Finset (ν × ν)} {r : ν × ν} (h : Supported root (refs.erase r)) :
    drop root refs r = refs.erase r := drop_eq h subset_rfl fun _ hu _ => hu

/-- A new reference whose holder is a place or alive keeps the set supported. -/
theorem supported_insert {refs : Finset (ν × ν)} {p o : ν} (hs : Supported root refs)
    (hp : root p = true ∨ Alive refs p) : Supported root (insert (p, o) refs) := by
  have up : ∀ {n}, Alive refs n → Alive (insert (p, o) refs) n := fun ⟨q, hq, he⟩ =>
    ⟨q, Finset.mem_insert_of_mem hq, he⟩
  intro r hr
  rcases Finset.mem_insert.mp hr with rfl | hr
  · exact hp.imp_right up
  · exact (hs r hr).imp_right up

end TokioCompat.Ownership
