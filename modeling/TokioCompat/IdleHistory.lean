import TokioCompat.IdleCount
import Mathlib.Logic.Relation

/-!
# Runs of the tracker and the tree of counted spawns

The phase of a reservation says exactly which of its steps the run has taken
and how often. Reservations made while a tracked task is polled form a tree;
once every reservation of a state has been decremented, none of them can be
polled again, so no later reservation descends from them.
-/

namespace TokioCompat.Idle

open Channel Transition

variable {w : ℕ}

/-- Phases after the wrapped future resolved. -/
def Phase.afterResolve : Phase → Bool
  | .resolved | .notifying | .finished => true
  | .reserved | .handed | .polling | .lost => false

/-- If the labels `L i` are exactly those that bring reservation `i` into the
set `q` of phases, which it never leaves, then counting them reads off the phase. -/
theorem history_count {L : ℕ → Label} {q : Phase → Bool} (hL : ∀ i, (L i).track = some i)
    (h0 : q .reserved = false)
    (ha : ∀ e i p p', Advances e i p p' →
      (q p').toNat = (q p).toNat + if e = L i then 1 else 0)
    {es : List Label} {s : State w} (h : run State.step (new w) es = some s) (i : ℕ) :
    es.count (L i) = (s.phaseIs i q).toNat := by
  refine run_history
    (P := fun es s => es.count (L i) = (s.phaseIs i q).toNat) rfl ?_ h
  intro es s e t _ ih he
  rw [List.count_append, List.count_singleton, ih]
  rcases step_tracks he with ⟨parent, rfl, _, ht⟩ | ⟨j, c, p, hc, hadv, ht⟩ | ⟨hn, _, ht⟩
  · have hne : (Label.reserve parent == L i) = false :=
      beq_eq_false_iff_ne.mpr fun hf => by have hx := hL i; rw [← hf] at hx; cases hx
    rw [phaseIs_append i q ht, hne]
    by_cases hi : i = s.tracks.length
    · rw [if_pos hi, h0, State.phaseIs, List.getElem?_eq_none (by omega)]
      rfl
    · simp [hi]
  · rw [phaseIs_set i q hc ht]
    by_cases hij : i = j
    · subst hij
      rw [if_pos rfl, ha e i c.phase p hadv, phaseIs_of_tracks hc q]
      by_cases hel : e = L i <;> simp [hel]
    · have hne : (e == L i) = false :=
        beq_eq_false_iff_ne.mpr fun hf => by
          have h1 := advances_track hadv
          rw [hf, hL i] at h1
          exact hij (Option.some.inj h1)
      rw [if_neg hij, hne]
      simp
  · have hne : (e == L i) = false :=
      beq_eq_false_iff_ne.mpr fun hf => by rw [hf, hL i] at hn; cases hn
    rw [phaseIs_congr q (by rw [ht]), hne]
    simp

/-- The decrement of a reservation happens at most once, and it has happened
exactly when the phase says so. -/
theorem fetchSub_count {es : List Label} {s : State w}
    (h : run State.step (new w) es = some s) (i : ℕ) :
    es.count (.fetchSub i) = (s.phaseIs i Phase.decremented).toNat := by
  refine history_count (L := .fetchSub) (fun _ => rfl) rfl ?_ h i
  intro e j p p' ha
  cases ha with
  | @move _ m _ _ hm => cases m <;> cases p <;> cases hm <;> rfl
  | @lose _ l => cases l <;> rfl
  | _ => simp [Phase.decremented]

/-- A tracked future resolves at most once, exactly when the phase says so. -/
theorem resolve_count {es : List Label} {s : State w}
    (h : run State.step (new w) es = some s) (i : ℕ) :
    es.count (.move i .resolve) = (s.phaseIs i Phase.afterResolve).toNat := by
  refine history_count (L := fun i => .move i .resolve) (fun _ => rfl) rfl ?_ h i
  intro e j p p' ha
  cases ha with
  | @move _ m _ _ hm => cases m <;> cases p <;> cases hm <;> simp [Phase.afterResolve]
  | @lose _ l => cases l <;> simp [Phase.afterResolve, Loss.phase]
  | _ => simp [Phase.afterResolve]

/-- Being in a phase of `q` means that the label counted by `q` was taken. -/
theorem mem_of_count {es : List Label} {e : Label} {b : Bool} (h : es.count e = b.toNat)
    (hb : b = true) : e ∈ es := by
  rw [hb, Bool.toNat_true] at h
  exact List.count_pos_iff.mp (by omega)

/-- A decrement is always preceded by the resolution of the same future. -/
theorem resolve_before_fetchSub {xs ys : List Label} {i : ℕ} {s : State w}
    (h : run State.step (new w) (xs ++ .fetchSub i :: ys) = some s) :
    .move i .resolve ∈ xs := by
  rw [run_append, Option.bind_eq_some_iff] at h
  obtain ⟨t, ht, hr⟩ := h
  obtain ⟨u, hu, _⟩ := run_cons.mp hr
  obtain ⟨c, hc, hp, _⟩ := step_fetchSub.mp hu
  refine mem_of_count (resolve_count ht i) ?_
  rw [phaseIs_of_tracks hc, hp]
  rfl

/-! ### Counted spawns -/

/-- Reservation `j` was made while the tracked task `i` was being polled. -/
def State.Spawned (s : State w) (i j : ℕ) : Prop := ∃ c, s.tracks[j]? = some c ∧ c.parent = some i

/-- `j` is reachable from `i` through counted spawns, to any depth. -/
def State.Descends (s : State w) : ℕ → ℕ → Prop := Relation.ReflTransGen s.Spawned

/-- Decremented reservations never leave that set of phases. -/
theorem advances_decremented {e : Label} {i : ℕ} {p p' : Phase} (h : Advances e i p p')
    (hp : p.decremented = true) : p'.decremented = true := by
  cases h with
  | @move _ m _ _ hm => cases m <;> cases p <;> simp [Move.next, Phase.decremented] at hm hp
  | @lose _ l => cases l <;> cases hp
  | notify => rfl
  | finish => rfl
  | send => rfl

/-- From a state in which the first `n` reservations are decremented, they stay
so and every later reservation descends from a later one or from none. -/
structure Closed (n : ℕ) (s : State w) : Prop where
  le : n ≤ s.tracks.length
  done : ∀ i < n, s.phaseIs i Phase.decremented = true
  later : ∀ i j, n ≤ j → s.Spawned i j → n ≤ i

theorem step_closed {n : ℕ} {s t : State w} {e : Label} (hc : Closed n s)
    (h : s.step e = some t) : Closed n t := by
  rcases step_tracks h with ⟨parent, rfl, hp, ht⟩ | ⟨j, c, p, hj, ha, ht⟩ | ⟨_, _, ht⟩
  · refine ⟨by rw [ht, List.length_append]; exact Nat.le_add_right_of_le hc.le, ?_, ?_⟩
    · intro i hi
      have hne : i ≠ s.tracks.length := by have := hc.le; omega
      rw [phaseIs_append i _ ht, if_neg hne]
      exact hc.done i hi
    · rintro i j hnj ⟨d, hd, hdp⟩
      rw [ht, List.getElem?_append] at hd
      split at hd
      · exact hc.later i j hnj ⟨d, hd, hdp⟩
      · -- the new reservation: its parent is being polled, hence not decremented
        by_contra hlt
        have hdone := hc.done i (by omega)
        have hd' : d = ⟨parent, .reserved⟩ := by
          rw [List.getElem?_singleton] at hd
          split at hd <;> simp_all
        subst hd'
        have hpoll := hp i (by simpa using hdp)
        unfold State.phaseIs at hdone
        cases hs : s.tracks[i]? with
        | none => simp [hs] at hpoll
        | some d' =>
          rw [hs] at hpoll hdone
          simp only [Option.map_some, Option.some.injEq] at hpoll
          simp [hpoll, Phase.decremented] at hdone
  · refine ⟨by rw [ht, List.length_set]; exact hc.le, ?_, ?_⟩
    · intro i hi
      have hd := hc.done i hi
      by_cases hij : i = j
      · subst hij
        rw [phaseIs_of_tracks hj] at hd
        rw [phaseIs_set i _ hj ht, if_pos rfl]
        exact advances_decremented ha hd
      · rw [phaseIs_set i _ hj ht, if_neg hij]
        exact hd
    · rintro i k hnk ⟨d, hd, hdp⟩
      rw [ht, List.getElem?_set] at hd
      split at hd
      · rename_i hjk
        subst hjk
        split at hd
        · obtain rfl := Option.some.inj hd
          exact hc.later i j hnk ⟨c, hj, hdp⟩
        · cases hd
      · exact hc.later i k hnk ⟨d, hd, hdp⟩
  · refine ⟨ht ▸ hc.le, ?_, ?_⟩
    · intro i hi
      rw [phaseIs_congr (s := s) _ (by rw [ht])]
      exact hc.done i hi
    · rintro i j hnj ⟨d, hd, hdp⟩
      rw [ht] at hd
      exact hc.later i j hnj ⟨d, hd, hdp⟩

/-- Descendants of the first `n` reservations are among the first `n`: the
induction is on the depth of the spawn. -/
theorem descends_lt {n : ℕ} {s : State w} (hc : Closed n s) {i j : ℕ} (hi : i < n)
    (h : s.Descends i j) : j < n := by
  induction h with
  | refl => exact hi
  | @tail j k _ hjk ih =>
    by_contra hk
    have hj := hc.later j k (by omega) hjk
    omega

/-- A state whose reservations are all decremented is closed at its length. -/
theorem closed_of_outstanding_zero {s : State w} (hz : s.phases Phase.outstanding = 0) :
    Closed s.tracks.length s := by
  refine ⟨le_rfl, ?_, ?_⟩
  · intro i hi
    have ho := phaseIs_of_phases_zero hz i
    have hs : s.tracks[i]? = some s.tracks[i] := List.getElem?_eq_getElem hi
    rw [phaseIs_of_tracks hs] at ho ⊢
    revert ho
    cases s.tracks[i].phase <;> simp [Phase.outstanding, Phase.live, Phase.decremented]
  · rintro i j hj ⟨c, hc, _⟩
    rw [List.getElem?_eq_none hj] at hc
    cases hc

/-- What a zero load certifies: every reservation made before it has resolved
and been decremented, and nothing that is reserved later descends from one of
them. -/
theorem zero_load_certifies {es fs : List Label} {s u : State w}
    (h : run State.step (new w) es = some s) (hw : s.phases Phase.outstanding < 2 ^ w)
    (hz : s.spawned = 0) (hu : run State.step s fs = some u) {i j : ℕ}
    (hi : i < s.tracks.length) (hd : u.Descends i j) :
    j < s.tracks.length ∧ .move j .resolve ∈ es ∧ .fetchSub j ∈ es := by
  have hcl := closed_of_outstanding_zero ((spawned_zero_iff (run_inv h) hw).mp hz)
  have hj : j < s.tracks.length :=
    descends_lt (run_invariant (fun _ _ _ hc he => step_closed hc he) hcl hu) hi hd
  have hdone := hcl.done j hj
  have hres : s.phaseIs j Phase.afterResolve = true := by
    have hs : s.tracks[j]? = some s.tracks[j] := List.getElem?_eq_getElem hj
    rw [phaseIs_of_tracks hs] at hdone ⊢
    revert hdone
    cases s.tracks[j].phase <;> simp [Phase.decremented, Phase.afterResolve]
  exact ⟨hj, mem_of_count (resolve_count h j) hres, mem_of_count (fetchSub_count h j) hdone⟩

end TokioCompat.Idle
