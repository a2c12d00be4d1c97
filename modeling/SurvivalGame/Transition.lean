import Mathlib.Data.Option.Basic
import Mathlib.Data.List.Basic

/-! # Runs of a partial step function

A system is given by `step : σ → ℓ → Option σ`: the state after the step labelled
`l`, or `none` where that step cannot be taken.  Every thread interleaving and
every answer of the environment is a list of labels, so a statement about all
runs is a statement about all lists.

A run may be asked to meet a condition on its steps (`Along`), stated on the
state before the step and the label.  The two rules used everywhere below are
`Along.invariant`, which turns what one step preserves into what a whole run
preserves, and `Along.simulation`, which turns a step-by-step simulation into
one of runs.

`Inevitable` is about all continuations of a run at once: whichever steps are
taken, a goal is reached.  It is proved with a measure (`Inevitable.of_measure`)
and refuted with a set of states that no step leaves (`Inevitable.not_of_closed`).
-/
namespace Transition

variable {σ ℓ : Type*}

/-- The state after the labelled steps, taken in order. -/
def run (step : σ → ℓ → Option σ) : σ → List ℓ → Option σ
  | s, [] => some s
  | s, l :: ls => (step s l).bind (run step · ls)

/-- Every step of the run is taken in a state and with a label that meet `C`. -/
def Along (step : σ → ℓ → Option σ) (C : σ → ℓ → Prop) : σ → List ℓ → Prop
  | _, [] => True
  | s, l :: ls => C s l ∧ ∀ t ∈ step s l, Along step C t ls

instance Along.decidable (step : σ → ℓ → Option σ) (C : σ → ℓ → Prop)
    [∀ s l, Decidable (C s l)] : ∀ s ls, Decidable (Along step C s ls)
  | _, [] => inferInstanceAs (Decidable True)
  | s, l :: ls =>
    have : ∀ t, Decidable (Along step C t ls) := fun t => Along.decidable step C t ls
    inferInstanceAs (Decidable (C s l ∧ ∀ t ∈ step s l, Along step C t ls))

section Runs
variable {step : σ → ℓ → Option σ} {C : σ → ℓ → Prop} {s t : σ} {l : ℓ} {ls ms : List ℓ}

@[simp] theorem run_nil : run step s [] = some s := rfl

@[simp] theorem run_cons : run step s (l :: ls) = (step s l).bind (run step · ls) := rfl

theorem run_cons_eq_some : run step s (l :: ls) = some t ↔
    ∃ u, step s l = some u ∧ run step u ls = some t := by
  simp [Option.bind_eq_some_iff]

theorem run_append : run step s (ls ++ ms) = (run step s ls).bind (run step · ms) := by
  induction ls generalizing s with
  | nil => rfl
  | cons l ls ih =>
    cases h : step s l with
    | none => simp [h]
    | some u => simp [h, ih]

theorem Along.cons {u : σ} (hC : C s l) (hu : step s l = some u) (h : Along step C u ls) :
    Along step C s (l :: ls) := by
  refine ⟨hC, fun v hv => ?_⟩
  obtain rfl : u = v := Option.some.inj (hu.symm.trans hv)
  exact h

theorem Along.append (h : Along step C s ls) (hr : run step s ls = some t)
    (h' : Along step C t ms) : Along step C s (ls ++ ms) := by
  induction ls generalizing s with
  | nil => cases hr; exact h'
  | cons l ls ih =>
    obtain ⟨u, hu, hr⟩ := run_cons_eq_some.mp hr
    exact .cons h.1 hu (ih (h.2 u hu) hr)

theorem Along.and {D : σ → ℓ → Prop} (h : Along step C s ls) (h' : Along step D s ls) :
    Along step (fun s l => C s l ∧ D s l) s ls := by
  induction ls generalizing s with
  | nil => trivial
  | cons l ls ih => exact ⟨⟨h.1, h'.1⟩, fun t ht => ih (h.2 t ht) (h'.2 t ht)⟩

theorem Along.of_forall (hC : ∀ s l, C s l) : ∀ s (ls : List ℓ), Along step C s ls
  | _, [] => trivial
  | s, l :: ls => ⟨hC s l, fun t _ => Along.of_forall hC t ls⟩

theorem Along.of_forall_mem {D : ℓ → Prop} (h : ∀ l ∈ ls, D l) :
    Along step (fun _ l => D l) s ls := by
  induction ls generalizing s with
  | nil => trivial
  | cons l ls ih =>
    exact ⟨h l List.mem_cons_self, fun _ _ => ih fun k hk => h k (List.mem_cons_of_mem l hk)⟩

/-- **The invariant rule.**  What every step under the condition preserves holds
after every run under the condition. -/
theorem Along.invariant {I : σ → Prop}
    (hstep : ∀ s l t, I s → C s l → step s l = some t → I t)
    (hC : Along step C s ls) (hr : run step s ls = some t) (h0 : I s) : I t := by
  induction ls generalizing s with
  | nil => cases hr; exact h0
  | cons l ls ih =>
    obtain ⟨u, hu, hr⟩ := run_cons_eq_some.mp hr
    exact ih (hC.2 u hu) hr (hstep s l u h0 hC.1 hu)

/-- A condition may be strengthened by an invariant of the runs under it. -/
theorem Along.strengthen {D : σ → ℓ → Prop} {I : σ → Prop}
    (hstep : ∀ s l t, I s → C s l → step s l = some t → I t)
    (hCD : ∀ s l, I s → C s l → D s l) (hC : Along step C s ls) (h0 : I s) :
    Along step D s ls := by
  induction ls generalizing s with
  | nil => trivial
  | cons l ls ih => exact ⟨hCD s l h0 hC.1, fun t ht => ih (hC.2 t ht) (hstep s l t h0 hC.1 ht)⟩

/-- A run that ends well meets every condition whose violation would show in the
end: what ends well was well before, and a step to a good state meets it. -/
theorem Along.of_run {I G : σ → Prop} (hI : ∀ s l t, I s → step s l = some t → I t)
    (hG : ∀ s l t, step s l = some t → G t → G s)
    (hC : ∀ s l t, I s → step s l = some t → G t → C s l)
    (hr : run step s ls = some t) (h0 : I s) (ht : G t) : G s ∧ Along step C s ls := by
  induction ls generalizing s with
  | nil => cases hr; exact ⟨ht, trivial⟩
  | cons l ls ih =>
    obtain ⟨u, hu, hr⟩ := run_cons_eq_some.mp hr
    obtain ⟨hGu, hrest⟩ := ih hr (hI s l u h0 hu)
    refine ⟨hG s l u hu hGu, hC s l u h0 hu hGu, fun v hv => ?_⟩
    obtain rfl : u = v := Option.some.inj (hu.symm.trans hv)
    exact hrest

/-- Two conditions that agree on the steps of a run hold along it together.  The
invariant they agree under need only be kept by the first. -/
theorem Along.iff_of_run {D : σ → ℓ → Prop} {I : σ → Prop}
    (hCD : ∀ s l t, I s → step s l = some t → (C s l ↔ D s l))
    (hI : ∀ s l t, I s → C s l → step s l = some t → I t)
    (hr : run step s ls = some t) (h0 : I s) : Along step C s ls ↔ Along step D s ls := by
  induction ls generalizing s with
  | nil => exact Iff.rfl
  | cons l ls ih =>
    obtain ⟨u, hu, hr⟩ := run_cons_eq_some.mp hr
    simp only [Along, hu, Option.mem_some_iff, forall_eq', hCD s l u h0 hu]
    refine and_congr_right fun hD => ih hr ?_
    exact hI s l u h0 ((hCD s l u h0 hu).mpr hD) hu

/-- The invariant rule for runs with no condition on their steps. -/
theorem run_invariant {I : σ → Prop} (hstep : ∀ s l t, I s → step s l = some t → I t)
    (hr : run step s ls = some t) (h0 : I s) : I t :=
  (Along.of_forall (C := fun _ _ => True) (fun _ _ => trivial) s ls).invariant
    (fun s l t h _ hs => hstep s l t h hs) hr h0

/-- **The simulation rule.**  If every concrete step under the condition is
matched by some abstract steps, from related states to related states, then so
is every run. -/
theorem Along.simulation {τ μ : Type*} {astep : τ → μ → Option τ} {R : σ → τ → Prop} {a : τ}
    (hsim : ∀ s l t a, R s a → C s l → step s l = some t →
      ∃ ms b, run astep a ms = some b ∧ R t b)
    (hC : Along step C s ls) (hr : run step s ls = some t) (h0 : R s a) :
    ∃ ms b, run astep a ms = some b ∧ R t b := by
  induction ls generalizing s a with
  | nil => cases hr; exact ⟨[], a, rfl, h0⟩
  | cons l ls ih =>
    obtain ⟨u, hu, hr⟩ := run_cons_eq_some.mp hr
    obtain ⟨ms, b, hb, hR⟩ := hsim s l u a h0 hC.1 hu
    obtain ⟨ns, c, hc, hR'⟩ := ih (hC.2 u hu) hr hR
    exact ⟨ms ++ ns, c, by rw [run_append, hb]; exact hc, hR'⟩

/-- Under `C`, every continuation from the state reaches `G` in finitely many
steps. -/
inductive Inevitable (step : σ → ℓ → Option σ) (C : σ → ℓ → Prop) (G : σ → Prop) : σ → Prop
  | reached {s : σ} (h : G s) : Inevitable step C G s
  | next {s : σ} (hsome : ∃ l t, C s l ∧ step s l = some t)
      (hall : ∀ l t, C s l → step s l = some t → Inevitable step C G t) : Inevitable step C G s

/-- Outside the goal a step is possible, and each one lowers the measure. -/
theorem Inevitable.of_measure {G I : σ → Prop} (μ : σ → ℕ)
    (hsome : ∀ s, I s → ¬ G s → ∃ l t, C s l ∧ step s l = some t)
    (hall : ∀ s l t, I s → ¬ G s → C s l → step s l = some t → μ t < μ s ∧ (G t ∨ I t))
    (h0 : I s) : Inevitable step C G s := by
  induction hn : μ s using Nat.strongRecOn generalizing s with
  | _ n ih =>
    by_cases hG : G s
    · exact .reached hG
    · refine .next (hsome s h0 hG) fun l t hC hstep => ?_
      obtain ⟨hlt, hGt | hIt⟩ := hall s l t h0 hG hC hstep
      · exact .reached hGt
      · exact ih (μ t) (hn ▸ hlt) hIt rfl

/-- A set of states outside the goal that no step leaves. -/
theorem Inevitable.not_of_closed {G I : σ → Prop} (hG : ∀ s, I s → ¬ G s)
    (hstep : ∀ s l t, I s → C s l → step s l = some t → I t) (h0 : I s) :
    ¬ Inevitable step C G s := by
  intro h
  induction h with
  | reached h => exact hG _ h0 h
  | next hsome _ ih =>
    obtain ⟨l, t, hC, ht⟩ := hsome
    exact ih l t hC ht (hstep _ l t h0 hC ht)

end Runs

end Transition
