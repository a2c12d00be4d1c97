import SurvivalGame.Transition

/-! # Loops that may fail or not end

Imperative code that can throw is read as a function into `Except`.  A `while`
loop is `whileM` with a bound on its iterations and an error for running into the
bound: the loop ends exactly if some bound gives a result, and then every larger
one gives the same (`whileM_mono`).  `Iterates` says where its first iterations
lead, and a loop ends where they make its condition fail (`whileM_eq_ok`).  The
rules are the usual ones: an invariant for what the loop ends in, a measure for
that it ends, and a property of the errors of the body for those of the loop.

A `for` loop over a list is `List.foldlM`.  Its states are those of a run
(`run_of_foldlM`), so the rules for runs apply to it.
-/
namespace Loops

universe u v w

variable {ε : Type u} {σ α β : Type v} {ℓ : Type w}

theorem bind_eq_ok {x : Except ε α} {f : α → Except ε β} {b : β} :
    (x >>= f) = .ok b ↔ ∃ a, x = .ok a ∧ f a = .ok b := by
  cases x with
  | error e => exact ⟨nofun, nofun⟩
  | ok a => exact ⟨fun h => ⟨a, rfl, h⟩, fun ⟨_, ha, h⟩ => by cases ha; exact h⟩

theorem map_eq_ok {f : α → β} {x : Except ε α} {b : β} :
    f <$> x = .ok b ↔ ∃ a, x = .ok a ∧ f a = b := by
  cases x with
  | error e => exact ⟨nofun, nofun⟩
  | ok a =>
    constructor
    · intro h
      cases h
      exact ⟨a, rfl, rfl⟩
    · rintro ⟨_, ha, h⟩
      cases ha
      cases h
      rfl

theorem bind_eq_error {x : Except ε α} {f : α → Except ε β} {e : ε} :
    (x >>= f) = .error e ↔ x = .error e ∨ ∃ a, x = .ok a ∧ f a = .error e := by
  cases x with
  | error e' =>
    constructor
    · intro h
      cases h
      exact Or.inl rfl
    · rintro (h | ⟨a, ha, -⟩)
      · cases h
        rfl
      · cases ha
  | ok a =>
    constructor
    · intro h
      exact Or.inr ⟨a, rfl, h⟩
    · rintro (h | ⟨_, ha, h⟩)
      · cases h
      · cases ha
        exact h

/-! ## While -/

/-- `while (cond s) s = body s`, for at most `fuel` iterations. -/
def whileM (cond : σ → Bool) (body : σ → Except ε σ) (out : ε) : ℕ → σ → Except ε σ
  | 0, s => if cond s then .error out else .ok s
  | fuel + 1, s => if cond s then body s >>= whileM cond body out fuel else .ok s

section While
variable {cond : σ → Bool} {body : σ → Except ε σ} {out e : ε} {s t : σ} {n k : ℕ} {I : σ → Prop}

theorem whileM_of_not (h : cond s = false) : whileM cond body out n s = .ok s := by
  cases n <;> simp [whileM, h]

theorem whileM_zero (h : cond s = true) : whileM cond body out 0 s = .error out := if_pos h

theorem whileM_succ (h : cond s = true) :
    whileM cond body out (n + 1) s = body s >>= whileM cond body out n := if_pos h

/-- The first `n` iterations from `s` are made, and lead to `t`. -/
inductive Iterates (cond : σ → Bool) (body : σ → Except ε σ) : ℕ → σ → σ → Prop
  | zero {s : σ} : Iterates cond body 0 s s
  | succ {n : ℕ} {s u t : σ} (hc : cond s = true) (hu : body s = .ok u)
      (h : Iterates cond body n u t) : Iterates cond body (n + 1) s t

/-- The loop goes on from where its first iterations have led. -/
theorem Iterates.whileM_add (h : Iterates cond body n s t) :
    whileM cond body out (n + k) s = whileM cond body out k t := by
  induction h with
  | zero => rw [Nat.zero_add]
  | @succ n s u t hc hu h ih =>
    rw [Nat.add_right_comm, whileM_succ hc, hu]
    exact ih

/-- What every iteration preserves. -/
theorem Iterates.invariant (hbody : ∀ s t, I s → cond s = true → body s = .ok t → I t)
    (h : Iterates cond body n s t) (h0 : I s) : I t := by
  induction h with
  | zero => exact h0
  | succ hc hu _ ih => exact ih (hbody _ _ h0 hc hu)

/-- **What a loop ends in**: the state that its iterations have led to when the condition
fails. -/
theorem whileM_eq_ok : whileM cond body out n s = .ok t ↔
    ∃ k ≤ n, Iterates cond body k s t ∧ cond t = false := by
  constructor
  · intro h
    induction n generalizing s with
    | zero =>
      cases hc : cond s with
      | true => rw [whileM_zero hc] at h; cases h
      | false => rw [whileM_of_not hc] at h; cases h; exact ⟨0, Nat.le_refl 0, .zero, hc⟩
    | succ n ih =>
      cases hc : cond s with
      | false => rw [whileM_of_not hc] at h; cases h; exact ⟨0, Nat.zero_le _, .zero, hc⟩
      | true =>
        rw [whileM_succ hc] at h
        obtain ⟨u, hu, h⟩ := bind_eq_ok.mp h
        obtain ⟨k, hk, hiter, hend⟩ := ih h
        exact ⟨k + 1, Nat.succ_le_succ hk, .succ hc hu hiter, hend⟩
  · rintro ⟨k, hle, hiter, hend⟩
    obtain ⟨j, rfl⟩ := Nat.exists_eq_add_of_le hle
    rw [hiter.whileM_add, whileM_of_not hend]

/-- A loop whose condition fails after `k` iterations ends there under every bound from
`k` on, and under no other. -/
theorem Iterates.whileM_eq_ok {u : σ} (h : Iterates cond body k s t) (hend : cond t = false) :
    whileM cond body out n s = .ok u ↔ k ≤ n ∧ u = t := by
  induction h generalizing n with
  | zero =>
    rw [whileM_of_not hend, and_iff_right (Nat.zero_le n)]
    exact ⟨fun h => (Except.ok.inj h).symm, fun h => congrArg Except.ok h.symm⟩
  | @succ k s v t hc hv _ ih =>
    cases n with
    | zero =>
      rw [whileM_zero hc]
      refine iff_of_false ?_ ?_
      · intro h
        cases h
      · intro h
        exact Nat.not_succ_le_zero k h.1
    | succ n =>
      rw [whileM_succ hc, hv, Nat.succ_le_succ_iff]
      exact ih hend

/-- A larger bound changes no result. -/
theorem whileM_mono (h : whileM cond body out n s = .ok t) (hle : n ≤ k) :
    whileM cond body out k s = .ok t := by
  obtain ⟨j, hj, hiter, hend⟩ := whileM_eq_ok.mp h
  exact whileM_eq_ok.mpr ⟨j, Nat.le_trans hj hle, hiter, hend⟩

/-- What a loop ends in does not depend on the bound. -/
theorem whileM_unique {u : σ} (h : whileM cond body out n s = .ok t)
    (h' : whileM cond body out k s = .ok u) : t = u := by
  have ht := whileM_mono h (Nat.le_max_left n k)
  have hu := whileM_mono h' (Nat.le_max_right n k)
  exact Except.ok.inj (ht.symm.trans hu)

/-- **The invariant rule.** -/
theorem whileM_invariant (hbody : ∀ s t, I s → cond s = true → body s = .ok t → I t)
    (h : whileM cond body out n s = .ok t) (h0 : I s) : I t ∧ cond t = false := by
  obtain ⟨k, -, hiter, hend⟩ := whileM_eq_ok.mp h
  exact ⟨hiter.invariant hbody h0, hend⟩

/-- **The termination rule.**  Under the invariant the body does not fail and lowers
the measure. -/
theorem whileM_terminates (μ : σ → ℕ)
    (hbody : ∀ s, I s → cond s = true → ∃ t, body s = .ok t ∧ I t ∧ μ t < μ s)
    (h0 : I s) (hn : μ s ≤ n) : ∃ t, whileM cond body out n s = .ok t := by
  induction n generalizing s with
  | zero =>
    cases hc : cond s with
    | false => exact ⟨s, whileM_of_not hc⟩
    | true =>
      obtain ⟨t, -, -, hlt⟩ := hbody s h0 hc
      omega
  | succ n ih =>
    cases hc : cond s with
    | false => exact ⟨s, whileM_of_not hc⟩
    | true =>
      obtain ⟨u, hu, hIu, hlt⟩ := hbody s h0 hc
      obtain ⟨t, ht⟩ := ih hIu (by omega)
      exact ⟨t, by rw [whileM_succ hc, hu]; exact ht⟩

/-- An error of the loop is one of its body, or the bound. -/
theorem whileM_error {E : ε → Prop} (hout : E out) (hbody : ∀ s e, body s = .error e → E e)
    (h : whileM cond body out n s = .error e) : E e := by
  induction n generalizing s with
  | zero =>
    cases hc : cond s with
    | true => rw [whileM_zero hc] at h; cases h; exact hout
    | false => rw [whileM_of_not hc] at h; cases h
  | succ n ih =>
    cases hc : cond s with
    | false => rw [whileM_of_not hc] at h; cases h
    | true =>
      rw [whileM_succ hc] at h
      rcases bind_eq_error.mp h with hb | ⟨u, -, h⟩
      · exact hbody s e hb
      · exact ih h

end While

/-! ## For -/

section For
variable {step : σ → ℓ → Except ε σ} {s t : σ} {l : ℓ} {ls : List ℓ}

theorem foldlM_cons_eq_ok : (l :: ls).foldlM step s = .ok t ↔
    ∃ u, step s l = .ok u ∧ ls.foldlM step u = .ok t := by
  rw [List.foldlM_cons, bind_eq_ok]

theorem toOption_eq_some {x : Except ε α} {a : α} :
    x.toOption = some a ↔ x = .ok a := by
  cases x with
  | error => exact ⟨nofun, nofun⟩
  | ok b => exact ⟨fun h => by cases h; rfl, fun h => by cases h; rfl⟩

/-- A loop that ends is a run of its body. -/
theorem run_of_foldlM (h : ls.foldlM step s = .ok t) :
    Transition.run (fun s l => (step s l).toOption) s ls = some t := by
  induction ls generalizing s with
  | nil => cases h; rfl
  | cons l ls ih =>
    obtain ⟨u, hu, h⟩ := foldlM_cons_eq_ok.mp h
    exact Transition.run_cons_eq_some.mpr ⟨u, toOption_eq_some.mpr hu, ih h⟩

/-- An error of the loop is one that its body makes in a state it reaches. -/
theorem foldlM_ne_error {C : σ → ℓ → Prop} {I : σ → Prop} {e : ε}
    (hI : ∀ s l t, I s → C s l → step s l = .ok t → I t)
    (he : ∀ s l, I s → C s l → step s l ≠ .error e)
    (hC : Transition.Along (fun s l => (step s l).toOption) C s ls) (h0 : I s) :
    ls.foldlM step s ≠ .error e := by
  induction ls generalizing s with
  | nil => nofun
  | cons l ls ih =>
    rw [List.foldlM_cons]
    intro h
    rcases bind_eq_error.mp h with hstep | ⟨u, hu, h⟩
    · exact he s l h0 hC.1 hstep
    · exact ih (hC.2 u (toOption_eq_some.mpr hu)) (hI s l u h0 hC.1 hu) h

end For

end Loops
