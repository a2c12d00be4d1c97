import Mathlib.Data.List.Infix
import Mathlib.Order.Lattice

/-! # The longest tail that fits

A text is shown from its end, as much of it as is no wider than a bound.  The
width may be any measure that does not decrease when an element is added at
either end (`Widening`); then the tails that fit are those from some position on,
and the tail at the first such position is the longest (`isLongest_drop`).
Appending an element to the text moves that position to the right only
(`too_wide_concat`).
-/
namespace TailWindow

variable {γ α : Type*} [LinearOrder α]

/-- The width of a list does not decrease when an element is added at either end. -/
structure Widening (w : List γ → α) : Prop where
  front : ∀ c s, w s ≤ w (c :: s)
  back : ∀ s c, w s ≤ w (s ++ [c])

/-- `t` is the longest tail of `s` that is no wider than `F`. -/
structure IsLongest (w : List γ → α) (F : α) (s t : List γ) : Prop where
  suffix : t <:+ s
  fits : w t ≤ F
  longest : ∀ u, u <:+ s → w u ≤ F → u <:+ t

section Tails
variable {w : List γ → α} {F : α} {s t u : List γ} {p : ℕ}

theorem Widening.append_left (h : Widening w) (t s : List γ) : w s ≤ w (t ++ s) := by
  induction t with
  | nil => exact le_rfl
  | cons c t ih => exact ih.trans (h.front c (t ++ s))

/-- A tail is no wider than the list. -/
theorem Widening.suffix (h : Widening w) (hst : s <:+ t) : w s ≤ w t := by
  obtain ⟨r, rfl⟩ := hst
  exact h.append_left r s

/-- The empty list is the narrowest. -/
theorem Widening.nil (h : Widening w) (s : List γ) : w [] ≤ w s :=
  h.suffix List.nil_suffix

/-- The tail at the first position from which the list fits. -/
theorem isLongest_drop (hfits : w (s.drop p) ≤ F) (hfirst : ∀ q < p, F < w (s.drop q)) :
    IsLongest w F s (s.drop p) where
  suffix := List.drop_suffix p s
  fits := hfits
  longest u hu hfit := by
    rw [List.suffix_iff_eq_drop] at hu
    rcases Nat.lt_or_ge (s.length - u.length) p with hlt | hge
    · rw [hu] at hfit
      exact absurd hfit (not_le_of_gt (hfirst _ hlt))
    · rw [hu]
      exact List.drop_suffix_drop_left s hge

/-- Where the tail was too wide it is too wide with an element more. -/
theorem too_wide_concat (h : Widening w) {q : ℕ} (hq : q ≤ s.length) (hwide : F < w (s.drop q))
    (c : γ) : F < w ((s ++ [c]).drop q) := by
  rw [List.drop_append_of_le_length hq]
  exact hwide.trans_le (h.back _ c)

end Tails

end TailWindow
