import Mathlib.Data.List.Flatten
import Mathlib.Data.List.TakeDrop
import Mathlib.Tactic.Common

/-! # Cutting a stream by a length field

A reader of a framed stream looks at the head of the stream, reads off the size
of the frame that starts there (`size`), cuts that many elements off, and goes
on.  `cut size` is the list of frames such a reader finds, or `none` where it
meets a size it cannot cut: no size at all, a size of zero, or more than is left.

Two readers of one stream agree on the frames exactly when their size functions
do; `cut_flatten_iff` says when a reader finds the frames that were written.
-/
namespace Framing

variable {α : Type*}

/-- `cut` with an explicit bound on the number of frames. -/
def cutFuel (size : List α → Option Nat) : Nat → List α → Option (List (List α))
  | _, [] => some []
  | 0, _ :: _ => none
  | fuel + 1, s@(_ :: _) =>
    match size s with
    | none => none
    | some k =>
      if 0 < k ∧ k ≤ s.length then (cutFuel size fuel (s.drop k)).map (s.take k :: ·) else none

/-- The frames found by a reader that trusts `size`.  Every frame takes at least
one element, so the length of the stream bounds their number. -/
def cut (size : List α → Option Nat) (s : List α) : Option (List (List α)) :=
  cutFuel size s.length s

variable {size : List α → Option Nat} {f rest : List α} {fs : List (List α)}

/-- Any two bounds that are large enough find the same frames. -/
theorem cutFuel_congr : ∀ {a b : Nat} {s : List α}, s.length ≤ a → s.length ≤ b →
    cutFuel size a s = cutFuel size b s
  | 0, 0, [], _, _ | 0, _ + 1, [], _, _ | _ + 1, 0, [], _, _ | _ + 1, _ + 1, [], _, _ => rfl
  | a + 1, b + 1, x :: s, ha, hb => by
    simp only [List.length_cons, Nat.add_le_add_iff_right] at ha hb
    simp only [cutFuel]
    cases size (x :: s) with
    | none => rfl
    | some k =>
      dsimp only
      split
      · rename_i hk
        have hlen : ((x :: s).drop k).length ≤ s.length := by
          simp only [List.length_drop, List.length_cons]; omega
        rw [cutFuel_congr (Nat.le_trans hlen ha) (Nat.le_trans hlen hb)]
      · rfl

/-- Enough fuel is enough: the bound does not change what is found. -/
theorem cutFuel_eq_cut {fuel : Nat} {s : List α} (h : s.length ≤ fuel) :
    cutFuel size fuel s = cut size s :=
  cutFuel_congr h (Nat.le_refl _)

@[simp] theorem cut_nil : cut size [] = some [] := rfl

/-- What the reader does with a nonempty stream. -/
theorem cut_of_size {s : List α} {k : Nat} (hs : size s = some k) (hk : 0 < k)
    (hle : k ≤ s.length) : cut size s = (cut size (s.drop k)).map (s.take k :: ·) := by
  cases s with
  | nil => simp only [List.length_nil] at hle; omega
  | cons x s =>
    rw [cut, List.length_cons, cutFuel, hs]
    dsimp only
    have hlen : ((x :: s).drop k).length ≤ s.length := by
      simp only [List.length_drop, List.length_cons]; omega
    rw [if_pos ⟨hk, hle⟩, cutFuel_eq_cut hlen]

/-- A frame of the right size at the head of the stream is cut off. -/
theorem cut_append (hf : f ≠ []) (hs : size (f ++ rest) = some f.length) :
    cut size (f ++ rest) = (cut size rest).map (f :: ·) := by
  have hle : f.length ≤ (f ++ rest).length := by simp
  rw [cut_of_size hs (List.length_pos_iff.mpr hf) hle, List.drop_left, List.take_left]

/-- The first frame found has the size the reader read. -/
theorem head_length_of_cut {s : List α} {k : Nat} (hs : size s = some k)
    (h : cut size s = some (f :: fs)) : f.length = k := by
  cases s with
  | nil => cases h
  | cons x s =>
    rw [cut, List.length_cons, cutFuel, hs] at h
    dsimp only at h
    split at h
    · rename_i hk
      obtain ⟨gs, -, hg⟩ := Option.map_eq_some_iff.mp h
      rw [← (List.cons.inj hg).1, List.length_take, Nat.min_eq_left hk.2]
    · cases h

/-- **When a reader finds the frames that were written.**  If the size read at a
frame depends on that frame only, the reader cuts the concatenation of the
frames back into them exactly when every size read is the frame's length. -/
theorem cut_flatten_iff (len : List α → Nat) (hne : ∀ f ∈ fs, f ≠ [])
    (hsize : ∀ f ∈ fs, ∀ rest, size (f ++ rest) = some (len f)) :
    cut size fs.flatten = some fs ↔ ∀ f ∈ fs, len f = f.length := by
  induction fs with
  | nil => simp
  | cons f fs ih =>
    have ih := ih (fun g hg => hne g (List.mem_cons_of_mem _ hg))
      (fun g hg => hsize g (List.mem_cons_of_mem _ hg))
    have hf := hsize f List.mem_cons_self fs.flatten
    rw [List.flatten_cons, List.forall_mem_cons, ← ih]
    constructor
    · intro h
      have hlen := head_length_of_cut hf h
      rw [← hlen] at hf
      rw [cut_append (hne f List.mem_cons_self) hf] at h
      obtain ⟨gs, hg, hcons⟩ := Option.map_eq_some_iff.mp h
      exact ⟨hlen.symm, hg.trans (congrArg some (List.cons.inj hcons).2)⟩
    · rintro ⟨hlen, h⟩
      rw [hlen] at hf
      rw [cut_append (hne f List.mem_cons_self) hf, h]
      rfl

end Framing
