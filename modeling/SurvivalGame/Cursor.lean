import SurvivalGame.Loops

/-! # A zeroed buffer and a write pointer into it

Code that fills a buffer through a pointer writes at the pointer and moves it
(`push`), or writes and stays (`poke`).  A write behind the end of the buffer
fails.

A buffer that starts zeroed and is only written at the pointer is known by what
has been pushed: `wrote` is the buffer after some elements, and the equations say
what a write makes of it while there is room.
-/

universe u v

/-- A buffer, and the place in it that is written next. -/
structure Cursor (β : Type u) where
  buf : List β
  pos : ℕ
deriving DecidableEq

namespace Cursor
open Loops

variable {ε : Type v} {β : Type u} (e : ε)

/-- `*tmp = b`. -/
def poke (c : Cursor β) (b : β) : Except ε (Cursor β) :=
  if c.pos < c.buf.length then .ok { c with buf := c.buf.set c.pos b } else .error e

/-- `*tmp = b; tmp++`. -/
def push (c : Cursor β) (b : β) : Except ε (Cursor β) :=
  (fun c => { c with pos := c.pos + 1 }) <$> c.poke e b

/-- The buffer of `size` elements after `out` has been pushed. -/
def wrote (z : β) (size : ℕ) (out : List β) : Cursor β :=
  ⟨out ++ List.replicate (size - out.length) z, out.length⟩

section Wrote
variable {z b : β} {size : ℕ} {out bs : List β}

theorem length_wrote (h : out.length ≤ size) : (wrote z size out).buf.length = size := by
  simp [wrote, h]

theorem poke_wrote (h : out.length < size) : (wrote z size out).poke e b =
    .ok ⟨out ++ b :: List.replicate (size - (out.length + 1)) z, out.length⟩ := by
  obtain ⟨k, rfl⟩ := Nat.exists_eq_add_of_lt h
  have hroom : out.length + k + 1 - out.length = k + 1 := by omega
  have hrest : out.length + k + 1 - (out.length + 1) = k := by omega
  rw [poke, if_pos (by rw [length_wrote (Nat.le_of_lt h)]; exact h)]
  simp [wrote, hroom, hrest, List.replicate_succ]

/-- Writing the zero that is there already. -/
theorem poke_wrote_zero (h : out.length < size) :
    (wrote z size out).poke e z = .ok (wrote z size out) := by
  rw [poke_wrote e h, ← List.replicate_succ, wrote]
  congr 4
  omega

theorem push_wrote (h : out.length < size) :
    (wrote z size out).push e b = .ok (wrote z size (out ++ [b])) := by
  rw [push, poke_wrote e h]
  show Except.ok _ = _
  simp [wrote]

/-- Several writes in a row. -/
theorem pushes_wrote (h : out.length + bs.length ≤ size) :
    bs.foldlM (push e) (wrote z size out) = .ok (wrote z size (out ++ bs)) := by
  induction bs generalizing out with
  | nil => rw [List.append_nil]; rfl
  | cons b bs ih =>
    rw [List.length_cons] at h
    refine foldlM_cons_eq_ok.mpr ⟨_, push_wrote e (by omega), ?_⟩
    rw [ih (by rw [List.length_append, List.length_singleton]; omega), List.append_assoc]
    rfl

end Wrote

end Cursor
