import Mathlib.Data.List.Basic
import Mathlib.Tactic.Common

/-! # A sink with so much room

Items are put into a sink until there is no room left.  What no longer has room is lost,
and the sink has failed.  To put items and then others is to put all of them (`put_put`):
what becomes of a sink depends on the items, not on the portions they come in.  A writer
that fills buffers is correct when it acts on a sink.
-/

variable {α : Type*}

/-- The items so far, the room that is left, and whether an item was lost. -/
@[ext] structure Sink (α : Type*) where
  written : List α
  room : Nat
  failed : Bool

namespace Sink

variable (s : Sink α)

/-- Put items behind the others, as far as there is room. -/
@[simps] def put (xs : List α) : Sink α where
  written := s.written ++ xs.take s.room
  room := s.room - xs.length
  failed := s.failed || decide (s.room < xs.length)

@[simp] theorem put_nil : s.put [] = s := by
  ext <;> simp

/-- **Portions do not matter.** -/
@[simp] theorem put_put (xs ys : List α) : (s.put xs).put ys = s.put (xs ++ ys) := by
  apply Sink.ext
  · simp [List.take_append]
  · simp [Nat.sub_sub]
  · rw [Bool.eq_iff_iff]
    simp only [put_failed, put_room, Bool.or_eq_true, decide_eq_true_eq, List.length_append,
      or_assoc]
    refine or_congr Iff.rfl ?_
    omega

variable {s}

theorem put_of_le {xs : List α} (h : xs.length ≤ s.room) :
    s.put xs = ⟨s.written ++ xs, s.room - xs.length, s.failed⟩ := by
  apply Sink.ext
  · rw [put_written, List.take_of_length_le h]
  · rfl
  · simp [Nat.not_lt.mpr h]

/-- A sink that has not failed has lost nothing. -/
theorem failed_put_eq_false {xs : List α} (hs : s.failed = false) :
    (s.put xs).failed = false ↔ xs.length ≤ s.room := by
  simp [hs]

end Sink
