import Mathlib.Data.List.Count
import Mathlib.Tactic.Common

/-! # Threads that loop while a flag is set

A detached thread runs `while (running) { body; sleep; }`.  It looks at the flag
at the head of its loop and nowhere else, so it lives on through any change of the
flag that it does not see there.  A table of such threads only grows when one is
started; the other steps replace one entry, and no step brings a thread that has
ended back to life.
-/

/-- Where such a thread stands; `β` is where it stands in its body. -/
inductive LoopThread (β : Type*)
  | head
  | body (b : β)
  | sleeping
  | ended
deriving DecidableEq

namespace LoopThread

variable {β : Type*} {ts : List (LoopThread β)} {t t' : LoopThread β} {i j : Nat}

/-- The thread has not ended. -/
def live : LoopThread β → Bool
  | .ended => false
  | _ => true

/-- The test at the head of the loop: into the body at `start`, or out of the loop. -/
def test (running : Bool) (start : β) : LoopThread β → Option (LoopThread β)
  | .head => some (if running then .body start else .ended)
  | _ => none

/-- The end of the sleep. -/
def wake : LoopThread β → Option (LoopThread β)
  | .sleeping => some .head
  | _ => none

theorem live_of_test {running : Bool} {start : β} (h : test running start t = some t') :
    t.live = true := by
  cases t with
  | head => rfl
  | _ => cases h

/-- A body is entered at its start. -/
theorem eq_start_of_test {running : Bool} {start b : β}
    (h : test running start t = some (.body b)) : b = start := by
  cases t with
  | head => cases running <;> cases h; rfl
  | _ => cases h

theorem eq_head_of_wake (h : wake t = some t') : t' = .head := by
  cases t with
  | sleeping => exact (Option.some.inj h).symm
  | _ => cases h

theorem live_of_wake (h : wake t = some t') : t.live = true := by
  cases t with
  | sleeping => rfl
  | _ => cases h

/-- The threads of a table that have not ended. -/
def liveCount (ts : List (LoopThread β)) : Nat := ts.countP live

/-- A new thread starts at the head of its loop. -/
@[simp] theorem liveCount_spawn : liveCount (ts ++ [.head]) = liveCount ts + 1 := by
  simp [liveCount, live]

/-- A step of a thread that lives leaves no more of them than before. -/
theorem liveCount_set_le (t' : LoopThread β) (ht : ts[i]? = some t) (hlive : t.live = true) :
    liveCount (ts.set i t') ≤ liveCount ts := by
  obtain ⟨hi, rfl⟩ := List.getElem?_eq_some_iff.mp ht
  have hpos : 0 < ts.countP live := List.countP_pos_iff.mpr ⟨_, List.getElem_mem hi, hlive⟩
  rw [liveCount, List.countP_set hi, if_pos hlive, liveCount]
  split <;> omega

/-- While at most one thread lives, any two that live are the same. -/
theorem eq_of_liveCount_le_one (h : liveCount ts ≤ 1) (hi : ts[i]? = some t)
    (hj : ts[j]? = some t') (ht : t.live = true) (ht' : t'.live = true) : i = j := by
  -- along the table: behind a live thread no other one lives
  induction ts generalizing i j with
  | nil => cases hi
  | cons u ts ih =>
    have htail : ∀ {k : Nat} {v : LoopThread β}, ts[k]? = some v → v.live = true →
        0 < liveCount ts := fun hv hlive =>
      List.countP_pos_iff.mpr ⟨_, List.mem_of_getElem? hv, hlive⟩
    have hcons : liveCount (u :: ts) = liveCount ts + if u.live = true then 1 else 0 :=
      List.countP_cons
    cases i with
    | zero =>
      cases j with
      | zero => rfl
      | succ j =>
        cases hi
        have := htail hj ht'
        rw [hcons, if_pos ht] at h
        omega
    | succ i =>
      cases j with
      | zero =>
        cases hj
        have := htail hi ht
        rw [hcons, if_pos ht'] at h
        omega
      | succ j => rw [ih (by omega) hi hj]

/-- No thread of the table lives. -/
theorem liveCount_eq_zero_iff : liveCount ts = 0 ↔ ∀ t ∈ ts, t = .ended := by
  rw [liveCount, List.countP_eq_zero]
  refine forall₂_congr fun t _ => ?_
  cases t <;> simp [live]

/-- One thread of a table takes a step. -/
def stepAt (f : LoopThread β → Option (LoopThread β)) (i : Nat) (ts : List (LoopThread β)) :
    Option (List (LoopThread β)) :=
  ts[i]?.bind fun t => (f t).map (ts.set i)

theorem stepAt_eq_some {f : LoopThread β → Option (LoopThread β)} {ts' : List (LoopThread β)}
    (h : stepAt f i ts = some ts') : ∃ t t', ts[i]? = some t ∧ f t = some t' ∧ ts' = ts.set i t' := by
  obtain ⟨t, ht, h⟩ := Option.bind_eq_some_iff.mp h
  obtain ⟨t', hf, rfl⟩ := Option.map_eq_some_iff.mp h
  exact ⟨t, t', ht, hf, rfl⟩

/-- In a table with one live thread, what a step puts in its place is all that
lives. -/
theorem mem_set_of_liveCount_le_one (h : liveCount ts ≤ 1) (hi : ts[i]? = some t)
    (hlive : t.live = true) {u : LoopThread β} (hu : u ∈ ts.set i t') (hulive : u.live = true) :
    u = t' := by
  obtain ⟨j, hj⟩ := List.mem_iff_getElem?.mp hu
  rw [List.getElem?_set] at hj
  split at hj
  · split at hj
    · exact (Option.some.inj hj).symm
    · cases hj
  · rename_i hne
    exact absurd (eq_of_liveCount_le_one h hi hj hlive hulive) hne

end LoopThread
