import Mathlib.Data.Finset.Option
import Mathlib.Tactic.Common

/-! # Open descriptors and the slot that holds one

The descriptors a program has open, with a mark for any call it has made on one
that is closed.  A program that keeps its descriptor in a variable (`none` for
the value that is no descriptor) is sound while the variable holds exactly what
is open (`Holds`): then nothing leaks when it is overwritten with care, and no
call goes astray.
-/

/-- The descriptors a program has open, and whether it has used a closed one. -/
structure Descriptors where
  openFds : Finset Nat
  misused : Bool
deriving DecidableEq

namespace Descriptors

/-- Nothing open yet. -/
def empty : Descriptors := ⟨∅, false⟩

/-- The slot holds an open descriptor. -/
def isOpen (t : Descriptors) : Option Nat → Bool
  | none => false
  | some d => decide (d ∈ t.openFds)

/-- The slot holds a descriptor, and it is closed. -/
def dangling (t : Descriptors) : Option Nat → Bool
  | none => false
  | some d => decide (d ∉ t.openFds)

/-- Some call on the descriptor in the slot. -/
def use (t : Descriptors) (slot : Option Nat) : Descriptors :=
  { t with misused := t.misused || t.dangling slot }

/-- A new descriptor is opened. -/
def create (t : Descriptors) (d : Nat) : Descriptors := { t with openFds := insert d t.openFds }

/-- The descriptor in the slot is closed. -/
def close (t : Descriptors) (slot : Option Nat) : Descriptors :=
  { t.use slot with openFds := t.openFds \ slot.toFinset }

/-- Every descriptor is closed. -/
def closeAll (t : Descriptors) : Descriptors := { t with openFds := ∅ }

/-- What is open is what the slot holds, and no call has gone astray. -/
structure Holds (t : Descriptors) (slot : Option Nat) : Prop where
  openFds_eq : t.openFds = slot.toFinset
  misused_eq : t.misused = false

variable {t : Descriptors} {slot : Option Nat} {d : Nat}

theorem holds_empty : Holds empty none := ⟨rfl, rfl⟩

/-- Nothing is lost: what is open is in the slot. -/
theorem Holds.owned (h : t.Holds slot) (hd : d ∈ t.openFds) : slot = some d := by
  rw [h.openFds_eq] at hd
  exact Option.mem_toFinset.mp hd

/-- Nothing is stale: what is in the slot is open. -/
theorem Holds.mem_openFds (h : t.Holds slot) (hd : slot = some d) : d ∈ t.openFds := by
  rw [h.openFds_eq]
  exact Option.mem_toFinset.mpr hd

theorem Holds.card_le_one (h : t.Holds slot) : t.openFds.card ≤ 1 := by
  rw [h.openFds_eq]
  cases slot <;> simp

theorem Holds.dangling_eq_false (h : t.Holds slot) : t.dangling slot = false := by
  cases slot with
  | none => rfl
  | some d => simp [dangling, h.openFds_eq]

/-- A call on the slot's descriptor is a call on an open one, or on none. -/
theorem Holds.use_eq (h : t.Holds slot) : t.use slot = t := by
  rw [use, h.dangling_eq_false, Bool.or_false]

@[simp] theorem use_none : t.use none = t := by simp [use, dangling]

/-- A slot that is sound may be overwritten once its descriptor is closed. -/
theorem Holds.close (h : t.Holds slot) : (t.close slot).Holds none := by
  rw [Descriptors.close, h.use_eq, h.openFds_eq]
  exact ⟨Finset.sdiff_self _, h.misused_eq⟩

theorem Holds.closeAll (h : t.Holds slot) : t.closeAll.Holds none := ⟨rfl, h.misused_eq⟩

theorem Holds.create (h : t.Holds none) (d : Nat) : (t.create d).Holds (some d) :=
  ⟨by rw [Descriptors.create, h.openFds_eq]; rfl, h.misused_eq⟩

end Descriptors
