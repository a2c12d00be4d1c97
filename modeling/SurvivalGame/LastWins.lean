import Mathlib.Tactic.Common

/-! # The last value wins

A value that is read off a list of items: `take` finds it in some items, and the last
such item counts.  `last` is that value, with one to begin with for lists that have none.
-/
namespace LastWins

variable {ι V : Type} (take : ι → Option V)

/-- The last value among the items. -/
def last (x : V) (items : List ι) : V := items.foldl (fun x item => (take item).getD x) x

@[simp] theorem last_nil (x : V) : last take x [] = x := rfl

@[simp] theorem last_cons (x : V) (item : ι) (items : List ι) :
    last take x (item :: items) = last take ((take item).getD x) items := rfl

theorem last_append (x : V) (items items' : List ι) :
    last take x (items ++ items') = last take (last take x items) items' := by
  rw [last, List.foldl_append]
  rfl

variable {take}

/-- Items without a value do not matter. -/
theorem last_eq_of_forall_none {x : V} {items : List ι} (h : ∀ item ∈ items, take item = none) :
    last take x items = x := by
  induction items with
  | nil => rfl
  | cons item items ih =>
    rw [last_cons, h item List.mem_cons_self]
    exact ih fun item hitem => h item (List.mem_cons_of_mem _ hitem)

/-- Items that are left out and have no value do not matter. -/
theorem last_filter {p : ι → Bool} (x : V) (items : List ι)
    (h : ∀ item ∈ items, p item = false → take item = none) :
    last take x (items.filter p) = last take x items := by
  induction items generalizing x with
  | nil => rfl
  | cons item items ih =>
    have htail := fun x => ih x fun item hitem => h item (List.mem_cons_of_mem _ hitem)
    rw [List.filter_cons]
    cases hp : p item with
    | true => rw [if_pos rfl, last_cons, last_cons, htail]
    | false =>
      rw [if_neg Bool.false_ne_true, last_cons, h item List.mem_cons_self hp, htail]
      rfl

/-- The last value is the one to begin with or that of an item. -/
theorem last_mem (take : ι → Option V) (x : V) (items : List ι) :
    last take x items = x ∨ ∃ item ∈ items, take item = some (last take x items) := by
  induction items generalizing x with
  | nil => exact .inl rfl
  | cons item items ih =>
    rw [last_cons]
    obtain h | ⟨i, hi, h⟩ := ih ((take item).getD x)
    · cases hitem : take item with
      | none =>
        rw [hitem] at h
        exact .inl h
      | some y =>
        rw [hitem] at h
        exact .inr ⟨item, List.mem_cons_self, hitem.trans (congrArg some h.symm)⟩
    · exact .inr ⟨i, List.mem_cons_of_mem _ hi, h⟩

end LastWins
