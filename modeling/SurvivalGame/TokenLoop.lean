import Mathlib.Tactic.Common

/-! # Loops over tokens

A parser that takes one token after another off its input and handles each, until the
token is a last one.  `next` returns the token and the input behind it, `handle` works on
a value with what it reads there, or fails.

`run` has a bound on its turns.  When `next` and `handle` make the input shorter, a bound
above its size is as good as any other (`run_eq_run`), and `loop` is the loop without one
(`loop_eq`).

When `handle` reads an item and applies it to the value, the loop first reads all items
and then applies them in order (`run_bind_foldlM`): a parser that interprets what it
reads does nothing else than interpret what a parser that only collects has read.
-/
namespace TokenLoop

variable {σ τ α : Type}

/-- The loop, for at most so many turns. -/
def run (next : σ → τ × σ) (last : τ → Bool) (handle : σ → τ → α → Option (α × σ)) :
    Nat → σ → α → Option (α × σ)
  | 0, _, _ => none
  | turns + 1, s, x =>
    if last (next s).1 then some (x, (next s).2)
    else (handle (next s).2 (next s).1 x).bind fun p => run next last handle turns p.2 p.1

section Run

variable {next : σ → τ × σ} {last : τ → Bool} {handle : σ → τ → α → Option (α × σ)}

theorem run_succ (turns : Nat) (s : σ) (x : α) :
    run next last handle (turns + 1) s x =
      if last (next s).1 then some (x, (next s).2)
      else (handle (next s).2 (next s).1 x).bind fun p => run next last handle turns p.2 p.1 :=
  rfl

/-- A token that is not a last one has a size, and what is handled does not grow. -/
structure Shrinks (size : σ → Nat) (next : σ → τ × σ) (last : τ → Bool)
    (handle : σ → τ → α → Option (α × σ)) : Prop where
  next_lt : ∀ s, last (next s).1 = false → size (next s).2 < size s
  handle_le : ∀ s t x p, handle s t x = some p → size p.2 ≤ size s

/-- Turns above the size of the input make no difference. -/
theorem run_eq_run {size : σ → Nat} (h : Shrinks size next last handle) {m n : Nat} {s : σ}
    (hm : size s < m) (hn : size s < n) (x : α) :
    run next last handle m s x = run next last handle n s x := by
  induction m generalizing n s x with
  | zero => omega
  | succ m ih =>
    obtain ⟨n, rfl⟩ := Nat.exists_eq_add_of_lt (Nat.lt_of_le_of_lt (Nat.zero_le _) hn)
    rw [Nat.zero_add, run_succ, run_succ]
    cases hlast : last (next s).1 with
    | true => rfl
    | false =>
      have hnext := h.next_lt s hlast
      rw [if_neg Bool.false_ne_true, if_neg Bool.false_ne_true]
      refine Option.bind_congr fun p hp => ?_
      have hhandle := h.handle_le _ _ _ p hp
      exact ih (by omega) (by omega) p.1

/-- The loop with turns enough. -/
def loop (size : σ → Nat) (next : σ → τ × σ) (last : τ → Bool)
    (handle : σ → τ → α → Option (α × σ)) (s : σ) (x : α) : Option (α × σ) :=
  run next last handle (size s + 1) s x

/-- **The loop without a bound**: its own first turn and the rest of it. -/
theorem loop_eq {size : σ → Nat} (h : Shrinks size next last handle) (s : σ) (x : α) :
    loop size next last handle s x =
      if last (next s).1 then some (x, (next s).2)
      else (handle (next s).2 (next s).1 x).bind fun p => loop size next last handle p.2 p.1 := by
  rw [loop, run_succ]
  cases hlast : last (next s).1 with
  | true => rfl
  | false =>
    have hnext := h.next_lt s hlast
    rw [if_neg Bool.false_ne_true, if_neg Bool.false_ne_true]
    refine Option.bind_congr fun p hp => ?_
    have hhandle := h.handle_le _ _ _ p hp
    exact run_eq_run h (by omega) (by omega) p.1

/-- What is left is not longer than the input. -/
theorem size_le_of_run {size : σ → Nat} (h : Shrinks size next last handle)
    (hlast : ∀ s, size (next s).2 ≤ size s) {turns : Nat} {s : σ} {x : α} {p : α × σ}
    (hp : run next last handle turns s x = some p) : size p.2 ≤ size s := by
  induction turns generalizing s x with
  | zero => cases hp
  | succ turns ih =>
    rw [run_succ] at hp
    split at hp
    · cases hp
      exact hlast s
    · obtain ⟨q, hq, hp⟩ := Option.bind_eq_some_iff.mp hp
      exact Nat.le_trans (ih hp) (Nat.le_trans (h.handle_le _ _ _ q hq) (hlast s))

/-- What holds behind a last token, when something holds until then. -/
theorem of_run {I P : σ → Prop} (hnext : ∀ s, I s → last (next s).1 = false → I (next s).2)
    (hhandle : ∀ s t x p, I s → handle s t x = some p → I p.2)
    (hlast : ∀ s, I s → last (next s).1 = true → P (next s).2) {turns : Nat} {s : σ} (hs : I s)
    {x : α} {p : α × σ} (hp : run next last handle turns s x = some p) : P p.2 := by
  induction turns generalizing s x with
  | zero => cases hp
  | succ turns ih =>
    rw [run_succ] at hp
    cases hend : last (next s).1 with
    | true =>
      rw [if_pos hend] at hp
      cases hp
      exact hlast s hs hend
    | false =>
      rw [hend, if_neg Bool.false_ne_true] at hp
      obtain ⟨q, hq, hp⟩ := Option.bind_eq_some_iff.mp hp
      exact ih (hhandle _ _ _ q (hnext s hs hend) hq) hp

end Run

/-- A map of values that `handle` commutes with commutes with the loop. -/
theorem run_map_value {β : Type} {f : α → β} {next : σ → τ × σ} {last : τ → Bool}
    {handle : σ → τ → α → Option (α × σ)} {handle' : σ → τ → β → Option (β × σ)}
    (hhandle : ∀ s t x, (handle s t x).map (Prod.map f id) = handle' s t (f x)) (turns : Nat)
    (s : σ) (x : α) :
    (run next last handle turns s x).map (Prod.map f id) = run next last handle' turns s (f x) := by
  induction turns generalizing s x with
  | zero => rfl
  | succ turns ih =>
    rw [run_succ, run_succ]
    split
    · rfl
    · rw [← hhandle, Option.map_bind, Option.bind_map]
      congr 1
      funext p
      exact ih p.2 p.1

/-- Two loops in step: related inputs have related tokens, and handling those leaves
related inputs and the same value.  Behind a last token the inputs need not be related as
they were before (`E`). -/
theorem run_rel {σ' τ' : Type} {R E : σ → σ' → Prop} {T : τ → τ' → Prop} {next : σ → τ × σ}
    {next' : σ' → τ' × σ'} {last : τ → Bool} {last' : τ' → Bool}
    {handle : σ → τ → α → Option (α × σ)} {handle' : σ' → τ' → α → Option (α × σ')}
    (hnext : ∀ s s', R s s' → T (next s).1 (next' s').1 ∧
      if last (next s).1 then E (next s).2 (next' s').2 else R (next s).2 (next' s').2)
    (hlast : ∀ t t', T t t' → last t = last' t')
    (hhandle : ∀ s s' t t' x, R s s' → T t t' → last t = false →
      Option.Rel (fun p q => p.1 = q.1 ∧ R p.2 q.2) (handle s t x) (handle' s' t' x))
    (turns : Nat) {s : σ} {s' : σ'} (h : R s s') (x : α) :
    Option.Rel (fun p q => p.1 = q.1 ∧ E p.2 q.2) (run next last handle turns s x)
      (run next' last' handle' turns s' x) := by
  induction turns generalizing s s' x with
  | zero => exact .none
  | succ turns ih =>
    obtain ⟨htoken, hrest⟩ := hnext s s' h
    rw [run_succ, run_succ, ← hlast _ _ htoken]
    cases hend : last (next s).1 with
    | true =>
      rw [hend, if_pos rfl] at hrest
      exact .some ⟨rfl, hrest⟩
    | false =>
      rw [hend, if_neg Bool.false_ne_true] at hrest
      rw [if_neg Bool.false_ne_true, if_neg Bool.false_ne_true]
      have hrel := hhandle _ _ _ _ x hrest htoken hend
      generalize handle _ _ x = a, handle' _ _ x = b at hrel
      cases hrel with
      | none => exact .none
      | @some p q hpq =>
        change Option.Rel _ (run next last handle turns p.2 p.1)
          (run next' last' handle' turns q.2 q.1)
        rw [← hpq.1]
        exact ih hpq.2 p.1

/-- A map of inputs that `handle` commutes with, and `next` until the last token, commutes
with the loop, as far as can be seen behind that token. -/
theorem run_map {σ' : Type} {f : σ → σ'} {E : σ → σ' → Prop} {next : σ → τ × σ}
    {next' : σ' → τ × σ'} {last : τ → Bool} {handle : σ → τ → α → Option (α × σ)}
    {handle' : σ' → τ → α → Option (α × σ')}
    (hnext : ∀ s, (next' (f s)).1 = (next s).1 ∧
      if last (next s).1 then E (next s).2 (next' (f s)).2 else (next' (f s)).2 = f (next s).2)
    (hhandle : ∀ s t x, (handle s t x).map (Prod.map id f) = handle' (f s) t x)
    (turns : Nat) (s : σ) (x : α) :
    Option.Rel (fun p q => p.1 = q.1 ∧ E p.2 q.2) (run next last handle turns s x)
      (run next' last handle' turns (f s) x) := by
  refine run_rel (R := fun s s' => s' = f s) (T := Eq) ?_ ?_ ?_ turns rfl x
  · rintro s _ rfl
    exact ⟨(hnext s).1.symm, (hnext s).2⟩
  · rintro t _ rfl
    rfl
  · rintro s _ t _ x rfl rfl -
    rw [← hhandle]
    cases handle s t x with
    | none => exact .none
    | some p => exact .some ⟨rfl, rfl⟩

/-! ## Collecting and applying -/

section Items

variable {ι : Type} {next : σ → τ × σ} {last : τ → Bool} (read : σ → τ → Option (ι × σ))

/-- To collect is to put what is read behind what was read before. -/
def collect (s : σ) (t : τ) (items : List ι) : Option (List ι × σ) :=
  (read s t).map fun p => (items ++ [p.1], p.2)

/-- To apply is to work on the value with what is read. -/
def applying (apply : α → ι → Option α) (s : σ) (t : τ) (x : α) : Option (α × σ) :=
  (read s t).bind fun p => (apply x p.1).map fun y => (y, p.2)

theorem shrinks_collect {size : σ → Nat}
    (hnext : ∀ s, last (next s).1 = false → size (next s).2 < size s)
    (hread : ∀ s t p, read s t = some p → size p.2 ≤ size s) :
    Shrinks size next last (collect read) where
  next_lt := hnext
  handle_le s t x p hp := by
    obtain ⟨q, hq, rfl⟩ := Option.map_eq_some_iff.mp hp
    exact hread s t q hq

/-- What was collected before stays in front. -/
theorem run_collect_append (turns : Nat) (s : σ) (items : List ι) :
    run next last (collect read) turns s items =
      (run next last (collect read) turns s []).map fun p => (items ++ p.1, p.2) := by
  induction turns generalizing s items with
  | zero => rfl
  | succ turns ih =>
    rw [run_succ, run_succ]
    split
    · simp
    · simp only [collect, Option.bind_map, Option.map_bind, List.nil_append]
      congr 1
      funext p
      simp only [Function.comp_apply]
      rw [ih p.2 (items ++ [p.1]), ih p.2 [p.1], Option.map_map]
      congr 1
      funext q
      simp

/-- **Apply what is collected**: a loop that applies what it reads reads everything and
then applies it in order. -/
theorem run_bind_foldlM (apply : α → ι → Option α) (turns : Nat) (s : σ) (x : α) :
    run next last (applying read apply) turns s x =
      (run next last (collect read) turns s []).bind fun p =>
        (p.1.foldlM apply x).map fun y => (y, p.2) := by
  induction turns generalizing s x with
  | zero => rfl
  | succ turns ih =>
    rw [run_succ, run_succ]
    split
    · rfl
    · simp only [collect, applying, Option.bind_map, Option.bind_assoc, List.nil_append]
      congr 1
      funext p
      simp only [Function.comp_apply]
      rw [run_collect_append read turns p.2 [p.1], Option.bind_map]
      cases happly : apply x p.1 with
      | none =>
        cases run next last (collect read) turns p.2 [] with
        | none => rfl
        | some q => simp [List.foldlM_cons, happly]
      | some y =>
        refine (ih p.2 y).trans ?_
        congr 1
        funext q
        simp [List.foldlM_cons, happly]

end Items

/-- Two loops that end at different tokens agree on what ends at a token that is last for
both, when `handle` fails on the others and `check` does, after every token that is
reached. -/
theorem run_bind_eq_run_bind {β : Type} {next : σ → τ × σ} {last last' : τ → Bool}
    {handle : σ → τ → α → Option (α × σ)} {check : α × σ → Option β} {I : σ → Prop}
    (hle : ∀ t, last t = true → last' t = true)
    (hnext : ∀ s, I s → last (next s).1 = false → I (next s).2)
    (hhandle : ∀ s t x p, I s → handle s t x = some p → I p.2)
    (hfail : ∀ s t x, last t = false → last' t = true → handle s t x = none)
    (hcheck : ∀ s x, I s → check (x, s) = none) (turns : Nat) {s : σ} (hs : I s) (x : α) :
    (run next last handle turns s x).bind check = (run next last' handle turns s x).bind check := by
  induction turns generalizing s x with
  | zero => rfl
  | succ turns ih =>
    rw [run_succ, run_succ]
    cases hlast : last (next s).1 with
    | true =>
      rw [hle _ hlast]
      rfl
    | false =>
      have hI := hnext s hs hlast
      rw [if_neg Bool.false_ne_true, Option.bind_assoc]
      cases hlast' : last' (next s).1 with
      | true => simp [hfail _ _ _ hlast hlast', hcheck _ _ hI]
      | false =>
        rw [if_neg Bool.false_ne_true, Option.bind_assoc]
        exact Option.bind_congr fun p hp => ih (hhandle _ _ _ p hI hp) p.1

end TokenLoop
