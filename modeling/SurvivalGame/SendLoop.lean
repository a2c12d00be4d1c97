import SurvivalGame.Send

/-! # The loop of `ODSocket::Send`

`Send` hands the rest of its buffer to the OS until all of it is taken or a send is
refused.  Here the loop is a machine of its own, driven by the answers of the OS and
by nothing else.  What the OS has taken is at every moment a prefix of the buffer
(`Sent`), and every sequence of answers brings the loop to its end (`send_gap_free`).

It is the loop that `sendFunc` goes through with its pocket (`sendFunc_sending`).
-/
namespace SurvivalGame
open Transition

/-- A call `Send(buf, len)`: `count`, the bytes that the OS has taken, and the value
returned. -/
structure SendCall where
  count : ℕ
  accepted : List CChar
  returned : Option Int
deriving DecidableEq

/-- The number of bytes that the OS takes with an answer. -/
def SendAnswer.taken : SendAnswer → ℕ
  | .error => 0
  | .accepted k => k

theorem SendAnswer.taken_of_refuses {answer : SendAnswer} (h : answer.refuses = true) :
    answer.taken = 0 := by
  cases answer with
  | error => rfl
  | accepted k => exact beq_iff_eq.mp h

namespace SendCall

/-- `while (count < len)`, and the `return` behind it. -/
def head (len : Int) (s : SendCall) : SendCall :=
  if s.count < len then s else { s with returned := some s.count }

@[simp] theorem head_count (len : Int) (s : SendCall) : (head len s).count = s.count := by
  unfold head
  split <;> rfl

@[simp] theorem head_accepted (len : Int) (s : SendCall) :
    (head len s).accepted = s.accepted := by
  unfold head
  split <;> rfl

/-- Before the first `send`. -/
def start (len : Int) : SendCall := head len ⟨0, [], none⟩

/-- Offset and size of the `send` that is about to be made. -/
def request (len : Int) (s : SendCall) : Option (ℕ × ℕ) :=
  if s.returned = none then some (s.count, (len - s.count).toNat) else none

/-- An answer to the pending `send`.  The OS takes no more than it is offered. -/
def step (buf : List CChar) (len : Int) (s : SendCall) (answer : SendAnswer) : Option SendCall :=
  match s.request len, answer with
  | none, _ => none
  | some _, .error => some { s with returned := some (-1) }
  | some _, .accepted 0 => some { s with returned := some (-1) }
  | some (off, size), .accepted (k + 1) =>
    if k + 1 ≤ size then
      some (head len { s with
        count := s.count + (k + 1)
        accepted := s.accepted ++ (buf.drop off).take (k + 1) })
    else none

/-- What an answer can do. -/
inductive Step (buf : List CChar) (len : Int) (s : SendCall) : SendAnswer → SendCall → Prop
  | refused {answer : SendAnswer} (h : s.returned = none) (href : answer.refuses = true) :
      Step buf len s answer { s with returned := some (-1) }
  | taken {k : ℕ} (h : s.returned = none) (hk : 0 < k) (hle : s.count + k ≤ len) :
      Step buf len s (.accepted k) (head len { s with
        count := s.count + k, accepted := s.accepted ++ (buf.drop s.count).take k })

section Steps
variable {buf : List CChar} {len : Int} {s t : SendCall} {answer : SendAnswer}

theorem request_of_pending (h : s.returned = none) :
    s.request len = some (s.count, (len - s.count).toNat) := if_pos h

theorem step_of_returned (h : s.returned ≠ none) : step buf len s answer = none := by
  simp only [step, request, if_neg h]

theorem step_of_refuses (h : s.returned = none) (href : answer.refuses = true) :
    step buf len s answer = some { s with returned := some (-1) } := by
  match answer with
  | .error => simp only [step, request_of_pending h]
  | .accepted 0 => simp only [step, request_of_pending h]
  | .accepted (k + 1) => cases href

/-- **The inversion of a step.** -/
theorem step_cases (h : step buf len s answer = some t) : Step buf len s answer t := by
  by_cases hs : s.returned = none
  · match answer with
    | .error =>
      rw [step_of_refuses hs rfl] at h
      cases h
      exact .refused hs rfl
    | .accepted 0 =>
      rw [step_of_refuses hs rfl] at h
      cases h
      exact .refused hs rfl
    | .accepted (k + 1) =>
      simp only [step, request_of_pending hs] at h
      split at h
      · cases h
        exact .taken hs (Nat.succ_pos k) (by omega)
      · cases h
  · rw [step_of_returned hs] at h
    cases h

/-- What holds between the answers: the OS has taken the first `count` bytes, and the
loop has ended with them all, with a refusal before that, or not yet. -/
structure Sent (buf : List CChar) (len : Int) (s : SendCall) : Prop where
  accepted : s.accepted = buf.take s.count
  count_le : s.count ≤ len
  pending : s.returned = none → s.count < len
  value : ∀ v, s.returned = some v → v = -1 ∧ s.count < len ∨ v = len ∧ s.count = len

/-- The head of the loop keeps what there is, and ends the loop at the end. -/
theorem sent_head (hacc : s.accepted = buf.take s.count) (hle : s.count ≤ len)
    (hs : s.returned = none) : Sent buf len (head len s) := by
  unfold head
  by_cases hlt : s.count < len
  · rw [if_pos hlt]
    exact ⟨hacc, hle, fun _ => hlt, fun v hv => by rw [hs] at hv; cases hv⟩
  · rw [if_neg hlt]
    have heq : (s.count : Int) = len := by omega
    refine ⟨hacc, hle, ?_, ?_⟩
    · intro h
      cases h
    · intro v hv
      cases hv
      exact Or.inr ⟨heq, heq⟩

theorem sent_start (h0 : 0 ≤ len) : Sent buf len (start len) := sent_head rfl h0 rfl

/-- **The step lemma of `Send`.** -/
theorem sent_step (hs : Sent buf len s) (h : step buf len s answer = some t) :
    Sent buf len t := by
  cases step_cases h with
  | refused hnone _ =>
    refine ⟨hs.accepted, hs.count_le, ?_, ?_⟩
    · intro h
      cases h
    · intro v hv
      cases hv
      exact Or.inl ⟨rfl, hs.pending hnone⟩
  | taken hnone hk hle =>
    refine sent_head ?_ (by push_cast; omega) hnone
    rw [hs.accepted, List.take_add]

/-- Each `send` offers the rest up to `len`. -/
theorem Sent.request_bounds {off size : ℕ} (hs : Sent buf len s)
    (hreq : s.request len = some (off, size)) :
    off = s.count ∧ 0 < size ∧ (off + size : ℕ) = len := by
  by_cases hnone : s.returned = none
  · rw [request_of_pending hnone] at hreq
    cases hreq
    have hlt := hs.pending hnone
    omega
  · rw [request, if_neg hnone] at hreq
    cases hreq

/-- `len` is returned when all of it is taken. -/
theorem Sent.returned_len_iff (hs : Sent buf len s) (h0 : 0 ≤ len) :
    s.returned = some len ↔ s.count = len := by
  constructor
  · intro hv
    rcases hs.value len hv with ⟨hneg, -⟩ | ⟨-, hcount⟩
    · omega
    · exact hcount
  · intro hcount
    cases hret : s.returned with
    | none =>
      have hlt := hs.pending hret
      omega
    | some v =>
      rcases hs.value v hret with ⟨-, hlt⟩ | ⟨rfl, -⟩
      · omega
      · rfl

theorem Sent.count_lt_of_refused (hs : Sent buf len s) (h0 : 0 ≤ len)
    (hv : s.returned = some (-1)) : s.count < len := by
  rcases hs.value (-1) hv with ⟨-, hlt⟩ | ⟨hneg, -⟩
  · exact hlt
  · omega

theorem head_returned_ne (hs : s.returned ≠ some (-1)) : (head len s).returned ≠ some (-1) := by
  unfold head
  split
  · exact hs
  · intro h
    have := Option.some.inj h
    omega

/-- -1 is returned after a refusal, and after nothing else. -/
theorem run_refused {answers : List SendAnswer} (hs : s.returned ≠ some (-1))
    (hrun : run (step buf len) s answers = some t) :
    t.returned = some (-1) ↔ ∃ a ∈ answers, a.refuses = true := by
  induction answers generalizing s with
  | nil =>
    cases hrun
    exact iff_of_false hs nofun
  | cons a answers ih =>
    obtain ⟨u, hu, hrun⟩ := run_cons_eq_some.mp hrun
    cases step_cases hu with
    | refused _ href =>
      refine iff_of_true ?_ ⟨a, List.mem_cons_self, href⟩
      cases answers with
      | nil => cases hrun; rfl
      | cons b answers =>
        obtain ⟨v, hv, -⟩ := run_cons_eq_some.mp hrun
        rw [step_of_returned (fun h => by cases h)] at hv
        cases hv
    | @taken k hnone hk _ =>
      have hk' : (SendAnswer.accepted k).refuses = false := by
        rw [SendAnswer.refuses, beq_eq_false_iff_ne]
        omega
      refine (ih ?_ hrun).trans ?_
      · exact head_returned_ne hs
      · rw [List.exists_mem_cons_iff, hk']
        simp

/-- `count` adds up what the OS has taken. -/
theorem count_run {answers : List SendAnswer} (hrun : run (step buf len) s answers = some t) :
    t.count = s.count + (answers.map SendAnswer.taken).sum := by
  induction answers generalizing s with
  | nil =>
    cases hrun
    rfl
  | cons a answers ih =>
    obtain ⟨u, hu, hrun⟩ := run_cons_eq_some.mp hrun
    rw [ih hrun, List.map_cons, List.sum_cons, ← Nat.add_assoc]
    cases step_cases hu with
    | refused _ href => rw [SendAnswer.taken_of_refuses href, Nat.add_zero]
    | taken => rw [head_count, SendAnswer.taken]

/-- What the call may still offer to the OS, and one more while it is under way. -/
def remaining (len : Int) (s : SendCall) : ℕ :=
  if s.returned = none then (len - s.count).toNat + 1 else 0

theorem remaining_head (hs : s.returned = none) :
    remaining len (head len s) ≤ (len - s.count).toNat + 1 := by
  unfold head remaining
  split
  · exact Nat.le_refl _
  · exact Nat.zero_le _

/-- Each answer brings the call nearer to its end. -/
theorem remaining_lt (hs : Sent buf len s) (h : step buf len s answer = some t) :
    remaining len t < remaining len s := by
  cases step_cases h with
  | refused hnone _ =>
    rw [remaining, remaining, if_pos hnone, if_neg (by intro h; cases h)]
    exact Nat.succ_pos _
  | taken hnone hk hle =>
    refine Nat.lt_of_le_of_lt (remaining_head hnone) ?_
    have := hs.pending hnone
    rw [remaining, if_pos hnone]
    push_cast
    omega

/-- Whatever the OS answers, the call returns. -/
theorem send_returns (h0 : 0 ≤ len) :
    Inevitable (step buf len) (fun _ _ => True) (fun s => s.returned ≠ none) (start len) := by
  refine .of_measure (I := Sent buf len) (remaining len) ?_ ?_ (sent_start h0)
  · intro s _ hpending
    rw [not_not] at hpending
    exact ⟨.error, _, trivial, step_of_refuses hpending rfl⟩
  · intro s answer t hs _ _ hstep
    exact ⟨remaining_lt hs hstep, Or.inr (sent_step hs hstep)⟩

end Steps

end SendCall

/-! ## The calls of `sendFunc` -/

/-- `sendFunc` calls `Send` with no more bytes than its buffer holds. -/
theorem startSend_bounds {pk : Pocket} {buf : List CChar} {len : Int} {count : ℕ}
    (h : startSend pk = .sending buf len count) : count = 0 ∧ len ≤ buf.length := by
  have hint (x : CUInt) : x.toInt ≤ x.toNat := by
    rw [BitVec.toInt_eq_toNat_cond]
    split <;> omega
  unfold startSend at h
  split at h
  · split at h
    · cases h
    · cases h
      have hadd : (pk.length + 10).toNat ≤ pk.length.toNat + 10 := by
        rw [BitVec.toNat_add]
        exact Nat.mod_le _ _
      refine ⟨rfl, (hint _).trans ?_⟩
      rw [sendData_length]
      exact_mod_cast hadd
  · cases h
    refine ⟨rfl, ?_⟩
    rw [pk.msg_length]
    exact hint _

/-- **The loop of `Send` is the one in `sendFunc`.**  An answer to a `send` does the same
to both: the call goes on with the new `count`, or is over. -/
theorem sendFunc_sending (q : Queue) {buf : List CChar} {len : Int} {s : SendCall}
    (hs : s.returned = none) (hlt : s.count < len) (answer : SendAnswer) :
    sendFunc q (.sending buf len s.count) (.send answer) =
      (SendCall.step buf len s answer).map fun t =>
        (q, if t.returned = some (-1) then .idle else .sending buf len t.count,
          t.accepted.drop s.accepted.length) := by
  match answer with
  | .error =>
    rw [SendCall.step_of_refuses hs rfl]
    simp [sendFunc, hlt]
  | .accepted 0 =>
    rw [SendCall.step_of_refuses hs rfl]
    simp [sendFunc, hlt]
  | .accepted (k + 1) =>
    by_cases hle : s.count + ((k : Int) + 1) ≤ len
    · have hfit : k + 1 ≤ (len - s.count).toNat := by omega
      simp only [sendFunc, if_pos hlt, if_pos hle, SendCall.step, SendCall.request_of_pending hs,
        if_pos hfit, Option.map_some, SendCall.head_count, SendCall.head_accepted, List.drop_left]
      rw [if_neg]
      exact SendCall.head_returned_ne (by rw [hs]; intro h; cases h)
    · have hfit : ¬ k + 1 ≤ (len - s.count).toNat := by omega
      simp only [sendFunc, if_pos hlt, if_neg hle, SendCall.step, SendCall.request_of_pending hs,
        if_neg hfit, Option.map_none]

/-- **`Send` writes a gap-free beginning of its buffer.**  `sendFunc` calls it with a
length that its buffer has.  For every such buffer and length, whatever the OS answers:
the call returns; `count` adds up what the OS has taken, which is the first `count`
bytes; each `send` offers it the rest up to `len`; the value is `len` or -1: `len` if all
of them are taken, and -1 if a `send` was refused, which is before that. -/
theorem send_gap_free :
    (∀ pk buf len count, startSend pk = .sending buf len count →
      count = 0 ∧ len ≤ buf.length) ∧
    ∀ (buf : List CChar) (len : Int), 0 ≤ len → len ≤ buf.length →
      Inevitable (SendCall.step buf len) (fun _ _ => True) (fun s => s.returned ≠ none)
        (SendCall.start len) ∧
      ∀ answers s, run (SendCall.step buf len) (SendCall.start len) answers = some s →
        s.count = (answers.map SendAnswer.taken).sum ∧ s.accepted = buf.take s.count ∧
        (∀ off size, s.request len = some (off, size) →
          off = s.count ∧ 0 < size ∧ (off + size : ℕ) = len ∧ off + size ≤ buf.length) ∧
        (∀ v, s.returned = some v → v = len ∨ v = -1) ∧
        (s.returned = some len ↔ s.count = len) ∧
        (s.returned = some (-1) ↔ ∃ a ∈ answers, a.refuses = true) ∧
        ((∃ a ∈ answers, a.refuses = true) → s.count < len) := by
  refine ⟨fun _ _ _ _ => startSend_bounds, ?_⟩
  intro buf len h0 hlen
  refine ⟨SendCall.send_returns h0, ?_⟩
  intro answers s hrun
  have hsent : SendCall.Sent buf len s :=
    run_invariant (fun _ _ _ => SendCall.sent_step) hrun (SendCall.sent_start h0)
  have hrefused := SendCall.run_refused
    (SendCall.head_returned_ne (s := ⟨0, [], none⟩) (by intro h; cases h)) hrun
  refine ⟨?_, hsent.accepted, ?_, ?_, hsent.returned_len_iff h0, hrefused, ?_⟩
  · rw [SendCall.count_run hrun, SendCall.start, SendCall.head_count, Nat.zero_add]
  · intro off size hreq
    obtain ⟨hoff, hsize, hsum⟩ := hsent.request_bounds hreq
    exact ⟨hoff, hsize, hsum, by omega⟩
  · intro v hv
    rcases hsent.value v hv with ⟨hneg, -⟩ | ⟨hlen, -⟩
    · exact Or.inr hneg
    · exact Or.inl hlen
  · intro href
    exact hsent.count_lt_of_refused h0 (hrefused.mpr href)

/-- Three bytes, taken in two pieces. -/
theorem send_gap_free_pieces :
    Inevitable (SendCall.step [1, 2, 3] 3) (fun _ _ => True) (fun s => s.returned ≠ none)
      (SendCall.start 3) ∧
    ∃ s, run (SendCall.step [1, 2, 3] 3) (SendCall.start 3) [.accepted 2, .accepted 1] = some s ∧
      s.count = 2 + 1 ∧ s.accepted = ([1, 2, 3] : List CChar).take s.count ∧
      (s.returned = some 3 ↔ (s.count : Int) = 3) := by
  obtain ⟨hreturns, hruns⟩ := send_gap_free.2 [1, 2, 3] 3 (by decide) (by decide)
  obtain ⟨hcount, haccepted, -, -, hlen, -⟩ := hruns [.accepted 2, .accepted 1] _ rfl
  exact ⟨hreturns, _, rfl, hcount, haccepted, hlen⟩

end SurvivalGame
