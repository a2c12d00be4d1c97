import SurvivalGame.Payload

/-! # A body put together from its pieces

Whatever the pieces in which the OS hands a body over, and however often it has
nothing in between, the body loop ends with the piece that completes the body, and
has pushed the body then and not before (`body_reassembled`).

The state of the receiver inside the body is known by the number of bytes read
(`inBody`); an answer moves it on to the next such state or, when the number is the
length, out of the loop.
-/
namespace SurvivalGame
open Transition

/-- The bytes that an answer hands over. -/
def RecvAnswer.bytes : RecvAnswer → ℕ
  | .error => 0
  | .took k => k

/-- The bytes that several answers hand over. -/
def delivered (answers : List RecvAnswer) : ℕ := (answers.map RecvAnswer.bytes).sum

@[simp] theorem delivered_nil : delivered [] = 0 := rfl

@[simp] theorem delivered_cons (a : RecvAnswer) (answers : List RecvAnswer) :
    delivered (a :: answers) = a.bytes + delivered answers := by
  simp [delivered]

/-- Answers that hand nothing over are refusals. -/
theorem eq_error_of_delivered {answers : List RecvAnswer} (hans : ∀ a ∈ answers, a ≠ .took 0)
    (h : delivered answers = 0) : ∀ a ∈ answers, a = .error := by
  induction answers with
  | nil => nofun
  | cons a answers ih =>
    rw [delivered_cons, Nat.add_eq_zero_iff] at h
    rw [List.forall_mem_cons] at hans ⊢
    refine ⟨?_, ih hans.2 h.2⟩
    match a with
    | .error => rfl
    | .took 0 => exact absurd rfl hans.1
    | .took (k + 1) => exact absurd h.1 (Nat.succ_ne_zero k)

/-- A header with a body of positive length leads into the loop. -/
theorem decode_eq_body {recvHeadBuf : List CChar} {msgLen : ℕ}
    (h6 : 6 < (protobufLength recvHeadBuf).toNat)
    (hmsgLen : (protocol recvHeadBuf).toInt = msgLen) (hpos : 0 < msgLen)
    (hlt : msgLen < 2 ^ 31 - 1) :
    decode recvHeadBuf = .body (msgId recvHeadBuf) msgLen (List.replicate (msgLen + 1) 0) 0 := by
  have hone : (protocol recvHeadBuf + 1).toInt = (msgLen + 1 : ℕ) := by
    have hadd : (protocol recvHeadBuf + 1).toNat = ((protocol recvHeadBuf).toNat + 1) % 2 ^ 32 :=
      BitVec.toNat_add _ 1
    have hbound := (protocol recvHeadBuf).isLt
    rw [BitVec.toInt_eq_toNat_cond] at hmsgLen ⊢
    split at hmsgLen <;> split <;> omega
  rw [decode, if_pos h6, hone, if_neg (by omega), hmsgLen, if_pos (by omega), Int.toNat_natCast,
    Int.toNat_natCast]

namespace Receiver

/-- The receiver with `m` bytes of `body` read. -/
def inBody (r : Receiver) (msgid : CUInt) (body rest : List CChar) (m : ℕ) : Receiver :=
  { r with
    pc := .body msgid body.length (filled body (body.length + 1) m) m
    stream := body.drop m ++ rest
    consumed := r.consumed + m }

/-- The receiver with `body` read and pushed. -/
def outOfBody (r : Receiver) (msgid : CUInt) (body rest : List CChar) : Receiver :=
  { pc := .idle
    stream := rest
    consumed := r.consumed + body.length
    recvQueue := pushRecvQueue r.recvQueue ⟨body ++ [0], msgid⟩
    pushes := r.pushes ++ [⟨⟨body ++ [0], msgid⟩, r.consumed + body.length⟩] }

section Body
variable {sizeofPtr : ℕ} {r : Receiver} {msgid : CUInt} {body rest : List CChar} {m k : ℕ}

theorem step_error_inBody : (r.inBody msgid body rest m).step sizeofPtr (.recv .error) =
    some (r.inBody msgid body rest m) := rfl

/-- **A piece of the body.** -/
theorem step_took_inBody (hk : 0 < k) (hle : m + k ≤ body.length) :
    (r.inBody msgid body rest m).step sizeofPtr (.recv (.took k)) =
      some (if m + k = body.length then r.outOfBody msgid body rest
        else r.inBody msgid body rest (m + k)) := by
  have hlen : k ≤ (body.drop m ++ rest).length := by
    rw [List.length_append, List.length_drop]
    omega
  have hreq : request sizeofPtr (r.inBody msgid body rest m).pc = some (m, body.length - m) := rfl
  have hstep : (r.inBody msgid body rest m).step sizeofPtr (.recv (.took k)) =
      some ((r.inBody msgid body rest m).take k) := by
    simp only [step, hreq]
    exact if_pos ⟨by omega, hlen⟩
  rw [hstep, take_body rfl rfl (show m < body.length by omega) (by omega)]
  split
  · rename_i hfull
    simp only [inBody, outOfBody, Nat.add_assoc, hfull]
  · simp only [inBody, Nat.add_assoc]

/-- **The body loop ends with the piece that completes the body.** -/
theorem run_inBody (sizeofPtr : ℕ) (r : Receiver) (msgid : CUInt) {body : List CChar}
    (rest : List CChar) {answers : List RecvAnswer} (hans : ∀ a ∈ answers, a ≠ .took 0)
    (hm : m < body.length) (htotal : m + delivered answers = body.length) :
    ∃ pre post, answers = pre ++ post ∧ (∀ a ∈ post, a = .error) ∧
      run (fun r answer => step sizeofPtr r (.recv answer)) (r.inBody msgid body rest m) pre =
        some (r.outOfBody msgid body rest) ∧
      Along (fun r answer => step sizeofPtr r (.recv answer))
        (fun s _ => s.pushes = r.pushes ∧ ∃ msgBody readSize,
          s.pc = .body msgid body.length msgBody readSize ∧ readSize < body.length)
        (r.inBody msgid body rest m) pre := by
  induction answers generalizing m with
  | nil =>
    rw [delivered_nil] at htotal
    omega
  | cons a answers ih =>
    rw [delivered_cons] at htotal
    rw [List.forall_mem_cons] at hans
    cases a with
    | error =>
      have htotal : m + delivered answers = body.length := by simpa [RecvAnswer.bytes] using htotal
      obtain ⟨pre, post, rfl, hpost, hrun, halong⟩ := ih hans.2 hm htotal
      exact ⟨.error :: pre, post, rfl, hpost, hrun,
        .cons ⟨rfl, _, m, rfl, hm⟩ step_error_inBody halong⟩
    | took k =>
      have hk : 0 < k := Nat.pos_of_ne_zero fun h => hans.1 (by rw [h])
      have htotal : m + (k + delivered answers) = body.length := htotal
      have hstep : (r.inBody msgid body rest m).step sizeofPtr (.recv (.took k)) = _ :=
        step_took_inBody hk (show m + k ≤ body.length by omega)
      by_cases hfull : m + k = body.length
      · rw [if_pos hfull] at hstep
        refine ⟨[.took k], answers, rfl, eq_error_of_delivered hans.2 (by omega), ?_,
          ⟨rfl, _, m, rfl, hm⟩, fun _ _ => trivial⟩
        exact run_cons_eq_some.mpr ⟨_, hstep, rfl⟩
      · rw [if_neg hfull] at hstep
        obtain ⟨pre, post, rfl, hpost, hrun, halong⟩ :=
          ih hans.2 (show m + k < body.length by omega) (by omega)
        exact ⟨.took k :: pre, post, rfl, hpost, run_cons_eq_some.mpr ⟨_, hstep, hrun⟩,
          .cons ⟨rfl, _, m, rfl, hm⟩ hstep halong⟩

end Body

/-- **A body is put together from any pieces.**  For every decoded header with a body
of positive length, every stream that holds the body, and all answers that hand over
just as many bytes: the loop ends, and what is left of the answers are refusals.  Before
each answer that it takes, nothing has been pushed and bytes are missing; at the end the
body has been pushed once, with a zero byte behind it, and the stream goes on behind the
body. -/
theorem body_reassembled {sizeofPtr : ℕ} {r : Receiver} {recvHeadBuf : List CChar} {msgLen : ℕ}
    {answers : List RecvAnswer} (h6 : 6 < (protobufLength recvHeadBuf).toNat)
    (hmsgLen : (protocol recvHeadBuf).toInt = msgLen) (hpos : 0 < msgLen)
    (hlt : msgLen < 2 ^ 31 - 1) (hpc : r.pc = decode recvHeadBuf)
    (hstream : msgLen ≤ r.stream.length) (hans : ∀ a ∈ answers, a ≠ .took 0)
    (htotal : delivered answers = msgLen) :
    ∃ pre post r', answers = pre ++ post ∧ (∀ a ∈ post, a = .error) ∧
      run (fun r answer => step sizeofPtr r (.recv answer)) r pre = some r' ∧
      r'.pc = .idle ∧
      r'.pushes = r.pushes ++
        [⟨⟨r.stream.take msgLen ++ [0], msgId recvHeadBuf⟩, r.consumed + msgLen⟩] ∧
      r'.stream = r.stream.drop msgLen ∧ r'.consumed = r.consumed + msgLen ∧
      Along (fun r answer => step sizeofPtr r (.recv answer))
        (fun s _ => s.pushes = r.pushes ∧ ∃ msgBody readSize,
          s.pc = .body (msgId recvHeadBuf) msgLen msgBody readSize ∧ readSize < msgLen) r pre := by
  have hlen : (r.stream.take msgLen).length = msgLen := List.length_take_of_le hstream
  have hstart :
      r.inBody (msgId recvHeadBuf) (r.stream.take msgLen) (r.stream.drop msgLen) 0 = r := by
    rw [decode_eq_body h6 hmsgLen hpos hlt] at hpc
    rw [inBody, filled_zero, hlen, ← hpc, List.drop_zero, List.take_append_drop]
    rfl
  obtain ⟨pre, post, hsplit, hpost, hrun, halong⟩ :=
    run_inBody sizeofPtr r (msgId recvHeadBuf) (r.stream.drop msgLen) hans
      (show 0 < (r.stream.take msgLen).length by omega) (by omega)
  rw [hstart, hlen] at halong
  rw [hstart] at hrun
  refine ⟨pre, post, _, hsplit, hpost, hrun, rfl, ?_, rfl, ?_, halong⟩
  · rw [outOfBody, hlen]
  · rw [outOfBody, hlen]

/-- Three bytes in two pieces, with nothing in between and once more behind them, and a
byte of the next frame. -/
theorem body_reassembled_pieces :
    ∃ pre post r', [.took 2, .error, .took 1, .error] = pre ++ post ∧
      (∀ a ∈ post, a = RecvAnswer.error) ∧
      run (fun r answer => step 8 r (.recv answer)) (atBody [10, 0, 97, 11]) pre = some r' ∧
      r'.pc = .idle ∧
      r'.pushes = (atBody [10, 0, 97, 11]).pushes ++
        [⟨⟨(atBody [10, 0, 97, 11]).stream.take 3 ++ [0], msgId (header 3 1001)⟩,
          (atBody [10, 0, 97, 11]).consumed + 3⟩] ∧
      r'.stream = (atBody [10, 0, 97, 11]).stream.drop 3 ∧
      r'.consumed = (atBody [10, 0, 97, 11]).consumed + 3 ∧
      Along (fun r answer => step 8 r (.recv answer))
        (fun s _ => s.pushes = (atBody [10, 0, 97, 11]).pushes ∧ ∃ msgBody readSize,
          s.pc = .body (msgId (header 3 1001)) 3 msgBody readSize ∧ readSize < 3)
        (atBody [10, 0, 97, 11]) pre :=
  body_reassembled (show 6 < (protobufLength (header 3 1001)).toNat by decide) (by decide)
    (by decide) (by decide) rfl (by decide) (by simp) rfl

end Receiver

end SurvivalGame
