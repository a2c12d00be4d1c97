import SurvivalGame.Receive

/-! # The body on its way to the consumer

`recvFunc` reads a body by its length into a zeroed buffer one byte longer, and
passes the buffer on as a C string: `MakePocket` finds its length with `strlen`.
The buffer always ends in a NUL, so nothing is read past it, but a zero byte in
the body ends the string early.  A body arrives at the consumer unchanged exactly
when it holds none (`pullPocket_body_iff`), however its bytes were handed over.
-/
namespace SurvivalGame
open Transition

/-- The pocket that `PullPocket` returns after `k` calls before it. -/
def Queue.pulled (q : Queue) : Nat → Option Pocket
  | 0 => q.pullPocket.1
  | k + 1 => q.pullPocket.2.pulled k

theorem Queue.pulled_eq (q : Queue) (k : Nat) : q.pulled k = q.pks[k]? := by
  induction k generalizing q with
  | zero =>
    rw [pulled]
    cases h : q.pks with
    | nil => rw [pullPocket_of_nil h]; rfl
    | cons pk pks => rw [pullPocket_of_cons h]; rfl
  | succ k ih =>
    rw [pulled, ih]
    cases h : q.pks with
    | nil => simp [pullPocket_of_nil h, h]
    | cons pk pks => simp [pullPocket_of_cons h]

/-- The pocket that was pushed last is the one pulled behind all earlier ones. -/
theorem Queue.pulled_pushPocket (q : Queue) (pk : Pocket) :
    (q.pushPocket pk).pulled q.pks.length = some pk := by
  rw [pulled_eq, pks_pushPocket, List.getElem?_append_right (Nat.le_refl _), Nat.sub_self]
  rfl

/-- `msgLen + 1` does not overflow where it is not negative. -/
theorem toInt_add_one {x : CUInt} (hpos : 0 < x.toInt) (hneg : ¬ (x + 1).toInt < 0) :
    (x + 1).toInt = x.toInt + 1 := by
  have hadd : (x + 1).toNat = (x.toNat + 1) % 2 ^ 32 := BitVec.toNat_add x 1
  have hlt := x.isLt
  rw [BitVec.toInt_eq_toNat_cond] at hpos hneg ⊢
  rw [BitVec.toInt_eq_toNat_cond]
  split at hpos <;> split at hneg <;> omega

/-- What a decoded header leads into: a body loop for a positive number of bytes
that fits an `int`, in a zeroed buffer with one byte to spare. -/
theorem decode_body {recvHeadBuf msgBody : List CChar} {msgid : CUInt} {msgLen readSize : Nat}
    (h : decode recvHeadBuf = .body msgid msgLen msgBody readSize) :
    0 < msgLen ∧ msgLen < 2 ^ 31 ∧ msgBody = List.replicate (msgLen + 1) 0 ∧ readSize = 0 := by
  have hlt : (protocol recvHeadBuf).toInt < 2 ^ 31 := BitVec.toInt_lt
  rw [decode] at h
  split at h
  · split at h
    · cases h
    · rename_i hneg
      split at h
      · rename_i hpos
        cases h
        have hone := toInt_add_one hpos hneg
        refine ⟨by omega, by omega, ?_, rfl⟩
        rw [hone, Int.toNat_add (Int.le_of_lt hpos) (by decide)]
        rfl
      · cases h
  · cases h

namespace Receiver

/-- In the body loop, with `body` to be read for the message `msgid` and `rest`
behind it. -/
def InBody (q : Queue) (msgid : CUInt) (body rest : List CChar) (r : Receiver) : Prop :=
  ∃ readSize < body.length, r.recvQueue = q ∧ r.stream = body.drop readSize ++ rest ∧
    r.pc = .body msgid body.length (filled body (body.length + 1) readSize) readSize

/-- Out of it again, with the buffer pushed. -/
def BodyDone (q : Queue) (msgid : CUInt) (body rest : List CChar) (r : Receiver) : Prop :=
  r.recvQueue = pushRecvQueue q ⟨body ++ [0], msgid⟩ ∧ r.stream = rest ∧ r.pc = .idle

/-- **A piece of the body.**  The loop goes on behind it, or the body is complete and
is pushed. -/
theorem take_body {r : Receiver} {msgid : CUInt} {body rest : List CChar} {readSize k : Nat}
    (hpc : r.pc = .body msgid body.length (filled body (body.length + 1) readSize) readSize)
    (hs : r.stream = body.drop readSize ++ rest) (hlt : readSize < body.length)
    (hk : k ≤ body.length - readSize) :
    r.take k =
      if readSize + k = body.length then
        { pc := .idle, stream := rest, consumed := r.consumed + k
          recvQueue := pushRecvQueue r.recvQueue ⟨body ++ [0], msgid⟩
          pushes := r.pushes ++ [⟨⟨body ++ [0], msgid⟩, r.consumed + k⟩] }
      else
        { r with
          pc := .body msgid body.length (filled body (body.length + 1) (readSize + k))
            (readSize + k)
          stream := body.drop (readSize + k) ++ rest
          consumed := r.consumed + k } := by
  have htake : (r.stream.take k).length = k := by
    rw [hs, List.length_take, List.length_append, List.length_drop]
    omega
  have hsplit : r.stream.take k ++ r.stream.drop k = body.drop readSize ++ rest := by
    rw [List.take_append_drop, hs]
  obtain ⟨hdrop, hrec⟩ := received_body msgid hsplit hlt (by rwa [htake])
  rw [htake] at hdrop hrec
  rw [← hpc] at hrec
  split at hrec
  · rename_i hfull
    rw [take_of_some hrec, if_pos hfull, hdrop, hfull, List.drop_length, List.nil_append]
  · rename_i hfull
    rw [take_of_none hrec, if_neg hfull, hdrop]

/-- One answer in the body loop, of any size: the loop goes on, or the body is
complete. -/
theorem body_step {sizeofPtr : Nat} {q : Queue} {msgid : CUInt} {body rest : List CChar}
    {r r' : Receiver} {answer : RecvAnswer}
    (h : InBody q msgid body rest r ∨ BodyDone q msgid body rest r)
    (hs : r.step sizeofPtr (.recv answer) = some r') :
    InBody q msgid body rest r' ∨ BodyDone q msgid body rest r' := by
  rcases h with ⟨readSize, hlt, hq, hstream, hpc⟩ | ⟨-, -, hidle⟩
  · cases step_cases hs with
    | gaveUp => exact Or.inl ⟨readSize, hlt, hq, hstream, by rw [hpc]; rfl⟩
    | @took off len k hreq hlen hk =>
      rw [hpc] at hreq
      cases hreq
      rw [take_body hpc hstream hlt hlen]
      split
      · exact Or.inr ⟨by rw [← hq], rfl, rfl⟩
      · exact Or.inl ⟨readSize + k, by omega, hq, rfl, rfl⟩
  · simp only [step, hidle, request] at hs
    cases hs

/-- However the OS hands the body over, what is pushed is the pocket made from
the body and the NUL behind it. -/
theorem body_run {sizeofPtr : Nat} {r r' : Receiver} {answers : List RecvAnswer}
    {recvHeadBuf msgBody body rest : List CChar} {msgid : CUInt}
    (hpc : r.pc = decode recvHeadBuf)
    (hdec : decode recvHeadBuf = .body msgid body.length msgBody 0)
    (hs : r.stream = body ++ rest)
    (hrun : run (fun r answer => step sizeofPtr r (.recv answer)) r answers = some r')
    (hidle : r'.pc = .idle) :
    r'.recvQueue = r.recvQueue.pushPocket (makePocket (body ++ [0]) msgid) := by
  obtain ⟨hpos, -, rfl, -⟩ := decode_body hdec
  have hstart : InBody r.recvQueue msgid body rest r :=
    ⟨0, hpos, rfl, hs, by rw [hpc, hdec, filled_zero]⟩
  have hend := run_invariant
    (I := fun r₁ => InBody r.recvQueue msgid body rest r₁ ∨ BodyDone r.recvQueue msgid body rest r₁)
    (fun _ _ _ h hs => body_step h hs) hrun (Or.inl hstart)
  rcases hend with ⟨readSize, -, -, -, hpc'⟩ | ⟨hq, -, -⟩
  · rw [hidle] at hpc'
    cases hpc'
  · exact hq

/-- **When a body arrives unchanged.**  For every decoded header, every body and
every way of handing it over: the pocket that a completed body loop adds to the
receive queue, and that the consumer pulls behind the earlier ones, is as long as
the body and equal to it exactly when the body holds no zero byte. -/
theorem pullPocket_body_iff {sizeofPtr : Nat} {r r' : Receiver} {answers : List RecvAnswer}
    {recvHeadBuf msgBody body rest : List CChar} {msgid : CUInt}
    (hpc : r.pc = decode recvHeadBuf)
    (hdec : decode recvHeadBuf = .body msgid body.length msgBody 0)
    (hs : r.stream = body ++ rest)
    (hrun : run (fun r answer => step sizeofPtr r (.recv answer)) r answers = some r')
    (hidle : r'.pc = .idle) :
    (∃ pk, r'.recvQueue = r.recvQueue.pushPocket pk ∧
      r'.recvQueue.pulled r.recvQueue.pks.length = some pk ∧
      pk.length.toNat = body.length ∧ pk.msg = body) ↔ 0 ∉ body := by
  obtain ⟨-, hlt, -, -⟩ := decode_body hdec
  have hq := body_run hpc hdec hs hrun hidle
  have hpulled : r'.recvQueue.pulled r.recvQueue.pks.length =
      some (makePocket (body ++ [0]) msgid) := by
    rw [hq, Queue.pulled_pushPocket]
  have hmsg : (makePocket (body ++ [0]) msgid).msg = body.takeWhile (· ≠ 0) := by
    have hle := strlen_le body
    rw [makePocket_msg (by rw [strlen_append_nul]; omega), takeWhile_append_nul]
  constructor
  · -- the pocket holds the body up to its first zero byte
    rintro ⟨pk, -, hpk, -, hbody⟩
    obtain rfl := Option.some.inj (hpulled.symm.trans hpk)
    exact takeWhile_eq_self_iff_nul_free.mp (hmsg.symm.trans hbody)
  · intro h0
    have hbody : (makePocket (body ++ [0]) msgid).msg = body :=
      hmsg.trans (takeWhile_eq_self_iff_nul_free.mpr h0)
    exact ⟨_, hq, hpulled, by rw [← Pocket.msg_length, hbody], hbody⟩

/-- A receiver that has read the header in front of a body of three bytes. -/
def atBody (body : List CChar) : Receiver :=
  { init body with pc := decode (header 3 1001), consumed := 10 }

/-- Three bytes in two pieces, with an empty-handed answer between them. -/
theorem pullPocket_body_text : ∃ r' : Receiver,
    run (fun r answer => step 8 r (.recv answer)) (atBody [10, 1, 97])
      [.took 2, .error, .took 1] = some r' ∧
    ((∃ pk, r'.recvQueue = (atBody [10, 1, 97]).recvQueue.pushPocket pk ∧
      r'.recvQueue.pulled (atBody [10, 1, 97]).recvQueue.pks.length = some pk ∧
      pk.length.toNat = [10, 1, 97].length ∧ pk.msg = [10, 1, 97]) ↔
        (0 : CChar) ∉ [10, 1, 97]) :=
  ⟨_, rfl, pullPocket_body_iff (show (atBody [10, 1, 97]).pc = decode (header 3 1001) from rfl)
    rfl (List.append_nil _).symm
    (show run (fun r answer => step 8 r (.recv answer)) (atBody [10, 1, 97])
      [.took 2, .error, .took 1] = some _ from rfl) rfl⟩

/-- A three-byte body with a zero byte in the middle: the consumer pulls its
first byte only. -/
theorem pullPocket_body_cut : ∃ r r' : Receiver,
    run (step 8) (init (header 3 1001 ++ [8, 0, 16])) [.call, .recv (.took 10)] = some r ∧
    r.pc = decode (header 3 1001) ∧ r.stream = [8, 0, 16] ∧
    run (fun r answer => step 8 r (.recv answer)) r [.took 3] = some r' ∧ r'.pc = .idle ∧
    ¬ ∃ pk, r'.recvQueue = r.recvQueue.pushPocket pk ∧
      r'.recvQueue.pulled r.recvQueue.pks.length = some pk ∧
      pk.length.toNat = [8, 0, 16].length ∧ pk.msg = [8, 0, 16] := by
  refine ⟨_, _, rfl, rfl, rfl, rfl, rfl, ?_⟩
  rintro ⟨pk, -, hpk, hlen, -⟩
  obtain rfl := Option.some.inj hpk
  revert hlen
  decide

end Receiver

end SurvivalGame
