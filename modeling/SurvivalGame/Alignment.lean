import SurvivalGame.Receive

/-! # One call, one frame

Suppose every `Recv` fills its request, so that nothing is ever cut.  Does each
call of `recvFunc` then take exactly one frame off the stream and push exactly
one message?  Whether the body is read at all is decided from the 16-bit field,
how much of it from the 32-bit one, and the push stands inside the body loop.

It does so for the body lengths that are `Readable`, and for no other
(`framePerCall_iff`).  An empty body passes the test `protobufLength > 6`, since
the field counts the eight bytes behind it, but the loop is then never entered
and nothing is pushed.  A length with a sign bit in its second or third byte is
decoded as a negative number, and its body stays in the stream or the allocation
throws.
-/
namespace SurvivalGame
open Transition

namespace Receiver

/-- `Recv` fills its request. -/
def Fills (sizeofPtr : Nat) (r : Receiver) : RecvAct → Prop
  | .call => True
  | .recv .error => False
  | .recv (.took k) => ∃ off, request sizeofPtr r.pc = some (off, k)

/-- A whole call of `recvFunc` in which every `Recv` fills its request. -/
def FullCall (sizeofPtr : Nat) (r r' : Receiver) : Prop :=
  ∃ answers : List RecvAnswer,
    run (step sizeofPtr) r (.call :: answers.map .recv) = some r' ∧
    Along (step sizeofPtr) (Fills sizeofPtr) r (.call :: answers.map .recv) ∧ r'.pc = .idle

/-- What the call for one frame should do: consume the frame, push one message
with its id, and leave the stream at the frames behind it. -/
structure TakesFrame (pk : Pocket) (rest : List Pocket) (r r' : Receiver) : Prop where
  consumed : r'.consumed = r.consumed + (10 + pk.length.toNat)
  pushes : ∃ msg, r'.pushes = r.pushes ++ [⟨⟨msg, pk.id⟩, r'.consumed⟩]
  stream : r'.stream = encs rest

/-- The calls take the frames one by one. -/
def FramePerCall (sizeofPtr : Nat) : List Pocket → Receiver → Prop
  | [], _ => True
  | pk :: rest, r =>
    ∃ r', FullCall sizeofPtr r r' ∧ TakesFrame pk rest r r' ∧ FramePerCall sizeofPtr rest r'

/-- The header of a frame is read in one piece. -/
theorem step_header (sizeofPtr : Nat) {r : Receiver} {length id : CUInt} {s : List CChar}
    (hpc : r.pc = .head) (hs : r.stream = header length id ++ s) :
    r.step sizeofPtr (.recv (.took 10)) = some { r with
      pc := decode (header length id), stream := s, consumed := r.consumed + 10 } := by
  have htake : r.stream.take 10 = header length id := by
    rw [hs]; exact List.take_left' (header_length length id)
  have hdrop : r.stream.drop 10 = s := by
    rw [hs]; exact List.drop_left' (header_length length id)
  have hrec : received (r.stream.take 10) r.pc = (decode (header length id), none) := by
    rw [htake, hpc]
    rfl
  have hlen : 10 ≤ r.stream.length := by rw [hs, List.length_append, header_length]; omega
  simp only [step, hpc, request]
  rw [if_pos ⟨Nat.le_refl 10, hlen⟩, take_of_none hrec, hdrop]

/-- The body of a frame is read in one piece. -/
theorem step_body (sizeofPtr : Nat) {r : Receiver} {msgId : CUInt} {body s : List CChar}
    (hpc : r.pc = .body msgId body.length (filled body (body.length + 1) 0) 0)
    (hs : r.stream = body ++ s) (hpos : 0 < body.length) :
    r.step sizeofPtr (.recv (.took body.length)) = some
      { pc := .idle, stream := s, consumed := r.consumed + body.length
        recvQueue := pushRecvQueue r.recvQueue ⟨body ++ [0], msgId⟩
        pushes := r.pushes ++ [⟨⟨body ++ [0], msgId⟩, r.consumed + body.length⟩] } := by
  have htake : r.stream.take body.length = body := by rw [hs, List.take_left]
  have hdrop : r.stream.drop body.length = s := by rw [hs, List.drop_left]
  have hrec : received (r.stream.take body.length) r.pc = (.idle, some ⟨body ++ [0], msgId⟩) := by
    have hwhole : body ++ s = body.drop 0 ++ s := rfl
    obtain ⟨-, hrec⟩ := received_body msgId hwhole hpos (Nat.le_refl _)
    rw [htake, hpc, hrec, Nat.zero_add, if_pos rfl]
  have hlen : body.length ≤ r.stream.length := by rw [hs, List.length_append]; omega
  simp only [step, hpc, request]
  rw [if_pos ⟨Nat.le_refl _, hlen⟩, take_of_some hrec, hdrop]

/-- A readable frame is taken by one call. -/
theorem fullCall_of_readable (sizeofPtr : Nat) {r : Receiver} {pk : Pocket} {rest : List Pocket}
    (hidle : r.pc = .idle) (hs : r.stream = encs (pk :: rest)) (hid : 0 < pk.id.toNat)
    (hid' : pk.id.toNat < 2 ^ 15) (hsend : Sendable pk) (hn : Readable pk.length.toNat) :
    ∃ r', FullCall sizeofPtr r r' ∧ TakesFrame pk rest r r' := by
  have hlen : pk.length.toNat + 10 < 2 ^ 31 := by
    rwa [Sendable, enc_of_id hid, sendData_length] at hsend
  have hstream : r.stream = header pk.length pk.id ++ (pk.msg ++ encs rest) := by
    rw [hs, encs_cons, enc_of_id hid, sendData, List.append_assoc]
  have hdecode : decode (header pk.length pk.id) =
      .body pk.id pk.msg.length (filled pk.msg (pk.msg.length + 1) 0) 0 := by
    rw [decode_of_readable hn (by omega), (or_smear_eq_iff pk.id).mpr (Survives.of_lt hid'),
      filled_zero, pk.msg_length]
  have hcall : r.step sizeofPtr .call = some { r with pc := .head } := by rw [step, if_pos hidle]
  have hhead := step_header sizeofPtr (r := { r with pc := .head }) rfl hstream
  have hbody := step_body sizeofPtr
    (r := { r with
      pc := decode (header pk.length pk.id), stream := pk.msg ++ encs rest
      consumed := r.consumed + 10 }) hdecode rfl (by rw [pk.msg_length]; exact hn.1)
  refine ⟨_, ⟨[.took 10, .took pk.msg.length], run_cons_eq_some.mpr ⟨_, hcall,
    run_cons_eq_some.mpr ⟨_, hhead, run_cons_eq_some.mpr ⟨_, hbody, rfl⟩⟩⟩,
    ⟨trivial, fun t ht => ?_⟩, rfl⟩,
    by dsimp only; rw [pk.msg_length, Nat.add_assoc], ⟨pk.msg ++ [0], rfl⟩, rfl⟩
  obtain rfl := Option.some.inj (hcall.symm.trans ht)
  refine ⟨⟨0, rfl⟩, fun u hu => ?_⟩
  obtain rfl := Option.some.inj (hhead.symm.trans hu)
  exact ⟨⟨0, by rw [hdecode]; rfl⟩, fun _ _ => trivial⟩

/-- A call that meets any other frame pushes nothing. -/
theorem fullCall_of_not_readable {sizeofPtr : Nat} {r r' : Receiver} {pk : Pocket}
    {rest : List Pocket} (hidle : r.pc = .idle) (hs : r.stream = encs (pk :: rest))
    (hid : 0 < pk.id.toNat) (hn : ¬ Readable pk.length.toNat) (hcall : FullCall sizeofPtr r r') :
    r'.pushes = r.pushes := by
  have hstream : r.stream = header pk.length pk.id ++ (pk.msg ++ encs rest) := by
    rw [hs, encs_cons, enc_of_id hid, sendData, List.append_assoc]
  obtain ⟨answers, hrun, hfull, hidle'⟩ := hcall
  obtain ⟨s, hstep, hrun⟩ := run_cons_eq_some.mp hrun
  have hfull := hfull.2 s hstep
  rw [step, if_pos hidle] at hstep
  cases hstep
  cases answers with
  | nil => cases hrun; cases hidle'
  | cons answer answers =>
    obtain ⟨s, hstep, hrun⟩ := run_cons_eq_some.mp hrun
    have hlen := hfull.1
    cases answer with
    | error => cases hlen
    | took k =>
      obtain ⟨off, hreq⟩ := hlen
      cases hreq
      rw [step_header sizeofPtr (r := { r with pc := .head }) rfl hstream] at hstep
      cases hstep
      -- the call ends after the header: no `Recv` is pending
      have hreq : request sizeofPtr (decode (header pk.length pk.id)) = none := by
        rcases decode_of_not_readable pk.id hn with h | h <;> rw [h] <;> rfl
      cases answers with
      | nil => cases hrun; rfl
      | cons answer answers =>
        obtain ⟨s, hstep, -⟩ := run_cons_eq_some.mp hrun
        simp only [step, hreq] at hstep
        cases hstep

theorem not_framePerCall {sizeofPtr : Nat} {r : Receiver} {pk : Pocket} {rest : List Pocket}
    (hidle : r.pc = .idle) (hs : r.stream = encs (pk :: rest)) (hid : 0 < pk.id.toNat)
    (hn : ¬ Readable pk.length.toNat) : ¬ FramePerCall sizeofPtr (pk :: rest) r := by
  rintro ⟨r', hcall, htakes, -⟩
  obtain ⟨msg, hpush⟩ := htakes.pushes
  rw [fullCall_of_not_readable hidle hs hid hn hcall] at hpush
  simp at hpush

/-- **When the calls stay aligned with the frames.**  For every sequence of
frames that `sendFunc` can emit with a small id, each call of `recvFunc` whose
reads are filled takes one frame and pushes one message exactly when every body
length is readable: positive, with bits 15 and 23 clear. -/
theorem framePerCall_iff {sizeofPtr : Nat} {frames : List Pocket}
    (hid : ∀ pk ∈ frames, 1 ≤ pk.id.toNat ∧ pk.id.toNat ≤ 30000)
    (hsend : ∀ pk ∈ frames, Sendable pk) :
    FramePerCall sizeofPtr frames (init (encs frames)) ↔
      ∀ pk ∈ frames, Readable pk.length.toNat := by
  -- by induction on the frames, from any receiver that stands in front of them
  suffices h : ∀ r : Receiver, r.pc = .idle → r.stream = encs frames →
      (FramePerCall sizeofPtr frames r ↔ ∀ pk ∈ frames, Readable pk.length.toNat) from
    h _ rfl rfl
  induction frames with
  | nil => intro r _ _; simp [FramePerCall]
  | cons pk rest ih =>
    intro r hidle hs
    have ih := ih (fun p hp => hid p (List.mem_cons_of_mem _ hp))
      (fun p hp => hsend p (List.mem_cons_of_mem _ hp))
    obtain ⟨hpos, hle⟩ := hid pk List.mem_cons_self
    rw [List.forall_mem_cons]
    by_cases hn : Readable pk.length.toNat
    · constructor
      · rintro ⟨r', ⟨answers, hrun, hfull, hidle'⟩, htakes, hrest⟩
        exact ⟨hn, (ih r' hidle' htakes.stream).mp hrest⟩
      · rintro ⟨-, hrest⟩
        obtain ⟨r', hcall, htakes⟩ := fullCall_of_readable sizeofPtr hidle hs hpos
          (by omega) (hsend pk List.mem_cons_self) hn
        obtain ⟨answers, hrun, hfull, hidle'⟩ := hcall
        exact ⟨r', ⟨answers, hrun, hfull, hidle'⟩, htakes,
          (ih r' hidle' htakes.stream).mpr hrest⟩
    · exact ⟨fun h => absurd h (not_framePerCall hidle hs hpos hn), fun h => absurd h.1 hn⟩

/-- Two messages of one and of two bytes. -/
theorem framePerCall_two :
    FramePerCall 8 [makePocket [97] 10001, makePocket [98, 99] 30000]
      (init (encs [makePocket [97] 10001, makePocket [98, 99] 30000])) :=
  (framePerCall_iff (by decide) (by decide)).mpr (by decide)

/-- A message none of whose fields is set. -/
def emptyBody : Pocket := ⟨0, 1001, [], rfl⟩

/-- A message of 32768 bytes. -/
def longBody : Pocket := ⟨32768, 1001, List.replicate 32768 1, List.length_replicate⟩

theorem sendable_longBody : Sendable longBody := by
  rw [Sendable, enc_of_id (by decide), sendData_length]
  decide

/-- The empty message is never pushed, and the body of the long one stays in the
stream. -/
theorem framePerCall_fails :
    (Sendable emptyBody ∧ ¬ FramePerCall 4 [emptyBody] (init (encs [emptyBody]))) ∧
    (Sendable longBody ∧ ¬ FramePerCall 4 [longBody] (init (encs [longBody]))) :=
  ⟨⟨by decide, not_framePerCall rfl rfl (by decide) (by decide)⟩,
    sendable_longBody, not_framePerCall rfl rfl (by decide) (by decide)⟩

end Receiver

end SurvivalGame
