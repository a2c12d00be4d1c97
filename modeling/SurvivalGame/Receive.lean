import SurvivalGame.Send

/-! # Receiving: `TcpClient::recvFunc`

One call of `recvFunc` checks the connection, reads ten header bytes, decodes
them and reads as many body bytes as the header says; when the last one is in, it
calls `pushRecvQueue`.  `RecvPc` is where a thread stands in such a call and
`request` is the `Recv` it is about to make; `received` is what it does with the
bytes it gets.

The header is read in one `Recv` of ten bytes, and only if that is answered with
fewer in a loop.  The loop asks for `sizeof(recvHeadBuf - recvLen)` bytes, the
size of a pointer, whatever is still missing.  The model keeps the bytes it then
writes behind the ten; decoding looks at the first ten only.

`Tracks` ties a receiver to the frames it has still to deliver, and
`tracks_received` is the step lemma: as long as the header loop takes no more
than is missing, bytes that arrive move the receiver along the frames.
-/
namespace SurvivalGame
open Transition

/-! ## The code -/

/-- `Recv` into a buffer at an offset. -/
def write (buf : List CChar) (off : Nat) (bs : List CChar) : List CChar :=
  buf.take off ++ bs ++ buf.drop (off + bs.length)

/-- What one OS `recv` answers: -1, or the number of bytes it hands over. -/
inductive RecvAnswer
  | error
  | took (k : Nat)
deriving DecidableEq

/-- Where a thread stands in `recvFunc`. -/
inductive RecvPc
  /-- Outside any call. -/
  | idle
  /-- `tcpCheck` has returned; the first `Recv` is next. -/
  | head
  /-- In `while (recvLen < headLen)`. -/
  | headLoop (recvHeadBuf : List CChar) (recvLen : Nat)
  /-- In `while (readSize < msgLen)`. -/
  | body (msgId : CUInt) (msgLen : Nat) (msgBody : List CChar) (readSize : Nat)
  /-- `new char[msgLen + 1]` has thrown. -/
  | fault
deriving DecidableEq

/-- A call `pushRecvQueue(msg, msgid)`. -/
structure PushCall where
  msg : List CChar
  msgid : CUInt
deriving DecidableEq

/-- Offset and size of the `Recv` that is about to be made; `sizeofPtr` is the
size of a pointer on the target. -/
def request (sizeofPtr : Nat) : RecvPc → Option (Nat × Nat)
  | .head => some (0, 10)
  | .headLoop _ recvLen => some (recvLen, sizeofPtr)
  | .body _ msgLen _ readSize => some (readSize, msgLen - readSize)
  | .idle | .fault => none

/-- From the complete header to the body loop.  `msgLen` is an `int`: a negative
size makes `new` throw, and the loop is not entered for a length of zero. -/
def decode (recvHeadBuf : List CChar) : RecvPc :=
  if 6 < (protobufLength recvHeadBuf).toNat then
    if (protocol recvHeadBuf + 1).toInt < 0 then .fault
    else if 0 < (protocol recvHeadBuf).toInt then
      .body (msgId recvHeadBuf) (protocol recvHeadBuf).toInt.toNat
        (List.replicate (protocol recvHeadBuf + 1).toInt.toNat 0) 0
    else .idle
  else .idle

/-- `Recv` returned -1: the first one ends the call, the loops ask again. -/
def gaveUp : RecvPc → RecvPc
  | .head => .idle
  | pc => pc

/-- `Recv` returned the bytes `bs`. -/
def received (bs : List CChar) : RecvPc → RecvPc × Option PushCall
  | .head =>
    let recvHeadBuf := write (List.replicate 10 0) 0 bs
    if bs.length < 10 then (.headLoop recvHeadBuf bs.length, none) else (decode recvHeadBuf, none)
  | .headLoop buf recvLen =>
    -- what comes behind the ten bytes is written there, and never looked at
    let recvHeadBuf := write buf recvLen bs
    if recvLen + bs.length < 10 then (.headLoop recvHeadBuf (recvLen + bs.length), none)
    else (decode recvHeadBuf, none)
  | .body msgId msgLen buf readSize =>
    let msgBody := write buf readSize bs
    if readSize + bs.length = msgLen then (.idle, some ⟨msgBody, msgId⟩)
    else (.body msgId msgLen msgBody (readSize + bs.length), none)
  | pc => (pc, none)

/-! ## A receiver on a stream -/

/-- A call of `pushRecvQueue` and the number of stream bytes consumed by then. -/
structure Push extends PushCall where
  consumed : Nat
deriving DecidableEq

/-- A client receiving from a stream: the bytes the OS still holds, how many it
has handed over, and the calls of `pushRecvQueue` so far. -/
structure Receiver where
  pc : RecvPc
  stream : List CChar
  consumed : Nat
  recvQueue : Queue
  pushes : List Push
deriving DecidableEq

/-- A step of the receiver: a call of `recvFunc` whose `tcpCheck` finds the
connection alive, or an answer to its pending `Recv`. -/
inductive RecvAct
  | call
  | recv (answer : RecvAnswer)
deriving DecidableEq

namespace Receiver

/-- A fresh client in front of a stream. -/
def init (stream : List CChar) : Receiver := ⟨.idle, stream, 0, .empty, []⟩

/-- `TcpClient::pushRecvQueue`. -/
def pushRecvQueue (q : Queue) (call : PushCall) : Queue :=
  q.pushPocket (makePocket call.msg call.msgid)

/-- The receiver after its pending `Recv` has been handed `k` bytes. -/
def take (r : Receiver) (k : Nat) : Receiver :=
  match received (r.stream.take k) r.pc with
  | (pc, none) => { r with pc := pc, stream := r.stream.drop k, consumed := r.consumed + k }
  | (pc, some call) =>
    { pc := pc, stream := r.stream.drop k, consumed := r.consumed + k
      recvQueue := pushRecvQueue r.recvQueue call
      pushes := r.pushes ++ [⟨call, r.consumed + k⟩] }

theorem take_of_none {r : Receiver} {k : Nat} {pc : RecvPc}
    (h : received (r.stream.take k) r.pc = (pc, none)) : r.take k =
      { r with pc := pc, stream := r.stream.drop k, consumed := r.consumed + k } := by
  rw [take, h]

theorem take_of_some {r : Receiver} {k : Nat} {pc : RecvPc} {call : PushCall}
    (h : received (r.stream.take k) r.pc = (pc, some call)) : r.take k =
      { pc := pc, stream := r.stream.drop k, consumed := r.consumed + k
        recvQueue := pushRecvQueue r.recvQueue call
        pushes := r.pushes ++ [⟨call, r.consumed + k⟩] } := by
  rw [take, h]

/-- One step.  The OS hands over no more than was asked for and than it has. -/
def step (sizeofPtr : Nat) (r : Receiver) : RecvAct → Option Receiver
  | .call => if r.pc = .idle then some { r with pc := .head } else none
  | .recv answer =>
    match request sizeofPtr r.pc, answer with
    | none, _ => none
    | some _, .error => some { r with pc := gaveUp r.pc }
    | some (_, len), .took k =>
      if k ≤ len ∧ k ≤ r.stream.length then some (r.take k) else none

/-- What a step of a receiver can do. -/
inductive Step (sizeofPtr : Nat) (r : Receiver) : RecvAct → Receiver → Prop
  | call (h : r.pc = .idle) : Step sizeofPtr r .call { r with pc := .head }
  | gaveUp {off len : Nat} (h : request sizeofPtr r.pc = some (off, len)) :
      Step sizeofPtr r (.recv .error) { r with pc := SurvivalGame.gaveUp r.pc }
  | took {off len k : Nat} (h : request sizeofPtr r.pc = some (off, len)) (hlen : k ≤ len)
      (hk : k ≤ r.stream.length) : Step sizeofPtr r (.recv (.took k)) (r.take k)

theorem step_cases {sizeofPtr : Nat} {r r' : Receiver} {a : RecvAct}
    (h : r.step sizeofPtr a = some r') : Step sizeofPtr r a r' := by
  match a with
  | .call =>
    rw [step] at h
    split at h
    · cases h; exact .call ‹_›
    · cases h
  | .recv answer =>
    cases hreq : request sizeofPtr r.pc with
    | none => simp only [step, hreq] at h; cases h
    | some req =>
      match answer with
      | .error => simp only [step, hreq] at h; cases h; exact .gaveUp hreq
      | .took k =>
        simp only [step, hreq] at h
        split at h
        · rename_i hk
          cases h
          exact .took hreq hk.1 hk.2
        · cases h

end Receiver

/-! ## Buffers filled from the left -/

/-- A zeroed buffer of `size` bytes after the first `m` bytes of `s` were read
into it. -/
def filled (s : List CChar) (size m : Nat) : List CChar := s.take m ++ List.replicate (size - m) 0

theorem filled_zero (s : List CChar) (size : Nat) : filled s size 0 = List.replicate size 0 := rfl

/-- Reading the next bytes of `s` behind those already read. -/
theorem write_filled {s bs : List CChar} {size m : Nat} (hbs : bs <+: s.drop m)
    (hm : m ≤ s.length) :
    write (filled s size m) m bs = filled s size (m + bs.length) := by
  have htake : (s.take m).length = m := by rw [List.length_take, Nat.min_eq_left hm]
  have hbs' : bs = (s.drop m).take bs.length := List.prefix_iff_eq_take.mp hbs
  have h1 : (filled s size m).take m = s.take m := by
    rw [filled, List.take_append_of_le_length (Nat.le_of_eq htake.symm),
      List.take_of_length_le (Nat.le_of_eq htake)]
  have h2 : (filled s size m).drop (m + bs.length) = List.replicate (size - (m + bs.length)) 0 := by
    rw [filled, ← List.drop_drop, List.drop_append_of_le_length (Nat.le_of_eq htake.symm),
      List.drop_of_length_le (Nat.le_of_eq htake), List.nil_append, List.drop_replicate,
      Nat.sub_sub]
  rw [write, h1, h2, filled, List.take_add, ← hbs']

theorem filled_full {s : List CChar} {size : Nat} :
    filled s size s.length = s ++ List.replicate (size - s.length) 0 := by
  rw [filled, List.take_length]

/-! ## Decoding a frame's header -/

/-- The body lengths that `recvFunc` reads: not zero, and no sign bit of a length
byte set. -/
def Readable (n : Nat) : Prop := 0 < n ∧ n % 2 ^ 16 < 2 ^ 15 ∧ n % 2 ^ 24 < 2 ^ 23

instance (n : Nat) : Decidable (Readable n) := inferInstanceAs (Decidable (_ ∧ _))

theorem Readable.of_lt {n : Nat} (h0 : 0 < n) (h : n < 2 ^ 15) : Readable n := by
  unfold Readable; omega

/-- A readable length leads into the body loop, for exactly that many bytes. -/
theorem decode_of_readable {length id : CUInt} (hn : Readable length.toNat)
    (hlt : length.toNat + 1 < 2 ^ 31) : decode (header length id) =
      .body (id ||| smear id) length.toNat (List.replicate (length.toNat + 1) 0) 0 := by
  obtain ⟨h0, h15, h23⟩ := hn
  have hp : protocol (header length id) = length := by
    rw [protocol_header]
    exact (or_smear_eq_iff length).mpr ⟨Or.inl h15, Or.inl h23⟩
  have hint : length.toInt = length.toNat := BitVec.toInt_eq_toNat_of_lt (by omega)
  have hadd : (length + 1).toNat = length.toNat + 1 := by
    rw [BitVec.toNat_add]
    exact Nat.mod_eq_of_lt (by show length.toNat + 1 < 2 ^ 32; omega)
  have hint' : (length + 1).toInt = (length.toNat + 1 : Nat) := by
    rw [BitVec.toInt_eq_toNat_of_lt (by omega), hadd]
  rw [decode, if_pos (six_lt_protobufLength h15), hp, if_neg (by omega), if_pos (by omega), hint,
    hint', msgId_header, Int.toNat_natCast, Int.toNat_natCast]

/-- Any other length is skipped, or makes the allocation throw: its top bit comes
out set, or it is zero. -/
theorem decode_of_not_readable {length : CUInt} (id : CUInt) (hn : ¬ Readable length.toNat) :
    decode (header length id) = .idle ∨ decode (header length id) = .fault := by
  have hneg : ¬ 0 < (protocol (header length id)).toInt := by
    rw [protocol_header]
    by_cases h0 : length = 0
    · subst h0; decide
    · have h0 : 0 < length.toNat := Nat.pos_of_ne_zero fun h => h0 (BitVec.eq_of_toNat_eq h)
      have hmsb : (length ||| smear length).msb = true := by
        rw [msb_or_smear, Bool.or_eq_true, Bool.or_eq_true, getLsbD_iff_le_mod,
          getLsbD_iff_le_mod]
        unfold Readable at hn
        omega
      have := BitVec.toInt_neg_of_msb_true hmsb
      omega
  rw [decode]
  split
  · split
    · exact Or.inr rfl
    · exact Or.inl rfl
  · exact Or.inl rfl

/-! ## Receivers in step with the frames -/

/-- A pocket whose frame the header codec carries: a small id, and a body that is
neither empty nor longer than 32767 bytes. -/
@[mk_iff]
structure Framed (pk : Pocket) : Prop where
  id_pos : 0 < pk.id.toNat
  id_lt : pk.id.toNat < 2 ^ 15
  length_pos : 0 < pk.length.toNat
  length_lt : pk.length.toNat < 2 ^ 15

instance (pk : Pocket) : Decidable (Framed pk) := decidable_of_iff' _ (framed_iff pk)

theorem Framed.enc_eq {pk : Pocket} (h : Framed pk) :
    enc pk = header pk.length pk.id ++ pk.msg :=
  enc_of_id h.id_pos

theorem Framed.decode {pk : Pocket} (h : Framed pk) : SurvivalGame.decode (header pk.length pk.id) =
    .body pk.id pk.length.toNat (filled pk.msg (pk.length.toNat + 1) 0) 0 := by
  have hlt := h.length_lt
  rw [decode_of_readable (Readable.of_lt h.length_pos hlt) (by omega),
    (or_smear_eq_iff pk.id).mpr (Survives.of_lt h.id_lt), filled_zero]

/-- The receiver stands at the start of, or inside, the first of the frames of
`pks`, with the bytes `s` of these frames still to come. -/
def Tracks : RecvPc → List CChar → List Pocket → Prop
  | .idle, s, pks | .head, s, pks => s = encs pks
  | .headLoop buf recvLen, s, pks => ∃ pk rest, pks = pk :: rest ∧ recvLen < 10 ∧
      buf = filled (header pk.length pk.id) 10 recvLen ∧
      s = (header pk.length pk.id).drop recvLen ++ (pk.msg ++ encs rest)
  | .body msgId msgLen buf readSize, s, pks => ∃ pk rest, pks = pk :: rest ∧ msgId = pk.id ∧
      msgLen = pk.length.toNat ∧ readSize < pk.length.toNat ∧
      buf = filled pk.msg (pk.length.toNat + 1) readSize ∧ s = pk.msg.drop readSize ++ encs rest
  | .fault, _, _ => False

/-- In the header loop, the `k` bytes of an answer are all bytes of the header. -/
def KeepsHeader : RecvPc → Nat → Prop
  | .headLoop _ recvLen, k => recvLen + k ≤ 10
  | _, _ => True

instance : ∀ pc k, Decidable (KeepsHeader pc k)
  | .headLoop _ recvLen, k => inferInstanceAs (Decidable (recvLen + k ≤ 10))
  | .idle, _ | .head, _ | .body .., _ | .fault, _ => inferInstanceAs (Decidable True)

theorem Tracks.gaveUp {pc : RecvPc} {s : List CChar} {pks : List Pocket} (h : Tracks pc s pks) :
    Tracks (SurvivalGame.gaveUp pc) s pks := by
  cases pc <;> exact h

/-- Frames may be added behind those that are under way. -/
theorem Tracks.append {pc : RecvPc} {s : List CChar} {pks : List Pocket} (h : Tracks pc s pks)
    (more : List Pocket) : Tracks pc (s ++ encs more) (pks ++ more) := by
  cases pc with
  | fault => cases h
  | idle | head => rw [show s = encs pks from h, ← encs_append]; exact rfl
  | headLoop buf recvLen =>
    obtain ⟨pk, rest, rfl, hlt, hbuf, rfl⟩ := h
    exact ⟨pk, rest ++ more, rfl, hlt, hbuf, by simp⟩
  | body msgId msgLen buf readSize =>
    obtain ⟨pk, rest, rfl, hid, hlen, hlt, hbuf, rfl⟩ := h
    exact ⟨pk, rest ++ more, rfl, hid, hlen, hlt, hbuf, by simp⟩

theorem prefix_of_append {a b s t : List CChar} (h : a ++ b = s ++ t) (hle : a.length ≤ s.length) :
    a <+: s ∧ b = s.drop a.length ++ t := by
  obtain ⟨c, rfl⟩ := List.prefix_of_prefix_length_le ⟨b, h⟩ ⟨t, rfl⟩ hle
  refine ⟨List.prefix_append _ _, ?_⟩
  rw [List.drop_left]
  rw [List.append_assoc] at h
  exact List.append_cancel_left h

/-- Header bytes arrive: the header loop goes on, or the decoded header leads into
the body. -/
theorem tracks_header {pk : Pocket} {rest : List Pocket} {bs s : List CChar} {recvLen : Nat}
    (hpk : Framed pk) (hlen : recvLen + bs.length ≤ 10)
    (h : bs ++ s = (header pk.length pk.id).drop recvLen ++ (pk.msg ++ encs rest)) :
    let buf := write (filled (header pk.length pk.id) 10 recvLen) recvLen bs
    Tracks (if recvLen + bs.length < 10 then .headLoop buf (recvLen + bs.length) else decode buf)
      s (pk :: rest) := by
  obtain ⟨hpre, hs⟩ := prefix_of_append h (by rw [List.length_drop, header_length]; omega)
  rw [List.drop_drop] at hs
  intro buf
  have hbuf : buf = filled (header pk.length pk.id) 10 (recvLen + bs.length) :=
    write_filled hpre (by rw [header_length]; omega)
  split
  · exact ⟨pk, rest, rfl, ‹_›, hbuf, hs⟩
  · have hten : recvLen + bs.length = (header pk.length pk.id).length := by
      rw [header_length]; omega
    rw [hten, List.drop_length, List.nil_append] at hs
    rw [hbuf, hten, filled_full, header_length, Nat.sub_self, List.replicate_zero,
      List.append_nil, hpk.decode]
    exact ⟨pk, rest, rfl, rfl, rfl, hpk.length_pos, rfl, hs⟩

/-- Body bytes arrive: the loop goes on, or the body is complete and is pushed
with the NUL that the buffer ends in. -/
theorem received_body (msgId : CUInt) {body bs s rest : List CChar} {readSize : Nat}
    (h : bs ++ s = body.drop readSize ++ rest) (hlt : readSize < body.length)
    (hlen : bs.length ≤ body.length - readSize) :
    s = body.drop (readSize + bs.length) ++ rest ∧
      received bs (.body msgId body.length (filled body (body.length + 1) readSize) readSize) =
        if readSize + bs.length = body.length then (.idle, some ⟨body ++ [0], msgId⟩)
        else (.body msgId body.length (filled body (body.length + 1) (readSize + bs.length))
          (readSize + bs.length), none) := by
  obtain ⟨hpre, hs⟩ := prefix_of_append h (by rwa [List.length_drop])
  refine ⟨by rw [hs, List.drop_drop], ?_⟩
  rw [received, write_filled hpre (Nat.le_of_lt hlt)]
  split
  · rename_i hfull
    rw [hfull, filled_full, Nat.add_sub_cancel_left, List.replicate_one]
  · rfl

/-- **The step lemma of the receiver.**  Bytes that arrive in a pending `Recv`
leave the receiver in step with the same frames, or complete the body of the
first one, which is then pushed with a NUL behind it. -/
theorem tracks_received {sizeofPtr off len : Nat} {pc : RecvPc} {bs s : List CChar}
    {pks : List Pocket} (hreq : request sizeofPtr pc = some (off, len))
    (h : Tracks pc (bs ++ s) pks) (hlen : bs.length ≤ len) (hbs : bs ≠ [])
    (hkeep : KeepsHeader pc bs.length) (hpks : ∀ pk ∈ pks, Framed pk) :
    (∃ pc', received bs pc = (pc', none) ∧ Tracks pc' s pks) ∨
      ∃ pk rest, pks = pk :: rest ∧ s = encs rest ∧
        received bs pc = (.idle, some ⟨pk.msg ++ [0], pk.id⟩) := by
  -- one case for each `Recv` of the source
  cases pc with
  | idle => cases hreq
  | fault => cases hreq
  | head =>
    cases hreq
    cases pks with
    | nil => exact absurd (List.append_eq_nil_iff.mp h).1 hbs
    | cons pk rest =>
      have hpk := hpks pk List.mem_cons_self
      have h : bs ++ s = (header pk.length pk.id).drop 0 ++ (pk.msg ++ encs rest) := by
        rw [List.drop_zero, ← List.append_assoc, ← hpk.enc_eq]; exact h
      have htracks := tracks_header hpk (by omega) h
      rw [Nat.zero_add] at htracks
      left
      refine ⟨_, ?_, htracks⟩
      rw [received, filled_zero]
      split <;> rfl
  | headLoop buf recvLen =>
    obtain ⟨pk, rest, rfl, -, rfl, h⟩ := h
    left
    refine ⟨_, ?_, tracks_header (hpks pk List.mem_cons_self) hkeep h⟩
    rw [received]
    split <;> rfl
  | body msgId msgLen buf readSize =>
    have hlen : bs.length ≤ msgLen - readSize := by cases hreq; exact hlen
    obtain ⟨pk, rest, rfl, rfl, rfl, hlt, rfl, h⟩ := h
    rw [← pk.msg_length] at hlt hlen ⊢
    obtain ⟨hs, hrec⟩ := received_body pk.id h hlt hlen
    by_cases hfull : readSize + bs.length = pk.msg.length
    · right
      rw [if_pos hfull] at hrec
      rw [hfull, List.drop_length, List.nil_append] at hs
      exact ⟨pk, rest, rfl, hs, hrec⟩
    · left
      have hlt' : readSize + bs.length < pk.length.toNat := by rw [← pk.msg_length]; omega
      rw [if_neg hfull, pk.msg_length] at hrec
      rw [pk.msg_length]
      exact ⟨_, hrec, pk, rest, rfl, rfl, rfl, hlt', rfl, hs⟩

/-- The same for the whole receiver, with more of the frames (`tail`) on their way
to its stream: it goes on in the same frames, or it pushes the first of them. -/
theorem Receiver.take_tracks {sizeofPtr off len k : Nat} {r : Receiver} {tail : List CChar}
    {pks : List Pocket} (hreq : request sizeofPtr r.pc = some (off, len)) (hlen : k ≤ len)
    (hk : k ≤ r.stream.length) (hpos : 0 < k) (hkeep : KeepsHeader r.pc k)
    (h : Tracks r.pc (r.stream ++ tail) pks) (hpks : ∀ pk ∈ pks, Framed pk) :
    (∃ pc, r.take k = { r with pc := pc, stream := r.stream.drop k, consumed := r.consumed + k } ∧
      Tracks pc (r.stream.drop k ++ tail) pks) ∨
    ∃ pk rest, pks = pk :: rest ∧ r.stream.drop k ++ tail = encs rest ∧
      r.take k =
        { pc := .idle, stream := r.stream.drop k, consumed := r.consumed + k
          recvQueue := pushRecvQueue r.recvQueue ⟨pk.msg ++ [0], pk.id⟩
          pushes := r.pushes ++ [⟨⟨pk.msg ++ [0], pk.id⟩, r.consumed + k⟩] } := by
  have htake : (r.stream.take k).length = k := by rw [List.length_take, Nat.min_eq_left hk]
  have hbs : r.stream.take k ≠ [] := List.ne_nil_of_length_pos (by rwa [htake])
  have h : Tracks r.pc (r.stream.take k ++ (r.stream.drop k ++ tail)) pks := by
    rw [← List.append_assoc, List.take_append_drop]; exact h
  rcases tracks_received hreq h (by rwa [htake]) hbs (by rwa [htake]) hpks with
    ⟨pc, hrec, ht⟩ | ⟨pk, rest, hcons, hstream, hrec⟩
  · exact Or.inl ⟨pc, take_of_none hrec, ht⟩
  · exact Or.inr ⟨pk, rest, hcons, hstream, take_of_some hrec⟩

/-- Inside a frame the receiver has more to come than the frames behind it. -/
theorem Tracks.length_lt {pc : RecvPc} {s : List CChar} {pk : Pocket} {rest : List Pocket}
    (h : Tracks pc s (pk :: rest)) (hpk : Framed pk) : (encs rest).length < s.length := by
  cases pc with
  | fault => cases h
  | idle | head =>
    rw [show s = enc pk ++ encs rest from h, List.length_append, hpk.enc_eq, List.length_append,
      header_length]
    omega
  | headLoop buf recvLen =>
    obtain ⟨pk', rest', heq, hlt, -, rfl⟩ := h
    cases heq
    simp only [List.length_append, List.length_drop, header_length]
    omega
  | body msgId msgLen buf readSize =>
    obtain ⟨pk', rest', heq, -, -, hlt, -, rfl⟩ := h
    cases heq
    simp only [List.length_append, List.length_drop, pk.msg_length]
    omega

theorem Tracks.length_le {pc : RecvPc} {s : List CChar} {pks : List Pocket}
    (h : Tracks pc s pks) (hpks : ∀ pk ∈ pks, Framed pk) : s.length ≤ (encs pks).length := by
  cases pc with
  | fault => cases h
  | idle | head => rw [show s = encs pks from h]
  | headLoop buf recvLen =>
    obtain ⟨pk, rest, rfl, -, -, rfl⟩ := h
    rw [encs_cons, (hpks pk List.mem_cons_self).enc_eq]
    simp only [List.length_append, List.length_drop]
    omega
  | body msgId msgLen buf readSize =>
    obtain ⟨pk, rest, rfl, -, -, -, -, rfl⟩ := h
    rw [encs_cons, (hpks pk List.mem_cons_self).enc_eq]
    simp only [List.length_append, List.length_drop]
    omega

end SurvivalGame
