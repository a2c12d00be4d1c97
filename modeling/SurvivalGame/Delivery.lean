import SurvivalGame.Fragmentation
import SurvivalGame.Channel

/-! # Two clients and a pipe

A sending client and a receiving client are joined by a reliable byte pipe: what
the OS takes from `Send` it hands, in order, to `Recv`.  A message then passes
through the send queue, a half-sent frame, the pipe, a half-read frame and the
receive queue, and any two of these may be busy at once.  An access to a queue is
taken as one step; that is an assumption, for the source takes no lock.

The link is a `Channel` of messages (`simulates`): the pockets pulled by the
consumer or waiting in the receive queue are what the channel has delivered, the
frames the receiver still `Tracks` and the pockets still queued are what is under
way.  No step but the push of a message and the completion of a body moves the
channel, so delivery exactly once and in order (`received_prefix`) is that of the
channel.
-/
namespace SurvivalGame
open Transition

/-- The state of both clients.  The receiver's stream is the pipe.  `pulled` and
`pushed` record what the consumer has pulled and what the producer has pushed. -/
structure Link where
  sendQueue : Queue
  sendPc : SendPc
  receiver : Receiver
  pulled : List Pocket
  pushed : List (CUInt × List CChar)
deriving DecidableEq

/-- A step of the producer, the sender thread, the receiver thread or the
consumer. -/
inductive LinkAct
  | pushSendQueue (msg : List CChar) (msgid : CUInt)
  | sendFunc (a : SendAct)
  | recvFunc (a : RecvAct)
  | pullPocket

/-- The id and the bytes of a pocket. -/
def Pocket.content (pk : Pocket) : CUInt × List CChar := (pk.id, pk.msg)

/-- The messages of the protocol: an id of the documented ranges and a short
string. -/
@[mk_iff]
structure IsMessage (msg : List CChar) (msgid : CUInt) : Prop where
  id_pos : 1 ≤ msgid.toNat
  id_le : msgid.toNat ≤ 30000
  nul_free : 0 ∉ msg
  length_pos : 1 ≤ msg.length
  length_le : msg.length ≤ 32767

instance (msg : List CChar) (msgid : CUInt) : Decidable (IsMessage msg msgid) :=
  decidable_of_iff' _ (isMessage_iff msg msgid)

theorem IsMessage.makePocket_msg {msg : List CChar} {msgid : CUInt} (h : IsMessage msg msgid) :
    (makePocket msg msgid).msg = msg :=
  makePocket_msg_of_nul_free h.nul_free (Nat.lt_of_le_of_lt h.length_le (by decide))

theorem IsMessage.framed {msg : List CChar} {msgid : CUInt} (h : IsMessage msg msgid) :
    Framed (makePocket msg msgid) := by
  have hlen : (makePocket msg msgid).length.toNat = msg.length := by
    rw [← Pocket.msg_length, h.makePocket_msg]
  have hid := h.id_le
  have hle := h.length_le
  exact ⟨h.id_pos, by rw [makePocket_id]; omega, by rw [hlen]; exact h.length_pos,
    by rw [hlen]; omega⟩

/-- The pocket made from a body and the NUL behind it is the pocket that was
sent. -/
theorem makePocket_append_nul {pk : Pocket} (h : 0 ∉ pk.msg) :
    makePocket (pk.msg ++ [0]) pk.id = pk := by
  have hlt : strlen (pk.msg ++ [0]) < 2 ^ 32 := by
    rw [strlen_append_nul, strlen_of_nul_free h, pk.msg_length]
    exact pk.length.isLt
  refine Pocket.ext_of_msg rfl ?_
  rw [makePocket_msg hlt, takeWhile_append_nul, takeWhile_eq_self_of_nul_free h]

theorem Framed.sendable {pk : Pocket} (h : Framed pk) : Sendable pk := by
  have hlt := h.length_lt
  rw [Sendable, enc_of_id h.id_pos, sendData_length]
  omega

/-- Only the empty sequence of frames takes no bytes. -/
theorem eq_nil_of_encs_eq_nil {pks : List Pocket} (hpks : ∀ pk ∈ pks, Framed pk)
    (h : encs pks = []) : pks = [] := by
  cases pks with
  | nil => rfl
  | cons pk rest =>
    rw [encs_cons, (hpks pk List.mem_cons_self).enc_eq] at h
    simp [header] at h

namespace Link

/-- Two fresh clients. -/
def init : Link := ⟨.empty, .idle, .init [], [], []⟩

/-- The messages at the consumer's end: those pulled, then those it can pull. -/
def received (l : Link) : List (CUInt × List CChar) :=
  (l.pulled ++ l.receiver.recvQueue.pks).map Pocket.content

/-- One step of one of the four parties. -/
def step (sizeofPtr : Nat) (l : Link) : LinkAct → Option Link
  | .pushSendQueue msg msgid =>
    some { l with
      sendQueue := l.sendQueue.pushPocket (makePocket msg msgid)
      pushed := l.pushed ++ [(msgid, msg)] }
  | .sendFunc a =>
    (SurvivalGame.sendFunc l.sendQueue l.sendPc a).map fun (q, pc, bs) =>
      { l with
        sendQueue := q, sendPc := pc
        receiver := { l.receiver with stream := l.receiver.stream ++ bs } }
  | .recvFunc a => (l.receiver.step sizeofPtr a).map fun r => { l with receiver := r }
  | .pullPocket =>
    match l.receiver.recvQueue.pullPocket with
    | (none, _) => some l
    | (some pk, q) =>
      some { l with receiver := { l.receiver with recvQueue := q }, pulled := l.pulled ++ [pk] }

/-- What the link relies on: messages of the protocol, an OS that takes at least
one byte in each send, and reads that cut the stream harmlessly. -/
def Harmless (l : Link) : LinkAct → Prop
  | .pushSendQueue msg msgid => IsMessage msg msgid
  | .sendFunc a => a.refuses = false
  | .recvFunc a => l.receiver.Nonempty a ∧ l.receiver.Harmless a
  | .pullPocket => True

/-- The special case in which the first `Recv` of a call, when it is answered,
returns the whole header, so that the header loop is not entered. -/
def WholeHeaders (l : Link) : LinkAct → Prop
  | .pushSendQueue msg msgid => IsMessage msg msgid
  | .sendFunc a => a.refuses = false
  | .recvFunc (.recv (.took k)) => 0 < k ∧ (l.receiver.pc = .head → k = 10)
  | .recvFunc (.recv .error) | .recvFunc .call | .pullPocket => True

instance (l : Link) : ∀ a, Decidable (l.WholeHeaders a)
  | .pushSendQueue msg msgid => inferInstanceAs (Decidable (IsMessage msg msgid))
  | .sendFunc a => inferInstanceAs (Decidable (a.refuses = false))
  | .recvFunc (.recv (.took k)) =>
    inferInstanceAs (Decidable (0 < k ∧ (l.receiver.pc = .head → k = 10)))
  | .recvFunc (.recv .error) | .recvFunc .call | .pullPocket => inferInstanceAs (Decidable True)

/-! ## The link simulates a channel -/

/-- How a link shows a channel of messages. -/
structure Shows (l : Link) (c : Channel (CUInt × List CChar)) (inflight : List Pocket) :
    Prop where
  framed : ∀ pk ∈ inflight ++ l.sendQueue.pks, Framed pk ∧ 0 ∉ pk.msg
  sound : l.sendPc.Sound l.sendQueue
  tracks : Tracks l.receiver.pc (l.receiver.stream ++ l.sendPc.unsent) inflight
  delivered : c.delivered = l.received
  transit : c.transit = (inflight ++ l.sendQueue.pks).map Pocket.content
  sent : c.sent = l.pushed

theorem shows_init : Shows init .empty [] where
  framed := by simp [init, Queue.empty]
  sound := trivial
  tracks := rfl
  delivered := rfl
  transit := rfl
  sent := rfl

/-- A pushed message enters the channel. -/
theorem simulates_push {l : Link} {c : Channel (CUInt × List CChar)} {inflight : List Pocket}
    (h : Shows l c inflight) {msg : List CChar} {msgid : CUInt} (hm : IsMessage msg msgid) :
    ∃ d, c.step (.send (msgid, msg)) = some d ∧
      Shows { l with
        sendQueue := l.sendQueue.pushPocket (makePocket msg msgid)
        pushed := l.pushed ++ [(msgid, msg)] } d inflight := by
  have hcontent : (makePocket msg msgid).content = (msgid, msg) := by
    rw [Pocket.content, hm.makePocket_msg, makePocket_id]
  have hstep : c.step (.send (msgid, msg)) = some _ := rfl
  refine ⟨_, hstep, ?_, h.sound.push _, h.tracks, h.delivered, ?_, ?_⟩
  · intro pk hpk
    rw [Queue.pks_pushPocket, ← List.append_assoc] at hpk
    rcases List.mem_append.mp hpk with hpk | hpk
    · exact h.framed pk hpk
    · rw [List.mem_singleton.mp hpk]
      exact ⟨hm.framed, by rw [hm.makePocket_msg]; exact hm.nul_free⟩
  · rw [h.transit]
    simp [hcontent]
  · rw [Channel.sent_step hstep, h.sent]
    rfl

/-- A step of the sender moves bytes, not messages. -/
theorem simulates_send {l : Link} {c : Channel (CUInt × List CChar)} {inflight : List Pocket}
    (h : Shows l c inflight) {a : SendAct} {q : Queue} {pc : SendPc} {bs : List CChar}
    (ha : a.refuses = false) (hs : SurvivalGame.sendFunc l.sendQueue l.sendPc a = some (q, pc, bs)) :
    ∃ inflight', Shows { l with
      sendQueue := q, sendPc := pc
      receiver := { l.receiver with stream := l.receiver.stream ++ bs } } c inflight' := by
  have hsendable : ∀ pk ∈ l.sendQueue.pks, Sendable pk := fun pk hpk =>
    (h.framed pk (List.mem_append_right _ hpk)).1.sendable
  obtain ⟨hsound, pulled, hpulled, hbytes⟩ := sendFunc_conserves hs h.sound hsendable ha
  have hsame : inflight ++ l.sendQueue.pks = inflight ++ pulled ++ q.pks := by
    rw [hpulled, List.append_assoc]
  have htracks : Tracks l.receiver.pc (l.receiver.stream ++ bs ++ pc.unsent) (inflight ++ pulled) := by
    rw [List.append_assoc, hbytes, ← List.append_assoc]
    exact h.tracks.append pulled
  exact ⟨inflight ++ pulled, by rw [← hsame]; exact h.framed, hsound, htracks, h.delivered,
    by rw [← hsame]; exact h.transit, h.sent⟩

/-- A step of the receiver delivers a message, or none. -/
theorem simulates_recv {sizeofPtr : Nat} {l : Link} {c : Channel (CUInt × List CChar)}
    {inflight : List Pocket} (h : Shows l c inflight) {a : RecvAct} {r : Receiver}
    (hne : l.receiver.Nonempty a) (hharm : l.receiver.Harmless a)
    (hs : l.receiver.step sizeofPtr a = some r) :
    ∃ acts d inflight', run Channel.step c acts = some d ∧
      Shows { l with receiver := r } d inflight' := by
  cases Receiver.step_cases hs with
  | call hidle =>
    have ht := h.tracks
    rw [hidle] at ht
    exact ⟨[], c, inflight, rfl, h.framed, h.sound, ht, h.delivered, h.transit, h.sent⟩
  | gaveUp => exact ⟨[], c, inflight, rfl, h.framed, h.sound, h.tracks.gaveUp, h.delivered,
      h.transit, h.sent⟩
  | @took off len k hreq hlen hk =>
    have hframed : ∀ pk ∈ inflight, Framed pk := fun pk hpk =>
      (h.framed pk (List.mem_append_left _ hpk)).1
    rcases Receiver.take_tracks hreq hlen hk hne hharm h.tracks hframed with
      ⟨pc', htake, ht⟩ | ⟨pk, rest, rfl, hstream, htake⟩
    · rw [htake]
      exact ⟨[], c, inflight, rfl, h.framed, h.sound, ht, h.delivered, h.transit, h.sent⟩
    · -- the body of `pk` is complete: its message leaves the channel
      rw [htake]
      obtain ⟨delivered, transit⟩ := c
      obtain rfl : transit = pk.content :: (rest ++ l.sendQueue.pks).map Pocket.content := h.transit
      have hpush : Receiver.pushRecvQueue l.receiver.recvQueue ⟨pk.msg ++ [0], pk.id⟩ =
          l.receiver.recvQueue.pushPocket pk :=
        congrArg _ (makePocket_append_nul (h.framed pk List.mem_cons_self).2)
      have hstep : Channel.step ⟨delivered, pk.content :: (rest ++ l.sendQueue.pks).map Pocket.content⟩
          .deliver = some _ := rfl
      refine ⟨[.deliver], _, rest, run_cons_eq_some.mpr ⟨_, hstep, rfl⟩,
        fun p hp => h.framed p (List.mem_cons_of_mem _ hp), h.sound, hstream, ?_, rfl, ?_⟩
      · rw [show delivered = l.received from h.delivered]
        rw [received, received, hpush]
        simp
      · rw [Channel.sent_step hstep, h.sent]
        exact List.append_nil _

/-- Pulling a pocket hands it from the receive queue to the consumer. -/
theorem simulates_pull {l : Link} {c : Channel (CUInt × List CChar)} {inflight : List Pocket}
    (h : Shows l c inflight) {sizeofPtr : Nat} {l' : Link}
    (hs : l.step sizeofPtr .pullPocket = some l') : Shows l' c inflight := by
  rw [step] at hs
  cases hq : l.receiver.recvQueue.pks with
  | nil =>
    rw [Queue.pullPocket_of_nil hq] at hs
    cases hs
    exact h
  | cons pk pks =>
    rw [Queue.pullPocket_of_cons hq] at hs
    cases hs
    refine ⟨h.framed, h.sound, h.tracks, h.delivered.trans ?_, h.transit, h.sent⟩
    simp [received, hq]

/-- **The link simulates the channel**, step by step. -/
theorem simulates {sizeofPtr : Nat} {l l' : Link} {a : LinkAct} {c : Channel (CUInt × List CChar)}
    (h : ∃ inflight, Shows l c inflight) (ha : l.Harmless a) (hs : l.step sizeofPtr a = some l') :
    ∃ acts d, run Channel.step c acts = some d ∧ ∃ inflight, Shows l' d inflight := by
  obtain ⟨inflight, h⟩ := h
  cases a with
  | pushSendQueue msg msgid =>
    cases hs
    obtain ⟨d, hd, h'⟩ := simulates_push h ha
    exact ⟨[.send (msgid, msg)], d, run_cons_eq_some.mpr ⟨d, hd, rfl⟩, inflight, h'⟩
  | sendFunc a =>
    obtain ⟨⟨q, pc, bs⟩, hsend, rfl⟩ := Option.map_eq_some_iff.mp hs
    obtain ⟨inflight', h'⟩ := simulates_send h ha hsend
    exact ⟨[], c, rfl, inflight', h'⟩
  | recvFunc a =>
    obtain ⟨r, hrecv, rfl⟩ := Option.map_eq_some_iff.mp hs
    obtain ⟨acts, d, inflight', hrun, h'⟩ := simulates_recv h ha.1 ha.2 hrecv
    exact ⟨acts, d, hrun, inflight', h'⟩
  | pullPocket => exact ⟨[], c, rfl, inflight, simulates_pull h hs⟩

/-- What a link shows once nothing is under way in it any more. -/
theorem Shows.transit_eq_nil {l : Link} {c : Channel (CUInt × List CChar)} {inflight : List Pocket}
    (h : Shows l c inflight) (hqueue : l.sendQueue.pks = []) (hpipe : l.receiver.stream = [])
    (hsend : l.sendPc = .idle) (hrecv : l.receiver.pc = .idle) : c.transit = [] := by
  have ht := h.tracks
  rw [hrecv, hpipe, hsend] at ht
  have hnil : inflight = [] :=
    eq_nil_of_encs_eq_nil (fun pk hpk => (h.framed pk (List.mem_append_left _ hpk)).1) ht.symm
  rw [h.transit, hnil, hqueue]
  rfl

/-! ## The header loop is not entered -/

theorem decode_ne_headLoop (recvHeadBuf buf : List CChar) (n : Nat) :
    decode recvHeadBuf ≠ .headLoop buf n := by
  intro h
  rw [decode] at h
  split at h
  · split at h
    · cases h
    · split at h <;> cases h
  · cases h

theorem received_ne_headLoop {pc : RecvPc} {bs : List CChar} (h : ∀ buf n, pc ≠ .headLoop buf n)
    (hbs : pc = .head → bs.length = 10) :
    ∀ buf n, (SurvivalGame.received bs pc).1 ≠ .headLoop buf n := by
  cases pc with
  | headLoop buf n => exact absurd rfl (h buf n)
  | head =>
    rw [SurvivalGame.received, if_neg (by rw [hbs rfl]; decide)]
    exact decode_ne_headLoop _
  | body msgId msgLen buf readSize =>
    rw [SurvivalGame.received]
    split <;> intro _ _ h <;> cases h
  | idle | fault => exact h

theorem wholeHeaders_step {sizeofPtr : Nat} {l l' : Link} {a : LinkAct}
    (h : ∀ buf n, l.receiver.pc ≠ .headLoop buf n) (ha : l.WholeHeaders a)
    (hs : l.step sizeofPtr a = some l') : ∀ buf n, l'.receiver.pc ≠ .headLoop buf n := by
  cases a with
  | pushSendQueue msg msgid => cases hs; exact h
  | sendFunc a =>
    obtain ⟨⟨q, pc, bs⟩, -, rfl⟩ := Option.map_eq_some_iff.mp hs
    exact h
  | pullPocket =>
    rw [step] at hs
    split at hs <;> cases hs <;> exact h
  | recvFunc a =>
    obtain ⟨r, hr, rfl⟩ := Option.map_eq_some_iff.mp hs
    cases Receiver.step_cases hr with
    | call => intro _ _ h; cases h
    | gaveUp =>
      cases hpc : l.receiver.pc with
      | headLoop buf n => exact absurd hpc (h buf n)
      | _ => intro _ _ h; cases h
    | @took off len k hreq hlen hk =>
      have hpc : (l.receiver.take k).pc =
          (SurvivalGame.received (l.receiver.stream.take k) l.receiver.pc).1 := by
        rw [Receiver.take]
        split <;> rename_i heq <;> rw [heq]
      rw [hpc]
      exact received_ne_headLoop h fun hhead => by
        rw [List.length_take, Nat.min_eq_left hk, ha.2 hhead]

theorem harmless_of_wholeHeaders {l : Link} {a : LinkAct}
    (h : ∀ buf n, l.receiver.pc ≠ .headLoop buf n) (ha : l.WholeHeaders a) : l.Harmless a := by
  cases a with
  | pushSendQueue msg msgid => exact ha
  | sendFunc a => exact ha
  | pullPocket => trivial
  | recvFunc a =>
    match a, ha with
    | .call, _ | .recv .error, _ => exact ⟨trivial, trivial⟩
    | .recv (.took k), ha =>
      refine ⟨ha.1, ?_⟩
      show KeepsHeader l.receiver.pc k
      cases hpc : l.receiver.pc with
      | headLoop buf n => exact absurd hpc (h buf n)
      | _ => trivial

/-- **Delivery exactly once and in order.**  In every run of the four parties in
which the pushed messages are of the protocol, each OS send takes at least one
byte and headers are read whole, the messages at the consumer's end are at every
moment a prefix of those pushed; they are all of them once the send queue and the
pipe are empty and neither thread is inside a call. -/
theorem received_prefix {sizeofPtr : Nat} {acts : List LinkAct} {l : Link}
    (hrun : run (step sizeofPtr) init acts = some l)
    (hwhole : Along (step sizeofPtr) WholeHeaders init acts) :
    l.received <+: l.pushed ∧
      (l.sendQueue.pks = [] → l.receiver.stream = [] → l.sendPc = .idle → l.receiver.pc = .idle →
        l.received = l.pushed) := by
  have hharmless : Along (step sizeofPtr) Harmless init acts :=
    hwhole.strengthen (I := fun l => ∀ buf n, l.receiver.pc ≠ .headLoop buf n)
      (fun _ _ _ => wholeHeaders_step) (fun _ _ => harmless_of_wholeHeaders)
      (fun _ _ h => by cases h)
  obtain ⟨cacts, c, -, inflight, h⟩ :=
    hharmless.simulation (R := fun l c => ∃ inflight, Shows l c inflight)
      (fun _ _ _ _ => simulates) hrun ⟨[], shows_init⟩
  rw [← h.delivered, ← h.sent]
  exact ⟨c.delivered_prefix_sent, fun hqueue hpipe hsend hrecv =>
    Channel.delivered_eq_sent (h.transit_eq_nil hqueue hpipe hsend hrecv)⟩

/-- Two messages; the first is received and pulled while the second is being
sent. -/
def overlappingRun : List LinkAct :=
  [.pushSendQueue [104, 105] 1001, .sendFunc .getSize, .sendFunc .pullPocket,
    .sendFunc (.send (.accepted 11)), .recvFunc .call, .recvFunc (.recv (.took 10)),
    .pushSendQueue [33] 30000, .recvFunc (.recv (.took 1)), .recvFunc (.recv .error),
    .sendFunc (.send (.accepted 1)), .recvFunc (.recv (.took 1)), .sendFunc .ret,
    .sendFunc .getSize, .pullPocket, .sendFunc .pullPocket, .sendFunc (.send (.accepted 10))]

theorem received_prefix_overlappingRun : ∃ l : Link,
    run (step 8) init overlappingRun = some l ∧ l.received = [(1001, [104, 105])] ∧
    l.received <+: l.pushed ∧
      (l.sendQueue.pks = [] → l.receiver.stream = [] → l.sendPc = .idle → l.receiver.pc = .idle →
        l.received = l.pushed) :=
  ⟨_, rfl, rfl, received_prefix (show run (step 8) init overlappingRun = some _ from rfl) (by decide)⟩

end Link

end SurvivalGame
