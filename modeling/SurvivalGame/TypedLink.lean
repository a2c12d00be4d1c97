import SurvivalGame.Delivery
import SurvivalGame.NulFree

/-! # Messages over the link

Two clients send each other the messages of some classes, one for every message id: the
bytes that a message is written as are pushed, and the consumer parses the pockets that it
pulls.  A link works on C strings, so its runs are those of a link to which the bytes up
to the first NUL are pushed (`step_cString`).  Every message that is pushed arrives once and
in order, as itself; but in place of one that has a zero byte there arrives a pocket that
its class refuses (`received_messages`).
-/
namespace SurvivalGame
open Transition

/-- `MakePocket` sees no byte behind the first NUL. -/
theorem makePocket_takeWhile (msg : List CChar) (msgid : CUInt) :
    makePocket (msg.takeWhile (· ≠ 0)) msgid = makePocket msg msgid := by
  have hlen : strlen (msg.takeWhile (· ≠ 0)) = strlen msg := by
    rw [strlen, List.takeWhile_idem, strlen]
  have hle : (BitVec.ofNat 32 (strlen msg)).toNat ≤ (msg.takeWhile (· ≠ 0)).length := by
    rw [BitVec.toNat_ofNat]
    exact Nat.mod_le _ _
  refine Pocket.ext_of_msg rfl ?_
  change (msg.takeWhile (· ≠ 0)).take (BitVec.ofNat 32 (strlen (msg.takeWhile (· ≠ 0)))).toNat =
    msg.take (BitVec.ofNat 32 (strlen msg)).toNat
  obtain ⟨rest, hrest⟩ := List.takeWhile_prefix (· ≠ 0) (l := msg)
  rw [hlen, ← List.take_append_of_le_length hle, hrest]

/-- `ParseFromArray` of the bytes of a pocket; more than an `int` can count do not fit into
one. -/
def Message.parseFromPocket (d : Descriptor) (bytes : List CChar) : Option (Message d) :=
  if h : bytes.length ≤ intMax then parseFromArray d ⟨bytes, h⟩ else none

namespace Message

variable {d : Descriptor}

theorem parseFromPocket_eq {bytes : List CChar} (h : bytes.length ≤ intMax) :
    parseFromPocket d bytes = parseFromCodedStream d (Unread.ofBytes bytes) := by
  rw [parseFromPocket, dif_pos h, parseFromArray_eq_parseFromCodedStream]

theorem length_le_of_parseFromPocket {bytes : List CChar} {message : Message d}
    (h : parseFromPocket d bytes = some message) : bytes.length ≤ intMax := by
  rw [parseFromPocket] at h
  split at h
  · assumption
  · cases h

theorem parseFromPocket_takeWhile {bytes : List CChar} {message : Message d}
    (h : parseFromPocket d bytes = some message) :
    parseFromPocket d (bytes.takeWhile (· ≠ 0)) =
      if 0 ∈ bytes then none else parseFromPocket d bytes := by
  have hle := length_le_of_parseFromPocket h
  rw [parseFromPocket_eq (Nat.le_trans (strlen_le bytes) hle), h]
  rw [parseFromPocket_eq hle] at h
  exact parseFromCodedStream_takeWhile h

/-- Bytes that are a message do not start with a NUL. -/
theorem takeWhile_ne_nil_of_parseFromPocket {bytes : List CChar} {message : Message d}
    (h : parseFromPocket d bytes = some message) (hne : bytes ≠ []) :
    bytes.takeWhile (· ≠ 0) ≠ [] := by
  rw [parseFromPocket_eq (length_le_of_parseFromPocket h)] at h
  obtain ⟨fields, hspells, -, -⟩ := parseFromCodedStream_eq_some_iff.mp h
  cases bytes with
  | nil => exact absurd rfl hne
  | cons b bytes =>
    have hb : b ≠ 0 := fun hb => WireFormat.not_spells_zero_cons (hb ▸ hspells)
    rw [List.takeWhile_cons_of_pos (by simpa using hb)]
    exact List.cons_ne_nil _ _

end Message

namespace Link

/-! ## C strings -/

/-- The step with a C string in place of the bytes that are pushed. -/
def cStringAct : LinkAct → LinkAct
  | .pushSendQueue msg msgid => .pushSendQueue (msg.takeWhile (· ≠ 0)) msgid
  | a => a

/-- The link to which C strings were pushed. -/
def cString (l : Link) : Link :=
  { l with pushed := l.pushed.map fun p => (p.1, p.2.takeWhile (· ≠ 0)) }

/-- **A link works on C strings.** -/
theorem step_cString {sizeofPtr : Nat} {l l' : Link} {a : LinkAct}
    (h : l.step sizeofPtr a = some l') :
    l.cString.step sizeofPtr (cStringAct a) = some l'.cString := by
  cases a with
  | pushSendQueue msg msgid =>
    cases h
    rw [cStringAct, step, makePocket_takeWhile]
    simp [cString]
  | sendFunc a =>
    obtain ⟨⟨q, pc, bs⟩, hsend, rfl⟩ := Option.map_eq_some_iff.mp h
    exact Option.map_eq_some_iff.mpr ⟨_, hsend, rfl⟩
  | recvFunc a =>
    obtain ⟨r, hrecv, rfl⟩ := Option.map_eq_some_iff.mp h
    exact Option.map_eq_some_iff.mpr ⟨_, hrecv, rfl⟩
  | pullPocket =>
    rw [step] at h
    change l.cString.step sizeofPtr .pullPocket = _
    rw [step, show l.cString.receiver = l.receiver from rfl]
    cases hq : l.receiver.recvQueue.pks with
    | nil =>
      rw [Queue.pullPocket_of_nil hq] at h ⊢
      cases h
      rfl
    | cons pk pks =>
      rw [Queue.pullPocket_of_cons hq] at h ⊢
      cases h
      rfl

/-! ## Messages -/

variable (cls : CUInt → Descriptor)

/-- What the class of its id reads from a pocket. -/
def readMessage (p : CUInt × List CChar) : Option ((msgid : CUInt) × Message (cls msgid)) :=
  (Message.parseFromPocket (cls p.1) p.2).map (⟨p.1, ·⟩)

/-- What the link relies on: the bytes that are pushed are a message of the class of their
id, not empty and of a length that a header can say, and the rest is `Harmless`. -/
def Carries (l : Link) : LinkAct → Prop
  | .pushSendQueue msg msgid => 1 ≤ msgid.toNat ∧ msgid.toNat ≤ 30000 ∧ msg ≠ [] ∧
      msg.length ≤ 32767 ∧ (readMessage cls (msgid, msg)).isSome
  | a => l.Harmless a

instance (l : Link) : ∀ a, Decidable (l.Carries cls a)
  | .pushSendQueue msg msgid => inferInstanceAs (Decidable (1 ≤ msgid.toNat ∧
      msgid.toNat ≤ 30000 ∧ msg ≠ [] ∧ msg.length ≤ 32767 ∧
      (readMessage cls (msgid, msg)).isSome))
  | .sendFunc a => inferInstanceAs (Decidable (a.refuses = false))
  | .recvFunc a => inferInstanceAs (Decidable (l.receiver.Nonempty a ∧ l.receiver.Harmless a))
  | .pullPocket => inferInstanceAs (Decidable True)

variable {cls}

theorem readMessage_takeWhile {p : CUInt × List CChar} (h : (readMessage cls p).isSome) :
    readMessage cls (p.1, p.2.takeWhile (· ≠ 0)) =
      if 0 ∈ p.2 then none else readMessage cls p := by
  rw [readMessage, Option.isSome_map] at h
  obtain ⟨message, hmessage⟩ := Option.isSome_iff_exists.mp h
  rw [readMessage, Message.parseFromPocket_takeWhile hmessage, readMessage]
  split <;> rfl

theorem Carries.harmless {l : Link} {a : LinkAct} (h : l.Carries cls a) :
    l.cString.Harmless (cStringAct a) := by
  cases a with
  | pushSendQueue msg msgid =>
    obtain ⟨hpos, hle, hne, hlength, hread⟩ := h
    rw [readMessage, Option.isSome_map] at hread
    obtain ⟨message, hmessage⟩ := Option.isSome_iff_exists.mp hread
    refine ⟨hpos, hle, fun hzero => ?_, ?_, Nat.le_trans (strlen_le msg) hlength⟩
    · simpa using List.mem_takeWhile_imp hzero
    · exact List.length_pos_iff.mpr (Message.takeWhile_ne_nil_of_parseFromPocket hmessage hne)
  | sendFunc a | recvFunc a => exact h
  | pullPocket => trivial

/-- All that is pushed are messages. -/
theorem Carries.pushed {sizeofPtr : Nat} {l l' : Link} {a : LinkAct}
    (h : ∀ p ∈ l.pushed, (readMessage cls p).isSome) (ha : l.Carries cls a)
    (hs : l.step sizeofPtr a = some l') : ∀ p ∈ l'.pushed, (readMessage cls p).isSome := by
  cases a with
  | pushSendQueue msg msgid =>
    cases hs
    intro p hp
    rcases List.mem_append.mp hp with hp | hp
    · exact h p hp
    · rw [List.mem_singleton.mp hp]
      exact ha.2.2.2.2
  | sendFunc a =>
    obtain ⟨⟨q, pc, bs⟩, -, rfl⟩ := Option.map_eq_some_iff.mp hs
    exact h
  | recvFunc a =>
    obtain ⟨r, -, rfl⟩ := Option.map_eq_some_iff.mp hs
    exact h
  | pullPocket =>
    rw [step] at hs
    split at hs <;> cases hs <;> exact h

/-- **Messages arrive once and in order.**  In every run in which the bytes that are pushed
are messages of the classes of their ids, the messages that the consumer reads from its
pockets are those that were pushed first, with a refusal in place of each that has a zero
byte; once nothing is under way they are all. -/
theorem received_messages {sizeofPtr : Nat} {acts : List LinkAct} {l : Link}
    (hrun : run (step sizeofPtr) init acts = some l)
    (hcarries : Along (step sizeofPtr) (Carries cls) init acts) :
    (∀ p ∈ l.pushed, (readMessage cls p).isSome) ∧
      l.received.map (readMessage cls) <+:
        l.pushed.map (fun p => if 0 ∈ p.2 then none else readMessage cls p) ∧
      (l.sendQueue.pks = [] → l.receiver.stream = [] → l.sendPc = .idle → l.receiver.pc = .idle →
        l.received.map (readMessage cls) =
          l.pushed.map (fun p => if 0 ∈ p.2 then none else readMessage cls p)) := by
  have hpushed : ∀ p ∈ l.pushed, (readMessage cls p).isSome :=
    hcarries.invariant (I := fun l => ∀ p ∈ l.pushed, (readMessage cls p).isSome)
      (fun _ _ _ => Carries.pushed) hrun nofun
  obtain ⟨cacts, c, -, inflight, h⟩ :=
    hcarries.simulation (R := fun l c => ∃ inflight, Shows l.cString c inflight)
      (fun _ _ _ _ hshows ha hs => simulates hshows ha.harmless (step_cString hs)) hrun
      ⟨[], shows_init⟩
  have hsent : c.sent.map (readMessage cls) =
      l.pushed.map (fun p => if 0 ∈ p.2 then none else readMessage cls p) := by
    rw [h.sent, cString, List.map_map]
    exact List.map_congr_left fun p hp => readMessage_takeWhile (hpushed p hp)
  have hdelivered : c.delivered = l.received := h.delivered
  rw [← hdelivered, ← hsent]
  exact ⟨hpushed, c.delivered_prefix_sent.map _, fun hqueue hpipe hsend hrecv =>
    congrArg _ (Channel.delivered_eq_sent (h.transit_eq_nil hqueue hpipe hsend hrecv))⟩

/-- A class for two message ids. -/
def gameClass (msgid : CUInt) : Descriptor :=
  if msgid = 1001 then GameMessage.HeartRequest else GameMessage.SystemErrorResponse

/-- Two messages; the second has a zero byte in its text. -/
def messageRun : List LinkAct :=
  [.pushSendQueue [8, 233, 7] 1001, .sendFunc .getSize, .sendFunc .pullPocket,
    .sendFunc (.send (.accepted 13)), .recvFunc .call, .recvFunc (.recv (.took 10)),
    .pushSendQueue [8, 1, 26, 1, 0] 1002, .recvFunc (.recv (.took 2)),
    .recvFunc (.recv (.took 1)), .pullPocket, .sendFunc .ret, .sendFunc .getSize,
    .sendFunc .pullPocket, .sendFunc (.send (.accepted 14)), .sendFunc .ret, .recvFunc .call,
    .recvFunc (.recv (.took 10)), .recvFunc (.recv (.took 4))]

theorem received_messages_messageRun : ∃ l : Link,
    run (step 8) init messageRun = some l ∧
      l.received = [(1001, [8, 233, 7]), (1002, [8, 1, 26, 1])] ∧
      (∀ p ∈ l.pushed, (readMessage gameClass p).isSome) ∧
      l.received.map (readMessage gameClass) <+:
        l.pushed.map (fun p => if 0 ∈ p.2 then none else readMessage gameClass p) ∧
      (l.sendQueue.pks = [] → l.receiver.stream = [] → l.sendPc = .idle → l.receiver.pc = .idle →
        l.received.map (readMessage gameClass) =
          l.pushed.map (fun p => if 0 ∈ p.2 then none else readMessage gameClass p)) :=
  ⟨_, rfl, rfl,
    received_messages (show run (step 8) init messageRun = some _ from rfl) (by decide)⟩

end Link

end SurvivalGame
