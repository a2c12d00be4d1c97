import SurvivalGame.TypedLink

/-! # Every message arrives

As long as messages of the classes are pushed, the link never gets stuck
(`exists_getsOn`), and every step that gets on leaves less to be done (`work_lt`): a byte is
nearer to its end in the send queue's pockets than in the call of `Send`, and nearer there
than in the pipe.  So whatever has happened before, and in whatever order the four parties
go on, all that has been pushed arrives (`messages_arrive`).
-/
namespace SurvivalGame
open Transition

/-- What a sender has still to do for the pocket it is at. -/
def SendPc.work : SendPc → Nat
  | .idle => 3
  | .tested => 2
  | .sending buf _ count => 4 * (buf.drop count).length + 4
  | .fault => 0

namespace Link

/-- The steps that get on.  Nothing is pushed; the size of the send queue is asked for when
there is a pocket, and `recvFunc` is called when there is something to read; the OS takes
and hands over bytes, and cuts the stream harmlessly; a pocket is pulled when there is
one. -/
def GetsOn (l : Link) : LinkAct → Prop
  | .pushSendQueue .. => False
  | .sendFunc a => a.refuses = false ∧ (a = .getSize → 0 < l.sendQueue.getSize)
  | .recvFunc .call => l.receiver.stream ≠ []
  | .recvFunc (.recv .error) => False
  | .recvFunc (.recv (.took k)) => 0 < k ∧ KeepsHeader l.receiver.pc k
  | .pullPocket => l.receiver.recvQueue.pks ≠ []

/-- What is left to be done. -/
def work (l : Link) : Nat :=
  (l.sendQueue.pks.map fun pk => 4 * (enc pk).length + 10).sum + l.sendPc.work +
    3 * l.receiver.stream.length + (if l.receiver.pc = .idle then 1 else 0) +
    l.receiver.recvQueue.pks.length

theorem GetsOn.harmless {l : Link} {a : LinkAct} (h : l.GetsOn a) : l.Harmless a := by
  match a, h with
  | .sendFunc a, h => exact h.1
  | .recvFunc .call, _ => exact ⟨trivial, trivial⟩
  | .recvFunc (.recv (.took k)), h => exact h
  | .pullPocket, _ => trivial

theorem GetsOn.cStringAct_eq {l : Link} {a : LinkAct} (h : l.GetsOn a) : cStringAct a = a := by
  match a, h with
  | .sendFunc a, _ | .recvFunc a, _ | .pullPocket, _ => rfl

section Steps

variable {sizeofPtr : Nat} {l l' : Link}

/-- Nothing is pushed. -/
theorem GetsOn.pushed_eq {a : LinkAct} (h : l.GetsOn a) (hs : l.step sizeofPtr a = some l') :
    l'.pushed = l.pushed ∧ l'.sendQueue.pks.length ≤ l.sendQueue.pks.length := by
  match a, h with
  | .sendFunc a, _ =>
    obtain ⟨⟨q, pc, bs⟩, hsend, rfl⟩ := Option.map_eq_some_iff.mp hs
    exact ⟨rfl, (sendFunc_queue hsend).length_le⟩
  | .recvFunc a, _ =>
    obtain ⟨r, -, rfl⟩ := Option.map_eq_some_iff.mp hs
    exact ⟨rfl, Nat.le_refl _⟩
  | .pullPocket, _ =>
    rw [step] at hs
    split at hs <;> cases hs <;> exact ⟨rfl, Nat.le_refl _⟩

/-! ## Less is left to be done -/

theorem work_lt_send {a : SendAct} {q : Queue} {pc : SendPc} {bs : List CChar}
    (hsound : l.sendPc.Sound l.sendQueue) (hsendable : ∀ pk ∈ l.sendQueue.pks, Sendable pk)
    (ha : l.GetsOn (.sendFunc a))
    (hs : SurvivalGame.sendFunc l.sendQueue l.sendPc a = some (q, pc, bs)) :
    work { l with
      sendQueue := q, sendPc := pc
      receiver := { l.receiver with stream := l.receiver.stream ++ bs } } < l.work := by
  have hstep := sendFunc_step hs
  obtain ⟨queue, sendPc, receiver, pulled, pushed⟩ := l
  simp only at hsound hsendable hstep
  cases hstep with
  | getSize =>
    have hpos : 0 < q.getSize := ha.2 rfl
    simp [work, SendPc.work, hpos]
  | pullNull hnil => exact absurd hnil hsound
  | @pull pk pks hcons =>
    have hpk : Sendable pk := hsendable pk (by rw [hcons]; exact List.mem_cons_self)
    rw [startSend_of_sendable hpk]
    simp only [work, SendPc.work, hcons, List.map_cons, List.sum_cons, List.drop_zero,
      List.append_nil]
    omega
  | refused _ href =>
    have := ha.1
    rw [SendAct.refuses, href] at this
    cases this
  | @accepted buf len count k hk hle =>
    obtain ⟨rfl, -⟩ := hsound
    have hfit : count + k ≤ buf.length := by exact_mod_cast hle
    simp only [work, SendPc.work, List.length_append, List.length_drop, List.length_take]
    omega
  | ret => simp [work, SendPc.work]

theorem work_lt_took {off len k : Nat} (hreq : request sizeofPtr l.receiver.pc = some (off, len))
    (hk : k ≤ l.receiver.stream.length) (hpos : 0 < k) :
    work { l with receiver := l.receiver.take k } < l.work := by
  have hidle : l.receiver.pc ≠ .idle := by
    intro hpc
    rw [hpc] at hreq
    cases hreq
  have hone : ∀ pc : RecvPc, (if pc = .idle then 1 else 0) ≤ 1 := by
    intro pc
    split <;> decide
  have hpc := hone (l.receiver.take k).pc
  have hstream : (l.receiver.take k).stream.length = l.receiver.stream.length - k := by
    rw [Receiver.take]
    split <;> exact List.length_drop
  have hqueue : (l.receiver.take k).recvQueue.pks.length ≤
      l.receiver.recvQueue.pks.length + 1 := by
    rw [Receiver.take]
    split
    · exact Nat.le_succ _
    · exact Nat.le_of_eq List.length_append
  simp only [work, if_neg hidle, hstream]
  omega

/-- **Every step that gets on leaves less to be done.** -/
theorem work_lt {c : Channel (CUInt × List CChar)} {inflight : List Pocket}
    (h : Shows l.cString c inflight) {a : LinkAct} (ha : l.GetsOn a)
    (hs : l.step sizeofPtr a = some l') : l'.work < l.work := by
  match a, ha with
  | .sendFunc a, ha =>
    obtain ⟨⟨q, pc, bs⟩, hsend, rfl⟩ := Option.map_eq_some_iff.mp hs
    refine work_lt_send h.sound (fun pk hpk => ?_) ha hsend
    exact (h.framed pk (List.mem_append_right _ hpk)).1.sendable
  | .recvFunc .call, _ =>
    obtain ⟨r, hrecv, rfl⟩ := Option.map_eq_some_iff.mp hs
    cases Receiver.step_cases hrecv with
    | call hidle => simp [work, hidle]
  | .recvFunc (.recv (.took k)), ha =>
    obtain ⟨r, hrecv, rfl⟩ := Option.map_eq_some_iff.mp hs
    cases Receiver.step_cases hrecv with
    | took hreq _ hk => exact work_lt_took hreq hk ha.1
  | .pullPocket, ha =>
    obtain ⟨pk, pks, hq⟩ := List.exists_cons_of_ne_nil ha
    rw [step, Queue.pullPocket_of_cons hq] at hs
    cases hs
    simp [work, hq]

/-! ## There is always something to do -/

/-- A sender's step is a step of the link. -/
theorem exists_getsOn_send {a : SendAct} {o : Queue × SendPc × List CChar}
    (ha : l.GetsOn (.sendFunc a)) (hs : SurvivalGame.sendFunc l.sendQueue l.sendPc a = some o) :
    ∃ a l', l.GetsOn a ∧ l.step sizeofPtr a = some l' :=
  ⟨.sendFunc a, _, ha, by rw [step, hs]; rfl⟩

/-- And so is a receiver's. -/
theorem exists_getsOn_recvFunc {a : RecvAct} {r : Receiver} (ha : l.GetsOn (.recvFunc a))
    (hr : l.receiver.step sizeofPtr a = some r) :
    ∃ a l', l.GetsOn a ∧ l.step sizeofPtr a = some l' :=
  ⟨.recvFunc a, _, ha, by rw [step, hr]; rfl⟩

/-- A receiver inside the frames reads on. -/
theorem exists_getsOn_recv (hptr : 0 < sizeofPtr) {inflight : List Pocket}
    (h : Tracks l.receiver.pc l.receiver.stream inflight)
    (hframed : ∀ pk ∈ inflight, Framed pk) (hne : inflight ≠ []) :
    ∃ a l', l.GetsOn a ∧ l.step sizeofPtr a = some l' := by
  obtain ⟨pk, rest, rfl⟩ := List.exists_cons_of_ne_nil hne
  have hpos : 0 < l.receiver.stream.length :=
    Nat.zero_lt_of_lt (h.length_lt (hframed pk List.mem_cons_self))
  have hread {off len : Nat} (hreq : request sizeofPtr l.receiver.pc = some (off, len))
      (hlen : 0 < len) (hkeeps : KeepsHeader l.receiver.pc 1) :
      ∃ a l', l.GetsOn a ∧ l.step sizeofPtr a = some l' := by
    refine exists_getsOn_recvFunc (a := .recv (.took 1)) (r := l.receiver.take 1)
      ⟨Nat.one_pos, hkeeps⟩ ?_
    have hone : 1 ≤ len ∧ 1 ≤ l.receiver.stream.length := ⟨hlen, hpos⟩
    simp only [Receiver.step, hreq, if_pos hone]
  cases hpc : l.receiver.pc with
  | idle =>
    refine exists_getsOn_recvFunc (a := .call) (r := { l.receiver with pc := .head })
      (List.length_pos_iff.mp hpos) ?_
    rw [Receiver.step, if_pos hpc]
  | head => exact hread (by rw [hpc]; rfl) (by decide) (by rw [hpc]; trivial)
  | headLoop buf recvLen =>
    rw [hpc] at h
    obtain ⟨-, -, -, hlt, -⟩ := h
    exact hread (by rw [hpc]; rfl) hptr (by rw [hpc]; exact hlt)
  | body msgId msgLen buf readSize =>
    rw [hpc] at h
    obtain ⟨pk', -, -, -, rfl, hlt, -⟩ := h
    exact hread (by rw [hpc]; rfl) (Nat.sub_pos_of_lt hlt) (by rw [hpc]; trivial)
  | fault =>
    rw [hpc] at h
    cases h

/-- **The link never gets stuck** with something under way in it. -/
theorem exists_getsOn (hptr : 0 < sizeofPtr) {c : Channel (CUInt × List CChar)}
    {inflight : List Pocket} (h : Shows l.cString c inflight)
    (hsize : l.sendQueue.pks.length < 2 ^ 31) (hne : c.transit ≠ []) :
    ∃ a l', l.GetsOn a ∧ l.step sizeofPtr a = some l' := by
  have hsound : l.sendPc.Sound l.sendQueue := h.sound
  have htracks : Tracks l.receiver.pc (l.receiver.stream ++ l.sendPc.unsent) inflight := h.tracks
  cases hpc : l.sendPc with
  | idle =>
    by_cases hqueue : l.sendQueue.pks = []
    · have hunsent : l.sendPc.unsent = [] := by rw [hpc]; rfl
      rw [hunsent, List.append_nil] at htracks
      refine exists_getsOn_recv hptr htracks
        (fun pk hpk => (h.framed pk (List.mem_append_left _ hpk)).1) fun hnil => hne ?_
      rw [h.transit, hnil, show l.cString.sendQueue.pks = [] from hqueue]
      rfl
    · have hpos : 0 < l.sendQueue.getSize := by
        have hlen := List.length_pos_iff.mpr hqueue
        have hnat : (BitVec.ofNat 32 l.sendQueue.pks.length).toNat = l.sendQueue.pks.length := by
          rw [BitVec.toNat_ofNat]
          omega
        rw [Queue.getSize, BitVec.toInt_eq_toNat_of_lt (by omega), hnat]
        exact_mod_cast hlen
      exact exists_getsOn_send (a := .getSize) ⟨rfl, fun _ => hpos⟩ (by rw [hpc]; rfl)
  | tested =>
    rw [hpc] at hsound
    obtain ⟨pk, pks, hq⟩ := List.exists_cons_of_ne_nil hsound
    refine exists_getsOn_send (a := .pullPocket) (o := (⟨pks⟩, startSend pk, [])) ⟨rfl, SendAct.noConfusion⟩ ?_
    rw [hpc, SurvivalGame.sendFunc, Queue.pullPocket_of_cons hq]
  | sending buf len count =>
    by_cases hlt : count < len
    · have hle : count + ((0 : Nat) + 1 : Int) ≤ len := by omega
      refine exists_getsOn_send (a := .send (.accepted 1))
        (o := (l.sendQueue, .sending buf len (count + 1), (buf.drop count).take 1)) ⟨rfl, SendAct.noConfusion⟩ ?_
      rw [hpc, SurvivalGame.sendFunc, if_pos hlt]
      simp only [if_pos hle]
    · refine exists_getsOn_send (a := .ret) (o := (l.sendQueue, .idle, [])) ⟨rfl, SendAct.noConfusion⟩ ?_
      rw [hpc, SurvivalGame.sendFunc, if_neg hlt]
  | fault =>
    rw [hpc] at hsound
    cases hsound

end Steps

/-- **All messages arrive.**  After any run in which messages of the classes were pushed,
and whatever steps are then taken as long as they get on, in finitely many steps the
consumer has read every message pushed, or a refusal of it. -/
theorem messages_arrive {cls : CUInt → Descriptor} {sizeofPtr : Nat} (hptr : 0 < sizeofPtr)
    {acts : List LinkAct} {l : Link} (hrun : run (step sizeofPtr) init acts = some l)
    (hcarries : Along (step sizeofPtr) (Carries cls) init acts)
    (hsize : l.sendQueue.pks.length < 2 ^ 31) :
    Inevitable (step sizeofPtr) GetsOn (fun t => t.received.map (readMessage cls) =
      l.pushed.map (fun p => if 0 ∈ p.2 then none else readMessage cls p)) l := by
  have hpushed : ∀ p ∈ l.pushed, (readMessage cls p).isSome :=
    hcarries.invariant (I := fun l => ∀ p ∈ l.pushed, (readMessage cls p).isSome)
      (fun _ _ _ => Carries.pushed) hrun nofun
  obtain ⟨cacts, c, -, inflight, h⟩ :=
    hcarries.simulation (R := fun l c => ∃ inflight, Shows l.cString c inflight)
      (fun _ _ _ _ hshows ha hs => simulates hshows ha.harmless (step_cString hs)) hrun
      ⟨[], shows_init⟩
  refine Inevitable.of_measure
    (I := fun t => (∃ c inflight, Shows t.cString c inflight) ∧
      t.sendQueue.pks.length < 2 ^ 31 ∧ t.pushed = l.pushed) work ?_ ?_
    ⟨⟨c, inflight, h⟩, hsize, rfl⟩
  · rintro t ⟨⟨c, inflight, h⟩, hsize, heq⟩ hnot
    refine exists_getsOn hptr h hsize fun hnil => hnot ?_
    have hreceived : t.received = t.cString.pushed := by
      rw [← h.sent, ← Channel.delivered_eq_sent hnil]
      exact h.delivered.symm
    rw [hreceived, cString, heq, List.map_map]
    exact List.map_congr_left fun p hp => readMessage_takeWhile (hpushed p hp)
  · rintro t a t' ⟨⟨c, inflight, h⟩, hsize, heq⟩ - ha hs
    have hharmless : t.cString.Harmless (cStringAct a) := by
      rw [ha.cStringAct_eq]
      exact GetsOn.harmless (l := t.cString) ha
    obtain ⟨-, d, -, inflight', h'⟩ := simulates ⟨inflight, h⟩ hharmless (step_cString hs)
    obtain ⟨hsame, hle⟩ := ha.pushed_eq hs
    exact ⟨work_lt h ha hs, .inr ⟨⟨d, inflight', h'⟩, Nat.lt_of_le_of_lt hle hsize,
      hsame.trans heq⟩⟩

/-- After the first message was received, the second one is still in the send queue. -/
theorem messages_arrive_messageRun : ∃ l : Link,
    run (step 8) init (messageRun.take 11) = some l ∧ l.sendQueue.pks.length = 1 ∧
      Inevitable (step 8) GetsOn (fun t => t.received.map (readMessage gameClass) =
        l.pushed.map (fun p => if 0 ∈ p.2 then none else readMessage gameClass p)) l :=
  ⟨_, rfl, rfl, messages_arrive (by decide)
    (show run (step 8) init (messageRun.take 11) = some _ from rfl) (by decide) (by decide)⟩

end Link

end SurvivalGame
