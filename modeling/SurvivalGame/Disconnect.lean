import SurvivalGame.Receive
import SurvivalGame.Socket

/-! # When the connection ends in the middle of a call

A call of `recvFunc` is `tcpCheck` followed by the `Recv`s of `Receive`.  Once
the connection is gone, every `recv` of the operating system, the peek of `Check`
included, answers the same: 0 if the peer has closed, -1 with a hard error
otherwise (`Dead`).

The first `Recv` gives up on -1.  The two loops do not: they add 0 to what they
have and ask again, and they ask again on -1 whatever the error.  So the call
returns exactly when the error finds it before the first byte
(`returns_iff_nothing_read`); from anywhere else it goes on for ever, and
`th_recv` never gets back to `m_isRuning` and `tcpCheck`.  `ODSocket::Send` takes
the same two answers as the end.
-/
namespace SurvivalGame
open Transition

/-! ## The thread in a whole call -/

/-- The receiver thread: its socket, and where it stands in `recvFunc` behind
`tcpCheck`. -/
structure RecvThread where
  sock : ODSocket
  pc : RecvPc
deriving DecidableEq

/-- A step of the thread: a call of `recvFunc`, which begins with `tcpCheck`; a
call into the operating system there; or the bytes that the pending `Recv`
returns, with `none` for -1. -/
inductive RecvThreadAct
  | call
  | check (a : SockAct)
  | recv (answer : Option (List CChar))
deriving DecidableEq

/-- A call in `Send`, which is the sender thread's. -/
def SockAct.ofSender : SockAct → Bool
  | .send _ => true
  | _ => false

namespace RecvThread

/-- One step. -/
def step (win32 : Bool) (sizeofPtr : Nat) (t : RecvThread) : RecvThreadAct → Option RecvThread
  | .call =>
    if t.pc = .idle ∧ t.sock.pc = .idle then
      (t.sock.step win32 .tcpCheck).map fun sock => ⟨sock, .idle⟩
    else none
  | .check a =>
    if t.sock.pc = .idle ∨ a.ofSender then none
    else (t.sock.step win32 a).map fun sock => ⟨sock, if sock.pc = .idle then .head else t.pc⟩
  | .recv answer =>
    match request sizeofPtr t.pc, answer with
    | none, _ => none
    | some _, none => some ⟨t.sock, gaveUp t.pc⟩
    | some (_, len), some bs =>
      if bs.length ≤ len then some ⟨t.sock, (received bs t.pc).1⟩ else none

/-- What a step of the thread can do. -/
inductive Step (win32 : Bool) (sizeofPtr : Nat) (t : RecvThread) : RecvThreadAct → RecvThread → Prop
  | call {sock : ODSocket} (hpc : t.pc = .idle) (hidle : t.sock.pc = .idle)
      (h : t.sock.step win32 .tcpCheck = some sock) :
      Step win32 sizeofPtr t .call ⟨sock, .idle⟩
  | check {a : SockAct} {sock : ODSocket} (hbusy : t.sock.pc ≠ .idle) (ha : a.ofSender = false)
      (h : t.sock.step win32 a = some sock) :
      Step win32 sizeofPtr t (.check a) ⟨sock, if sock.pc = .idle then .head else t.pc⟩
  | gaveUp {off len : Nat} (h : request sizeofPtr t.pc = some (off, len)) :
      Step win32 sizeofPtr t (.recv none) ⟨t.sock, SurvivalGame.gaveUp t.pc⟩
  | received {off len : Nat} {bs : List CChar} (h : request sizeofPtr t.pc = some (off, len))
      (hlen : bs.length ≤ len) :
      Step win32 sizeofPtr t (.recv (some bs)) ⟨t.sock, (SurvivalGame.received bs t.pc).1⟩

theorem step_cases {win32 : Bool} {sizeofPtr : Nat} {t t' : RecvThread} {a : RecvThreadAct}
    (h : t.step win32 sizeofPtr a = some t') : Step win32 sizeofPtr t a t' := by
  match a with
  | .call =>
    rw [step] at h
    split at h
    · rename_i hidle
      obtain ⟨sock, hsock, rfl⟩ := Option.map_eq_some_iff.mp h
      exact .call hidle.1 hidle.2 hsock
    · cases h
  | .check a =>
    rw [step] at h
    split at h
    · cases h
    · rename_i hbusy
      rw [not_or, Bool.not_eq_true] at hbusy
      obtain ⟨sock, hsock, rfl⟩ := Option.map_eq_some_iff.mp h
      exact .check hbusy.1 hbusy.2 hsock
  | .recv answer =>
    cases hreq : request sizeofPtr t.pc with
    | none => simp only [step, hreq] at h; cases h
    | some req =>
      match answer with
      | none => simp only [step, hreq] at h; cases h; exact .gaveUp hreq
      | some bs =>
        simp only [step, hreq] at h
        split at h
        · cases h; exact .received hreq ‹_›
        · cases h

/-- The thread is inside a call of `recvFunc`. -/
def InCall (t : RecvThread) : Prop := t.sock.pc ≠ .idle ∨ (t.pc ≠ .idle ∧ t.pc ≠ .fault)

instance (t : RecvThread) : Decidable t.InCall := inferInstanceAs (Decidable (_ ∨ _))

/-- `recvFunc` has returned. -/
def Returned (t : RecvThread) : Prop := t.sock.pc = .idle ∧ t.pc = .idle

instance (t : RecvThread) : Decidable t.Returned := inferInstanceAs (Decidable (_ ∧ _))

/-- No byte has come in yet in this call: it is in `tcpCheck` or in its first
`Recv`. -/
def NothingRead (t : RecvThread) : Prop := t.sock.pc ≠ .idle ∨ t.pc = .head

instance (t : RecvThread) : Decidable t.NothingRead := inferInstanceAs (Decidable (_ ∨ _))

end RecvThread

/-! ## A dead connection -/

/-- What the operating system answers to every `recv` from some point on: 0, or
-1 with an error that `hasError` calls hard. -/
inductive Dead (win32 : Bool)
  | closed
  | error (errno : Errno) (hard : hasError win32 errno = true)

namespace Dead
variable {win32 : Bool}

/-- The answer to the peek in `Check`. -/
def peek : Dead win32 → PeekAnswer
  | .closed => .closed
  | .error errno _ => .error errno

/-- The answer to a `Recv`. -/
def recv : Dead win32 → Option (List CChar)
  | .closed => some []
  | .error .. => none

/-- A step in which nothing is answered otherwise. -/
def Answers (d : Dead win32) (_ : RecvThread) : RecvThreadAct → Prop
  | .check (.peek answer) => answer = d.peek
  | .recv answer => answer = d.recv
  | _ => True

/-- The -1 with a hard error. -/
def IsError : Dead win32 → Prop
  | .closed => False
  | .error .. => True

end Dead

/-! ## Where a call can be -/

/-- A loop of `recvFunc` is entered, and gone on with, only while bytes are
missing. -/
def BytesMissing : RecvPc → Prop
  | .headLoop _ recvLen => recvLen < 10
  | .body _ msgLen _ readSize => readSize < msgLen
  | _ => True

theorem bytesMissing_decode (recvHeadBuf : List CChar) : BytesMissing (decode recvHeadBuf) := by
  rw [decode]
  split
  · split
    · trivial
    · split
      · rename_i hpos
        show 0 < (protocol recvHeadBuf).toInt.toNat
        omega
      · trivial
  · trivial

theorem BytesMissing.received {sizeofPtr off len : Nat} {bs : List CChar} {pc : RecvPc}
    (h : BytesMissing pc) (hreq : request sizeofPtr pc = some (off, len)) (hlen : bs.length ≤ len) :
    BytesMissing (SurvivalGame.received bs pc).1 := by
  cases pc with
  | idle => cases hreq
  | fault => cases hreq
  | head =>
    rw [SurvivalGame.received]
    split
    · assumption
    · exact bytesMissing_decode _
  | headLoop buf recvLen =>
    rw [SurvivalGame.received]
    split
    · assumption
    · exact bytesMissing_decode _
  | body msgId msgLen buf readSize =>
    have hlt : readSize < msgLen := h
    have hlen : bs.length ≤ msgLen - readSize := by cases hreq; exact hlen
    rw [SurvivalGame.received]
    split
    · trivial
    · show readSize + bs.length < msgLen
      omega

theorem BytesMissing.gaveUp {pc : RecvPc} (h : BytesMissing pc) :
    BytesMissing (SurvivalGame.gaveUp pc) := by
  cases pc with
  | head => trivial
  | _ => exact h

namespace RecvThread
variable {win32 : Bool} {sizeofPtr : Nat} {t t' : RecvThread} {a : RecvThreadAct}

/-- The thread is in `tcpCheck` or behind it, and in a loop only while bytes are
missing. -/
structure Sane (t : RecvThread) : Prop where
  place : t.sock.pc = .idle ∨ t.pc = .idle
  missing : BytesMissing t.pc

theorem sane_idle (sock : ODSocket) : Sane ⟨sock, .idle⟩ := ⟨Or.inr rfl, trivial⟩

theorem sane_checked {sock sock' : ODSocket} {pc : RecvPc} (h : Sane ⟨sock, pc⟩)
    (hbusy : sock.pc ≠ .idle) : Sane ⟨sock', if sock'.pc = .idle then .head else pc⟩ := by
  obtain rfl : pc = .idle := h.place.resolve_left hbusy
  by_cases hidle : sock'.pc = .idle
  · rw [if_pos hidle]; exact ⟨Or.inl hidle, trivial⟩
  · rw [if_neg hidle]; exact sane_idle sock'

/-- A thread with a `Recv` pending is behind `tcpCheck`. -/
theorem Sane.sock_idle {off len : Nat} (h : t.Sane)
    (hreq : request sizeofPtr t.pc = some (off, len)) : t.sock.pc = .idle := by
  refine h.place.resolve_right fun hidle => ?_
  rw [hidle] at hreq
  cases hreq

theorem Sane.step (h : t.Sane) (hstep : t.step win32 sizeofPtr a = some t') : t'.Sane := by
  cases step_cases hstep with
  | call => exact sane_idle _
  | check hbusy => exact sane_checked h hbusy
  | gaveUp hreq => exact ⟨Or.inl (h.sock_idle hreq), h.missing.gaveUp⟩
  | received hreq hlen => exact ⟨Or.inl (h.sock_idle hreq), h.missing.received hreq hlen⟩

/-! ## Returning -/

end RecvThread

/-- How many steps `tcpCheck` has still to make, at most. -/
def SockPc.stepsLeft : SockPc → Nat
  | .idle => 0
  | .closeFailed => 1
  | .setNonBlocking => 2
  | .connect => 3
  | .create => 4
  | .init => 5
  | .close => 6
  | .peek => 7

theorem ODSocket.stepsLeft_step {win32 : Bool} {s s' : ODSocket} {a : SockAct}
    (hstep : s.step win32 a = some s') (hbusy : s.pc ≠ .idle) (ha : a.ofSender = false) :
    s'.pc.stepsLeft < s.pc.stepsLeft := by
  cases step_cases hstep with
  | tcpStart hpc | tcpCheck hpc | recv hpc => exact absurd hpc hbusy
  | send => cases ha
  | peekClosed hpc | peekAlive hpc | peekError hpc | close hpc | init hpc | socketFailed hpc
  | socket hpc | connect hpc | setNonBlocking hpc | setNonBlockingFailed hpc | closeFailed hpc =>
    simp [hpc, SockPc.stepsLeft]

/-- Whatever the error, `tcpCheck` can go on with a failure. -/
theorem ODSocket.exists_step (win32 : Bool) {s : ODSocket} (errno : Errno)
    (hbusy : s.pc ≠ .idle) : ∃ a s', a.ofSender = false ∧
      (∀ answer, a = .peek answer → answer = .error errno) ∧ s.step win32 a = some s' := by
  have hcall (s : ODSocket) : s.callOn false = some { s with fds := s.fds.use s.sock } := rfl
  cases hpc : s.pc with
  | idle => exact absurd hpc hbusy
  | peek => exact ⟨.peek (.error errno), _, rfl, fun _ h => (SockAct.peek.inj h).symm,
      by unfold step; rw [hpc]; simp only [hcall]; rfl⟩
  | close => exact ⟨.close, _, rfl, nofun, by unfold step; rw [hpc]⟩
  | init => exact ⟨.init false, _, rfl, nofun, by unfold step; rw [hpc]⟩
  | create => exact ⟨.socket none, _, rfl, nofun, by unfold step; rw [hpc]⟩
  | connect => exact ⟨.connect false, _, rfl, nofun,
      by unfold step; rw [hpc]; simp only [hcall]; rfl⟩
  | setNonBlocking => exact ⟨.setNonBlocking false, _, rfl, nofun,
      by unfold step; rw [hpc]; simp only [hcall]; rfl⟩
  | closeFailed => exact ⟨.close, _, rfl, nofun, by unfold step; rw [hpc]⟩

/-- In one of the two loops. -/
def InLoop : RecvPc → Prop
  | .headLoop .. | .body .. => True
  | _ => False

theorem InLoop.gaveUp {pc : RecvPc} (h : InLoop pc) : SurvivalGame.gaveUp pc = pc := by
  cases pc with
  | head => cases h
  | _ => rfl

/-- An answer of 0 bytes leads into a loop and out of none. -/
theorem inLoop_received_nil {pc : RecvPc} (h : BytesMissing pc) (hidle : pc ≠ .idle)
    (hfault : pc ≠ .fault) : InLoop (received [] pc).1 := by
  cases pc with
  | idle => exact absurd rfl hidle
  | fault => exact absurd rfl hfault
  | head => trivial
  | headLoop buf recvLen =>
    have hlt : recvLen + ([] : List CChar).length < 10 := h
    rw [received, if_pos hlt]
    trivial
  | body msgId msgLen buf readSize =>
    have hne : readSize + ([] : List CChar).length ≠ msgLen := Nat.ne_of_lt h
    rw [received, if_neg hne]
    trivial

namespace RecvThread
variable {win32 : Bool} {sizeofPtr : Nat} {t t' : RecvThread} {a : RecvThreadAct}

theorem inCall_of_inLoop {sock : ODSocket} {pc : RecvPc} (h : InLoop pc) :
    InCall ⟨sock, pc⟩ := by
  refine Or.inr ⟨?_, ?_⟩ <;> rintro rfl <;> exact h

theorem InCall.not_returned (h : t.InCall) : ¬ t.Returned := by
  rintro ⟨hsock, hpc⟩
  exact h.elim (absurd hsock) fun hbusy => hbusy.1 hpc

/-- After 0 the call goes on. -/
theorem closed_step (hs : t.Sane) (hcall : t.InCall) (hans : (.closed : Dead win32).Answers t a)
    (hstep : t.step win32 sizeofPtr a = some t') : t'.InCall := by
  cases step_cases hstep with
  | call hpc hidle =>
    rcases hcall with hbusy | ⟨hbusy, -⟩
    · exact absurd hidle hbusy
    · exact absurd hpc hbusy
  | @check a sock hbusy =>
    by_cases hidle : sock.pc = .idle
    · rw [if_pos hidle]; exact Or.inr ⟨nofun, nofun⟩
    · exact Or.inl hidle
  | gaveUp => cases hans
  | received hreq =>
    cases hans
    obtain ⟨hidle, hfault⟩ := hcall.resolve_left (absurd (hs.sock_idle hreq))
    exact inCall_of_inLoop (inLoop_received_nil hs.missing hidle hfault)

/-- After -1 a loop goes on, whatever the error. -/
theorem error_step {errno : Errno} {hard : hasError win32 errno = true} (hs : t.Sane)
    (hloop : InLoop t.pc) (hans : Dead.Answers (.error errno hard) t a)
    (hstep : t.step win32 sizeofPtr a = some t') : InLoop t'.pc := by
  have hne : t.pc ≠ .idle := by
    intro hidle
    rw [hidle] at hloop
    exact hloop
  cases step_cases hstep with
  | call hpc => exact absurd hpc hne
  | check hbusy => exact absurd (hs.place.resolve_right hne) hbusy
  | gaveUp => exact hloop.gaveUp.symm ▸ hloop
  | received => cases hans

/-- What is left to do until the first `Recv` has been answered. -/
def stepsLeft (t : RecvThread) : Nat :=
  2 * t.sock.pc.stepsLeft + if t.pc = .head then 1 else 0

theorem nothingRead_step {errno : Errno} {hard : hasError win32 errno = true} (hs : t.Sane)
    (hnr : t.NothingRead) (hans : Dead.Answers (.error errno hard) t a)
    (hstep : t.step win32 sizeofPtr a = some t') :
    t'.stepsLeft < t.stepsLeft ∧ (t'.Returned ∨ t'.NothingRead) := by
  cases step_cases hstep with
  | call hpc hidle =>
    rcases hnr with hbusy | hhead
    · exact absurd hidle hbusy
    · rw [hpc] at hhead; cases hhead
  | @check a sock hbusy ha hsock =>
    have hlt := ODSocket.stepsLeft_step hsock hbusy ha
    have hpc : t.pc = .idle := hs.place.resolve_left hbusy
    unfold stepsLeft
    rw [hpc]
    by_cases hidle : sock.pc = .idle
    · rw [if_pos hidle]
      exact ⟨by simp; omega, Or.inr (Or.inr rfl)⟩
    · rw [if_neg hidle]
      exact ⟨by simp; omega, Or.inr (Or.inl hidle)⟩
  | gaveUp hreq =>
    have hidle := hs.sock_idle hreq
    have hhead : t.pc = .head := hnr.resolve_left (absurd hidle)
    unfold stepsLeft
    rw [hhead]
    exact ⟨by simp [SurvivalGame.gaveUp], Or.inl ⟨hidle, rfl⟩⟩
  | received => cases hans

/-- The error finds a step to answer. -/
theorem nothingRead_exists {errno : Errno} (hard : hasError win32 errno = true)
    (hnr : t.NothingRead) : ∃ a t', Dead.Answers (.error errno hard) t a ∧
      t.step win32 sizeofPtr a = some t' := by
  by_cases hidle : t.sock.pc = .idle
  · have hhead : t.pc = .head := hnr.resolve_left (absurd hidle)
    exact ⟨.recv none, ⟨t.sock, .idle⟩, rfl, by simp [step, hhead, request, SurvivalGame.gaveUp]⟩
  · obtain ⟨a, sock, ha, hpeek, hsock⟩ := ODSocket.exists_step win32 errno hidle
    refine ⟨.check a, ⟨sock, if sock.pc = .idle then .head else t.pc⟩, ?_, ?_⟩
    · cases a with
      | peek answer => exact hpeek answer rfl
      | _ => trivial
    · rw [step, if_neg (by simp [hidle, ha]), hsock]; rfl

/-- **When a call returns from a dead connection**, at any point of any stream and
fragmentation: exactly when the connection died of an error, and no byte of the
call had come in. -/
theorem returns_iff_nothing_read {sock : ODSocket} {acts : List RecvThreadAct}
    (h : run (step win32 sizeofPtr) ⟨sock, .idle⟩ acts = some t) (hcall : t.InCall)
    (d : Dead win32) :
    Inevitable (step win32 sizeofPtr) d.Answers Returned t ↔ d.IsError ∧ t.NothingRead := by
  have hs : t.Sane := run_invariant (fun _ _ _ hs => hs.step) h (sane_idle sock)
  constructor
  · intro hinev
    cases d with
    | closed =>
      refine absurd hinev (Inevitable.not_of_closed (I := fun t => t.Sane ∧ t.InCall)
        (fun _ ht => ht.2.not_returned) (fun t a t' ht hans hstep => ?_) ⟨hs, hcall⟩)
      exact ⟨ht.1.step hstep, closed_step ht.1 ht.2 hans hstep⟩
    | error errno hard =>
      refine ⟨trivial, ?_⟩
      by_contra hread
      obtain ⟨hidle, hhead⟩ := not_or.mp hread
      -- behind `tcpCheck` and not in the first `Recv`: in one of the loops
      have hloop : InLoop t.pc := by
        obtain ⟨hpc, hfault⟩ := hcall.resolve_left hidle
        cases hcase : t.pc with
        | idle => exact hpc hcase
        | head => exact hhead hcase
        | fault => exact hfault hcase
        | headLoop | body => trivial
      refine absurd hinev (Inevitable.not_of_closed (I := fun t => t.Sane ∧ InLoop t.pc)
        (fun _ ht => (inCall_of_inLoop ht.2).not_returned)
        (fun t a t' ht hans hstep => ?_) ⟨hs, hloop⟩)
      exact ⟨ht.1.step hstep, error_step ht.1 ht.2 hans hstep⟩
  · rintro ⟨herr, hnr⟩
    cases d with
    | closed => cases herr
    | error errno hard =>
      refine Inevitable.of_measure (I := fun t => t.Sane ∧ t.NothingRead) stepsLeft
        (fun t ht _ => nothingRead_exists hard ht.2) (fun t a t' ht _ hans hstep => ?_) ⟨hs, hnr⟩
      obtain ⟨hlt, hnext⟩ := nothingRead_step ht.1 ht.2 hans hstep
      exact ⟨hlt, hnext.imp_right fun hnr => ⟨ht.1.step hstep, hnr⟩⟩

/-- A socket with an open connection. -/
def connectedSocket : ODSocket := ⟨some 3, .idle, true, Descriptors.empty.create 3, 0⟩

/-- The peek of `Check` finds a reset connection: the call reconnects in vain and
returns. -/
theorem returns_iff_nothing_read_reset :
    Inevitable (step false 8) (.error .other rfl : Dead false).Answers Returned
      ⟨{ connectedSocket with pc := .peek }, .idle⟩ :=
  have hrun : run (step false 8) ⟨connectedSocket, .idle⟩ [.call] =
      some ⟨{ connectedSocket with pc := .peek }, .idle⟩ := by decide
  (returns_iff_nothing_read hrun (by decide) (.error .other rfl)).mpr ⟨trivial, by decide⟩

/-- Three bytes of a header, and then nothing. -/
def cutHeader : RecvThread :=
  ⟨connectedSocket, .headLoop [12, 0, 7, 0, 0, 0, 0, 0, 0, 0] 3⟩

/-- The peer closes behind the third byte of a header: the call never returns. -/
theorem recvFunc_hangs : ¬ ∀ (win32 : Bool) (sizeofPtr : Nat) (sock : ODSocket)
    (acts : List RecvThreadAct) (t : RecvThread) (d : Dead win32),
    run (step win32 sizeofPtr) ⟨sock, .idle⟩ acts = some t → t.InCall →
      Inevitable (step win32 sizeofPtr) d.Answers Returned t := by
  intro h
  have hrun : run (step false 8) ⟨connectedSocket, .idle⟩
      [.call, .check (.peek .data), .recv (some [12, 0, 7])] = some cutHeader := by decide
  refine Inevitable.not_of_closed (I := fun t => t.Sane ∧ t.InCall)
    (fun _ ht => ht.2.not_returned) ?_ ?_ (h false 8 _ _ _ .closed hrun (by decide))
  · rintro t a t' ⟨hs, hcall⟩ hans hstep
    exact ⟨hs.step hstep, closed_step hs hcall hans hstep⟩
  · exact ⟨run_invariant (fun _ _ _ hs => hs.step) hrun (sane_idle _), by decide⟩

end RecvThread
end SurvivalGame
