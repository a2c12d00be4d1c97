import SurvivalGame.Send
import SurvivalGame.LoopThread

/-! # Starting and stopping: `tcp_start`, `tcp_stop`, `th_send`, `th_recv`

`tcp_start` sets `m_isRuning`, connects and starts two detached threads;
`tcp_stop` clears the flag.  Nobody keeps count of the threads or waits for them,
and a thread reads the flag only at the head of its loop, so a thread that sleeps
through a stop and a start never learns of it.

If every `tcp_start` finds the threads of the earlier ones at their end, there is
at most one sender and at most one receiver at every moment, and the pocket that
`getSize` has seen is still there when `PullPocket` is called (`one_of_each`).
Otherwise there are two (`two_senders`), and one of them can pull a null pocket.
-/
namespace SurvivalGame
open Transition

/-- Where the main thread stands in `tcp_start`. -/
inductive MainPc
  | idle
  /-- In `m_socket.Connect`. -/
  | connecting
  /-- Before `std::thread tRecv`. -/
  | spawnRecv
  /-- Before `std::thread tSend`. -/
  | spawnSend
deriving DecidableEq

/-- A client with the threads it has started.  Of `recvFunc` nothing matters here
but that it returns: it touches neither the flag nor the send queue. -/
structure TcpClient where
  isRuning : Bool
  mainPc : MainPc
  sendQueue : Queue
  senders : List (LoopThread SendPc)
  receivers : List (LoopThread Unit)
deriving DecidableEq

/-- A step of the main thread, or of the `i`-th sender or receiver. -/
inductive ThreadAct
  | tcpStart
  | connected
  | spawn
  | tcpStop
  | pushSendQueue (msg : List CChar) (msgid : CUInt)
  | testSend (i : Nat)
  | sendFunc (i : Nat) (a : SendAct)
  | wakeSend (i : Nat)
  | testRecv (i : Nat)
  | recvFunc (i : Nat)
  | wakeRecv (i : Nat)
deriving DecidableEq

/-- The senders that a running `tcp_start` has still to start. -/
def MainPc.sendersToStart : MainPc → Nat
  | .idle => 0
  | .connecting | .spawnRecv | .spawnSend => 1

/-- The receivers that it has still to start. -/
def MainPc.receiversToStart : MainPc → Nat
  | .idle | .spawnSend => 0
  | .connecting | .spawnRecv => 1

/-- `recvFunc` returns and the thread goes to sleep. -/
def recvReturns : LoopThread Unit → Option (LoopThread Unit)
  | .body _ => some .sleeping
  | _ => none

/-- The place of a sender after a step of `sendFunc`: when the call has returned,
the thread goes to sleep. -/
def afterSend (pc : SendPc) : LoopThread SendPc := if pc = .idle then .sleeping else .body pc

namespace TcpClient

/-- `TcpClient()`. -/
def init : TcpClient := ⟨false, .idle, .empty, [], []⟩

/-- One step of one thread. -/
def step (c : TcpClient) : ThreadAct → Option TcpClient
  | .tcpStart =>
    if c.mainPc = .idle then some { c with isRuning := true, mainPc := .connecting } else none
  | .connected => if c.mainPc = .connecting then some { c with mainPc := .spawnRecv } else none
  | .spawn =>
    match c.mainPc with
    -- the receiver is started first
    | .spawnRecv => some { c with receivers := c.receivers ++ [.head], mainPc := .spawnSend }
    | .spawnSend => some { c with senders := c.senders ++ [.head], mainPc := .idle }
    | .idle | .connecting => none
  | .tcpStop => if c.mainPc = .idle then some { c with isRuning := false } else none
  | .pushSendQueue msg msgid =>
    some { c with sendQueue := c.sendQueue.pushPocket (makePocket msg msgid) }
  | .testSend i => (LoopThread.stepAt (LoopThread.test c.isRuning .idle) i c.senders).map ({ c with senders := · })
  | .sendFunc i a =>
    match c.senders[i]? with
    | some (.body pc) =>
      (SurvivalGame.sendFunc c.sendQueue pc a).map fun (q, pc, _) =>
        { c with sendQueue := q, senders := c.senders.set i (afterSend pc) }
    | _ => none
  | .wakeSend i => (LoopThread.stepAt LoopThread.wake i c.senders).map ({ c with senders := · })
  | .testRecv i => (LoopThread.stepAt (LoopThread.test c.isRuning ()) i c.receivers).map ({ c with receivers := · })
  | .recvFunc i => (LoopThread.stepAt recvReturns i c.receivers).map ({ c with receivers := · })
  | .wakeRecv i => (LoopThread.stepAt LoopThread.wake i c.receivers).map ({ c with receivers := · })

/-- Every thread that `tcp_start` finds has ended. -/
def CleanStart (c : TcpClient) : ThreadAct → Prop
  | .tcpStart => (∀ t ∈ c.senders, t = .ended) ∧ ∀ t ∈ c.receivers, t = .ended
  | _ => True

/-- At most one thread of each kind lives or is about to be started, and a sender
that has seen a pocket will find it. -/
structure OneOfEach (c : TcpClient) : Prop where
  senders : LoopThread.liveCount c.senders + c.mainPc.sendersToStart ≤ 1
  receivers : LoopThread.liveCount c.receivers + c.mainPc.receiversToStart ≤ 1
  tested : LoopThread.body .tested ∈ c.senders → c.sendQueue.pks ≠ []

theorem oneOfEach_init : OneOfEach init := ⟨Nat.zero_le 1, Nat.zero_le 1, fun h => by cases h⟩

/-- A step of the only sender. -/
theorem OneOfEach.sender {c : TcpClient} (h : OneOfEach c) {i : Nat} {t t' : LoopThread SendPc}
    {q : Queue} (ht : c.senders[i]? = some t) (hlive : t.live = true)
    (htested : t' = .body .tested → q.pks ≠ []) :
    OneOfEach { c with sendQueue := q, senders := c.senders.set i t' } := by
  have hone := h.senders
  have hle := LoopThread.liveCount_set_le t' ht hlive
  exact ⟨by dsimp only; omega, h.receivers, fun hmem => htested
    (LoopThread.mem_set_of_liveCount_le_one (by omega) ht hlive hmem rfl).symm⟩

/-- A step of the only receiver. -/
theorem OneOfEach.receiver {c : TcpClient} (h : OneOfEach c)
    {f : LoopThread Unit → Option (LoopThread Unit)} {i : Nat} {ts : List (LoopThread Unit)}
    (hf : ∀ {t t'}, f t = some t' → t.live = true)
    (hs : LoopThread.stepAt f i c.receivers = some ts) : OneOfEach { c with receivers := ts } := by
  obtain ⟨t, t', ht, hstep, rfl⟩ := LoopThread.stepAt_eq_some hs
  have hone := h.receivers
  have hle := LoopThread.liveCount_set_le t' ht (hf hstep)
  exact ⟨h.senders, by dsimp only; omega, h.tested⟩

theorem live_of_recvReturns {t t' : LoopThread Unit} (h : recvReturns t = some t') :
    t.live = true := by
  cases t with
  | body => rfl
  | _ => cases h

/-- The sender stands before its pull only if the queue had a pocket. -/
theorem ne_nil_of_afterSend {q q' : Queue} {pc pc' : SendPc} {a : SendAct} {bs : List CChar}
    (hs : SurvivalGame.sendFunc q pc a = some (q', pc', bs))
    (h : afterSend pc' = .body .tested) : q'.pks ≠ [] := by
  unfold afterSend at h
  split at h
  · cases h
  · have hpc := LoopThread.body.inj h
    cases sendFunc_step hs with
    | getSize =>
      split at hpc
      · exact Queue.ne_nil_of_getSize_pos ‹_›
      · cases hpc
    | pull =>
      rw [startSend] at hpc
      split at hpc
      · split at hpc <;> cases hpc
      · cases hpc
    | _ => cases hpc

/-- The threads found are at their end, so the two to be started will be the only
ones. -/
theorem OneOfEach.tcpStart {c c' : TcpClient} (h : OneOfEach c) (hclean : c.CleanStart .tcpStart)
    (hs : c.step .tcpStart = some c') : OneOfEach c' := by
  obtain ⟨hsend, hrecv⟩ := hclean
  rw [step] at hs
  split at hs
  · cases hs
    refine ⟨?_, ?_, h.tested⟩
    · rw [LoopThread.liveCount_eq_zero_iff.mpr hsend]
      exact Nat.le_refl 1
    · rw [LoopThread.liveCount_eq_zero_iff.mpr hrecv]
      exact Nat.le_refl 1
  · cases hs

/-- A thread that is started was to be started. -/
theorem OneOfEach.spawn {c c' : TcpClient} (h : OneOfEach c) (hs : c.step .spawn = some c') :
    OneOfEach c' := by
  have hsend := h.senders
  have hrecv := h.receivers
  rw [step] at hs
  split at hs
  · rename_i hpc
    cases hs
    rw [hpc] at hsend hrecv
    refine ⟨hsend, ?_, h.tested⟩
    rw [LoopThread.liveCount_spawn]
    exact hrecv
  · rename_i hpc
    cases hs
    rw [hpc] at hsend hrecv
    refine ⟨?_, hrecv, ?_⟩
    · rw [LoopThread.liveCount_spawn]
      exact hsend
    · intro hmem
      rcases List.mem_append.mp hmem with hmem | hmem
      · exact h.tested hmem
      · cases List.mem_singleton.mp hmem
  · cases hs
  · cases hs

theorem oneOfEach_step {c c' : TcpClient} {a : ThreadAct} (h : OneOfEach c) (hclean : c.CleanStart a)
    (hs : c.step a = some c') : OneOfEach c' := by
  cases a with
  | tcpStart => exact h.tcpStart hclean hs
  | connected =>
    rw [step] at hs
    split at hs
    · rename_i hpc
      cases hs
      have hsend := h.senders
      have hrecv := h.receivers
      rw [hpc] at hsend hrecv
      exact ⟨hsend, hrecv, h.tested⟩
    · cases hs
  | spawn => exact h.spawn hs
  | tcpStop =>
    rw [step] at hs
    split at hs
    · cases hs; exact ⟨h.senders, h.receivers, h.tested⟩
    · cases hs
  | pushSendQueue msg msgid =>
    cases hs
    exact ⟨h.senders, h.receivers, fun _ => by simp⟩
  | testSend i =>
    -- the new call has not seen the queue yet
    obtain ⟨ts, hts, rfl⟩ := Option.map_eq_some_iff.mp hs
    obtain ⟨t, t', ht, hstep, rfl⟩ := LoopThread.stepAt_eq_some hts
    refine h.sender ht (LoopThread.live_of_test hstep) fun heq => ?_
    cases LoopThread.eq_start_of_test (heq ▸ hstep)
  | sendFunc i a =>
    rw [step] at hs
    split at hs
    · rename_i pc ht
      obtain ⟨⟨q, pc', bs⟩, hsend, rfl⟩ := Option.map_eq_some_iff.mp hs
      exact h.sender ht rfl fun heq => ne_nil_of_afterSend hsend heq
    · cases hs
  | wakeSend i =>
    obtain ⟨ts, hts, rfl⟩ := Option.map_eq_some_iff.mp hs
    obtain ⟨t, t', ht, hstep, rfl⟩ := LoopThread.stepAt_eq_some hts
    refine h.sender ht (LoopThread.live_of_wake hstep) fun heq => ?_
    cases heq.symm.trans (LoopThread.eq_head_of_wake hstep)
  | testRecv i =>
    obtain ⟨ts, hts, rfl⟩ := Option.map_eq_some_iff.mp hs
    exact h.receiver LoopThread.live_of_test hts
  | recvFunc i =>
    obtain ⟨ts, hts, rfl⟩ := Option.map_eq_some_iff.mp hs
    exact h.receiver live_of_recvReturns hts
  | wakeRecv i =>
    obtain ⟨ts, hts, rfl⟩ := Option.map_eq_some_iff.mp hs
    exact h.receiver LoopThread.live_of_wake hts

/-- **At most one sender and one receiver.**  In every run in which each
`tcp_start` finds the threads of the earlier ones at their end, there is at every
moment at most one live `th_send` loop and at most one live `th_recv` loop, and
no sender that has passed the size test can pull a null pocket. -/
theorem one_of_each {acts : List ThreadAct} {c : TcpClient} (hrun : run step init acts = some c)
    (hclean : Along step CleanStart init acts) :
    LoopThread.liveCount c.senders ≤ 1 ∧ LoopThread.liveCount c.receivers ≤ 1 ∧
      (LoopThread.body .tested ∈ c.senders → c.sendQueue.pullPocket.1 ≠ none) := by
  have h := hclean.invariant (I := OneOfEach) (fun _ _ _ => oneOfEach_step) hrun oneOfEach_init
  refine ⟨Nat.le_of_add_right_le h.senders, Nat.le_of_add_right_le h.receivers, fun hmem => ?_⟩
  obtain ⟨pk, pks, hpks⟩ := List.exists_cons_of_ne_nil (h.tested hmem)
  rw [Queue.pullPocket_of_cons hpks]
  exact Option.some_ne_none pk

instance (c : TcpClient) : ∀ a, Decidable (c.CleanStart a)
  | .tcpStart =>
    inferInstanceAs (Decidable ((∀ t ∈ c.senders, t = .ended) ∧ ∀ t ∈ c.receivers, t = .ended))
  | .connected | .spawn | .tcpStop | .pushSendQueue .. | .testSend _ | .sendFunc .. | .wakeSend _
  | .testRecv _ | .recvFunc _ | .wakeRecv _ => inferInstanceAs (Decidable True)

/-- Started, and both threads through one round of their loops. -/
def firstRound : List ThreadAct :=
  [.tcpStart, .connected, .spawn, .spawn, .testSend 0, .testRecv 0, .sendFunc 0 .getSize,
    .recvFunc 0]

/-- Stopped; both threads see it and end; started again. -/
theorem one_of_each_restart : ∃ c : TcpClient,
    run step init (firstRound ++ [.tcpStop, .wakeSend 0, .wakeRecv 0, .testSend 0, .testRecv 0,
      .tcpStart, .connected, .spawn, .spawn, .pushSendQueue [97] 1001, .testSend 1,
      .sendFunc 1 .getSize]) = some c ∧
    c.senders = [.ended, .body .tested] ∧
    (LoopThread.liveCount c.senders ≤ 1 ∧ LoopThread.liveCount c.receivers ≤ 1 ∧
      (LoopThread.body .tested ∈ c.senders → c.sendQueue.pullPocket.1 ≠ none)) :=
  ⟨_, rfl, rfl, one_of_each (show run step init (firstRound ++ [.tcpStop, .wakeSend 0, .wakeRecv 0,
    .testSend 0, .testRecv 0, .tcpStart, .connected, .spawn, .spawn, .pushSendQueue [97] 1001,
    .testSend 1, .sendFunc 1 .getSize]) = some _ from rfl) (by decide)⟩

/-- Stopped and started again while the first threads sleep: they see the flag set
and go on.  Two senders then see the same pocket, and one of them pulls null. -/
theorem two_senders : ∃ c : TcpClient,
    run step init (firstRound ++ [.tcpStop, .tcpStart, .connected, .spawn, .spawn, .wakeSend 0,
      .pushSendQueue [97] 1001, .testSend 0, .testSend 1, .sendFunc 0 .getSize,
      .sendFunc 1 .getSize, .sendFunc 0 .pullPocket]) = some c ∧
    LoopThread.liveCount c.senders = 2 ∧ LoopThread.liveCount c.receivers = 2 ∧
    LoopThread.body .tested ∈ c.senders ∧ c.sendQueue.pullPocket.1 = none :=
  ⟨_, rfl, rfl, rfl, by decide, rfl⟩

end TcpClient

end SurvivalGame
