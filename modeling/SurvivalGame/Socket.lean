import SurvivalGame.Descriptors
import SurvivalGame.Transition

/-! # The socket: `ODSocket` under `TcpClient::tcp_start` and `TcpClient::tcpCheck`

`Check` looks at the connection with a peek and `Connect` makes a new one.
`tcpCheck` calls the second when the first finds the connection gone, and
`tcp_start` calls it at once.  `SockPc` is where the thread stands in such a
call; each step is one call into the operating system.

`Connect` overwrites `m_sock` with whatever `socket` returns, so somebody has to
close the old descriptor first.  `Check` does so when the peer has closed, but on
a hard error it only calls `Clean`, which is `WSACleanup` on Windows and nothing
elsewhere.  `WSACleanup` closes all sockets of the process when it matches the
first `WSAStartup`.  With that, and apart from the other cases that `Careful`
names, what is open is at the end of every operation what `m_sock` holds
(`typestate`).
-/
namespace SurvivalGame
open Transition

/-- The error codes that `hasError` tells apart: `EAGAIN` or `WSAEWOULDBLOCK`,
`EINPROGRESS` or `WSAEINPROGRESS`, and all others. -/
inductive Errno
  | wouldBlock
  | inProgress
  | other
deriving DecidableEq

/-- `ODSocket::hasError`. -/
def hasError (win32 : Bool) (errno : Errno) : Bool :=
  if win32 then errno != .wouldBlock else errno != .inProgress && errno != .wouldBlock

/-- What `recv(m_sock, buf, 1, MSG_PEEK)` answers: 0, a byte, or -1. -/
inductive PeekAnswer
  | closed
  | data
  | error (errno : Errno)
deriving DecidableEq

/-- Where the thread stands in `tcp_start` or `tcpCheck`. -/
inductive SockPc
  /-- Outside both. -/
  | idle
  /-- In `Check`, before the peek. -/
  | peek
  /-- In `Check`, before `Close`. -/
  | close
  /-- In `Connect`, before `Init`. -/
  | init
  /-- In `Connect`, before `socket`. -/
  | create
  /-- In `Connect`, before `connect`. -/
  | connect
  /-- In `Connect`, before the call that makes the socket non-blocking. -/
  | setNonBlocking
  /-- In `Connect`, before the `Close` after a failed `ioctlsocket`. -/
  | closeFailed
deriving DecidableEq

/-- A call of one of the two operations, or a call into the operating system
with its answer; `send` and `recv` are those of `ODSocket::Send` and `Recv`. -/
inductive SockAct
  | tcpStart
  | tcpCheck
  | peek (answer : PeekAnswer)
  | close
  | init (ok : Bool)
  | socket (sock : Option Nat)
  | connect (ok : Bool)
  | setNonBlocking (ok : Bool)
  | send (ok : Bool)
  | recv (ok : Bool)
deriving DecidableEq

/-- The socket of a client: `m_sock`, with `none` for `INVALID_SOCKET`, whether
that descriptor has been connected, the descriptors it has open, and the number
of `WSAStartup` calls not yet matched. -/
structure ODSocket where
  sock : Option Nat
  pc : SockPc
  connected : Bool
  fds : Descriptors
  wsaCount : Nat
deriving DecidableEq

namespace ODSocket

/-- `ODSocket()`, in a process with `wsaCount` other `WSAStartup` calls. -/
def init (wsaCount : Nat) : ODSocket := ⟨none, .idle, false, .empty, wsaCount⟩

/-- `ODSocket::Init`. -/
def callInit (win32 ok : Bool) (s : ODSocket) : ODSocket :=
  if win32 && ok then { s with wsaCount := s.wsaCount + 1 } else s

/-- `ODSocket::Clean`: the last `WSACleanup` closes what is still open. -/
def callClean (win32 : Bool) (s : ODSocket) : ODSocket :=
  if win32 then
    if s.wsaCount = 1 then { s with wsaCount := 0, fds := s.fds.closeAll }
    else { s with wsaCount := s.wsaCount - 1 }
  else s

/-- `ODSocket::Close`: `m_sock` keeps its value. -/
def callClose (win32 : Bool) (s : ODSocket) : ODSocket :=
  callClean win32 { s with fds := s.fds.close s.sock }

/-- A call on `m_sock` that the operating system answers with success only if the
descriptor is open. -/
def callOn (s : ODSocket) (ok : Bool) : Option ODSocket :=
  if ok && !s.fds.isOpen s.sock then none else some { s with fds := s.fds.use s.sock }

/-- One step.  `tcpCheck` calls `Connect` once, whether that succeeds or not.
The sender thread may be in `Send` at any moment; `Recv` is called by the thread
that has called `tcpCheck`. -/
def step (win32 : Bool) (s : ODSocket) (a : SockAct) : Option ODSocket :=
  match s.pc, a with
  | .idle, .tcpStart => some { s with pc := .init }
  | .idle, .tcpCheck => some { s with pc := if s.sock = none then .init else .peek }
  | .peek, .peek .closed => (s.callOn true).map ({ · with pc := .close })
  | .peek, .peek .data => (s.callOn true).map ({ · with pc := .idle })
  -- a hard error: `Clean`, where a closed connection gets `Close`
  | .peek, .peek (.error errno) =>
    (s.callOn false).map fun s =>
      if hasError win32 errno then { s.callClean win32 with pc := .init } else { s with pc := .idle }
  | .close, .close => some { s.callClose win32 with pc := .init }
  | .init, .init ok => some { s.callInit win32 ok with pc := .create }
  -- `m_sock` is overwritten in either case, whatever it held
  | .create, .socket none => some { s with sock := none, connected := false, pc := .connect }
  | .create, .socket (some d) =>
    if d ∈ s.fds.openFds ∨ (win32 ∧ s.wsaCount = 0) then none
    else some { s with sock := some d, connected := false, fds := s.fds.create d, pc := .connect }
  | .connect, .connect ok =>
    (s.callOn ok).map ({ · with connected := ok, pc := .setNonBlocking })
  -- the result of `ioctlsocket` is looked at, that of `fcntl` is not
  | .setNonBlocking, .setNonBlocking ok =>
    (s.callOn ok).map ({ · with pc := if win32 && !ok then .closeFailed else .idle })
  | .closeFailed, .close => some { s.callClose win32 with pc := .idle }
  | _, .send ok => if ok && !s.connected then none else s.callOn ok
  | .idle, .recv ok => if ok && !s.connected then none else s.callOn ok
  | _, _ => none

/-! ## What a step can do -/

/-- One constructor for each branch, as far as the descriptors are concerned. -/
inductive Step (win32 : Bool) (s : ODSocket) : SockAct → ODSocket → Prop
  | tcpStart (h : s.pc = .idle) : Step win32 s .tcpStart { s with pc := .init }
  | tcpCheck (h : s.pc = .idle) :
      Step win32 s .tcpCheck { s with pc := if s.sock = none then .init else .peek }
  | peekClosed (h : s.pc = .peek) :
      Step win32 s (.peek .closed) { s with fds := s.fds.use s.sock, pc := .close }
  | peekAlive {answer : PeekAnswer} (h : s.pc = .peek) :
      Step win32 s (.peek answer) { s with fds := s.fds.use s.sock, pc := .idle }
  | peekError {errno : Errno} (h : s.pc = .peek) (herr : hasError win32 errno = true) :
      Step win32 s (.peek (.error errno))
        { callClean win32 { s with fds := s.fds.use s.sock } with pc := .init }
  | close (h : s.pc = .close) : Step win32 s .close { s.callClose win32 with pc := .init }
  | init {ok : Bool} (h : s.pc = .init) :
      Step win32 s (.init ok) { s.callInit win32 ok with pc := .create }
  | socketFailed (h : s.pc = .create) :
      Step win32 s (.socket none) { s with sock := none, connected := false, pc := .connect }
  | socket {d : Nat} (h : s.pc = .create) : Step win32 s (.socket (some d))
      { s with sock := some d, connected := false, fds := s.fds.create d, pc := .connect }
  | connect {ok : Bool} (h : s.pc = .connect) (hopen : ok = true → s.fds.isOpen s.sock = true) :
      Step win32 s (.connect ok)
        { s with fds := s.fds.use s.sock, connected := ok, pc := .setNonBlocking }
  | setNonBlocking {ok : Bool} (h : s.pc = .setNonBlocking) (hok : win32 = true → ok = true) :
      Step win32 s (.setNonBlocking ok) { s with fds := s.fds.use s.sock, pc := .idle }
  | setNonBlockingFailed (h : s.pc = .setNonBlocking) (hw : win32 = true) :
      Step win32 s (.setNonBlocking false) { s with fds := s.fds.use s.sock, pc := .closeFailed }
  | closeFailed (h : s.pc = .closeFailed) : Step win32 s .close { s.callClose win32 with pc := .idle }
  | send {ok : Bool} (hok : ok = true → s.connected = true ∧ s.fds.isOpen s.sock = true) :
      Step win32 s (.send ok) { s with fds := s.fds.use s.sock }
  | recv {ok : Bool} (h : s.pc = .idle) :
      Step win32 s (.recv ok) { s with fds := s.fds.use s.sock }

theorem callOn_eq_some {s s' : ODSocket} {ok : Bool} (h : s.callOn ok = some s') :
    (ok = true → s.fds.isOpen s.sock = true) ∧ s' = { s with fds := s.fds.use s.sock } := by
  rw [callOn] at h
  split at h
  · cases h
  · rename_i hok
    cases h
    refine ⟨fun hok' => ?_, rfl⟩
    simpa [hok'] using hok

/-- **The inversion of `step`.** -/
theorem step_cases {win32 : Bool} {s s' : ODSocket} {a : SockAct}
    (h : s.step win32 a = some s') : Step win32 s a s' := by
  unfold step at h
  split at h
  · cases h; exact .tcpStart ‹_›
  · cases h; exact .tcpCheck ‹_›
  · obtain ⟨u, hu, rfl⟩ := Option.map_eq_some_iff.mp h
    obtain ⟨-, rfl⟩ := callOn_eq_some hu
    exact .peekClosed ‹_›
  · obtain ⟨u, hu, rfl⟩ := Option.map_eq_some_iff.mp h
    obtain ⟨-, rfl⟩ := callOn_eq_some hu
    exact .peekAlive ‹_›
  · obtain ⟨u, hu, rfl⟩ := Option.map_eq_some_iff.mp h
    obtain ⟨-, rfl⟩ := callOn_eq_some hu
    split
    · exact .peekError ‹_› ‹_›
    · exact .peekAlive ‹_›
  · cases h; exact .close ‹_›
  · cases h; exact .init ‹_›
  · cases h; exact .socketFailed ‹_›
  · split at h
    · cases h
    · cases h; exact .socket ‹_›
  · obtain ⟨u, hu, rfl⟩ := Option.map_eq_some_iff.mp h
    obtain ⟨hopen, rfl⟩ := callOn_eq_some hu
    exact .connect ‹_› hopen
  · rename_i ok hpc
    obtain ⟨u, hu, rfl⟩ := Option.map_eq_some_iff.mp h
    obtain ⟨-, rfl⟩ := callOn_eq_some hu
    cases win32 with
    | false => exact .setNonBlocking hpc (fun hw => by cases hw)
    | true =>
      cases ok with
      | false => exact .setNonBlockingFailed hpc rfl
      | true => exact .setNonBlocking hpc fun _ => rfl
  · cases h; exact .closeFailed ‹_›
  · split at h
    · cases h
    · rename_i hconn
      obtain ⟨hopen, rfl⟩ := callOn_eq_some h
      exact .send fun hok => ⟨by simpa [hok] using hconn, hopen hok⟩
  · split at h
    · cases h
    · obtain ⟨-, rfl⟩ := callOn_eq_some h
      exact .recv ‹_›
  · cases h

@[simp] theorem callClean_connected (win32 : Bool) (s : ODSocket) :
    (s.callClean win32).connected = s.connected := by
  unfold callClean
  split
  · split <;> rfl
  · rfl

@[simp] theorem callInit_connected (win32 ok : Bool) (s : ODSocket) :
    (s.callInit win32 ok).connected = s.connected := by
  unfold callInit
  split <;> rfl

/-- Only a successful `connect` makes the socket connected. -/
theorem connected_of_step {win32 : Bool} {s s' : ODSocket} {a : SockAct}
    (h : s.step win32 a = some s') (ha : a ≠ .connect true) (hconn : s'.connected = true) :
    s.connected = true := by
  cases step_cases h with
  | peekError | close | closeFailed =>
    simpa only [callClose, callClean_connected] using hconn
  | init => simpa only [callInit_connected] using hconn
  | socketFailed | socket => cases hconn
  | connect => obtain rfl : _ = true := hconn; exact absurd rfl ha
  | _ => exact hconn

/-- Bytes are taken on a connected socket only. -/
theorem connected_of_send {win32 : Bool} {s s' : ODSocket} {ok : Bool}
    (h : s.step win32 (.send ok) = some s') (hok : ok = true) : s.connected = true := by
  cases step_cases h with
  | send hopen => exact (hopen hok).1

/-! ## What is open is what `m_sock` holds -/

/-- What a socket owes between two operations: every open descriptor is the
current one, so that at most one is open; the current one is open if it is one at
all; and no call has been made on a closed one. -/
structure Typestate (s : ODSocket) : Prop where
  owned : ∀ d ∈ s.fds.openFds, s.sock = some d
  atMostOne : s.fds.openFds.card ≤ 1
  valid : ∀ d, s.sock = some d → d ∈ s.fds.openFds
  unmisused : s.fds.misused = false

/-- The steps that keep descriptors and `m_sock` together: `tcp_start` finds no
socket, a hard error in `Check` finds the process at its last `WSAStartup`,
`ioctlsocket` does not fail on a socket, and nothing is sent through a descriptor
between its `Close` and the next `socket`. -/
def Careful (win32 : Bool) (s : ODSocket) : SockAct → Prop
  | .tcpStart => s.sock = none
  | .peek (.error errno) => hasError win32 errno = true → win32 = true ∧ s.wsaCount = 1
  | .setNonBlocking false => win32 = true → s.sock = none
  | .send _ => s.pc = .init ∨ s.pc = .create → s.sock = none
  | _ => True

/-- What is open at each point of the two operations. -/
def SoundAt (fds : Descriptors) (sock : Option Nat) : SockPc → Prop
  | .idle | .peek | .close | .connect | .setNonBlocking => fds.Holds sock
  | .init | .create => fds.Holds none
  | .closeFailed => fds.Holds none ∧ sock = none

/-- The invariant of the socket. -/
def Sound (s : ODSocket) : Prop := SoundAt s.fds s.sock s.pc

theorem sound_init (wsaCount : Nat) : Sound (init wsaCount) := Descriptors.holds_empty

theorem Sound.unmisused {s : ODSocket} (h : Sound s) : s.fds.misused = false := by
  unfold Sound at h
  cases hpc : s.pc with
  | closeFailed => rw [hpc] at h; exact h.1.misused_eq
  | _ => rw [hpc] at h; exact h.misused_eq

/-- A call on `m_sock` is sound wherever that is not stale. -/
theorem Sound.use_eq {s : ODSocket} (h : Sound s)
    (hstale : s.pc = .init ∨ s.pc = .create → s.sock = none) : s.fds.use s.sock = s.fds := by
  unfold Sound at h
  cases hpc : s.pc with
  | init => rw [hstale (Or.inl hpc), Descriptors.use_none]
  | create => rw [hstale (Or.inr hpc), Descriptors.use_none]
  | closeFailed => rw [hpc] at h; rw [h.2, Descriptors.use_none]
  | _ => rw [hpc] at h; exact Descriptors.Holds.use_eq h

theorem callClean_holds {win32 : Bool} {s : ODSocket} (h : s.fds.Holds none) :
    (s.callClean win32).fds.Holds none := by
  unfold callClean
  split
  · split
    · exact h.closeAll
    · exact h
  · exact h

/-- The last `WSACleanup` leaves nothing open. -/
theorem callClean_last {s : ODSocket} (h : s.fds.Holds s.sock) (hlast : s.wsaCount = 1) :
    (s.callClean true).fds.Holds none := by
  rw [callClean, if_pos rfl, if_pos hlast]
  exact h.closeAll

@[simp] theorem callClean_sock (win32 : Bool) (s : ODSocket) :
    (s.callClean win32).sock = s.sock := by
  unfold callClean
  split
  · split <;> rfl
  · rfl

@[simp] theorem callInit_fds (win32 ok : Bool) (s : ODSocket) :
    (s.callInit win32 ok).fds = s.fds := by
  unfold callInit
  split <;> rfl

theorem callClose_holds {win32 : Bool} {s : ODSocket} (h : s.fds.Holds s.sock) :
    (s.callClose win32).fds.Holds none :=
  callClean_holds h.close

/-- **The step lemma of the socket.** -/
theorem sound_step {win32 : Bool} {s s' : ODSocket} {a : SockAct} (h : Sound s)
    (hc : s.Careful win32 a) (hs : s.step win32 a = some s') : Sound s' := by
  cases step_cases hs with
  | tcpStart hpc =>
    rw [Sound, hpc, show s.sock = none from hc] at h
    exact h
  | tcpCheck hpc =>
    rw [Sound, hpc] at h
    by_cases hsock : s.sock = none
    · simp only [hsock, if_true, Sound]
      rw [hsock] at h
      exact h
    · simp only [hsock, if_false, Sound]
      exact h
  | peekClosed hpc | peekAlive hpc | connect hpc | setNonBlocking hpc | recv hpc =>
    have huse := h.use_eq (by simp [hpc])
    rw [Sound, hpc] at h
    simp only [Sound, huse, hpc]
    exact h
  | peekError hpc herr =>
    obtain ⟨rfl, hlast⟩ := hc herr
    have huse := h.use_eq (by simp [hpc])
    rw [Sound, hpc] at h
    exact callClean_last (by rw [huse]; exact h) hlast
  | close hpc =>
    rw [Sound, hpc] at h
    exact callClose_holds h
  | init hpc =>
    rw [Sound, hpc] at h
    show (s.callInit win32 _).fds.Holds none
    rw [callInit_fds]
    exact h
  | socketFailed hpc =>
    rw [Sound, hpc] at h
    exact h
  | socket hpc =>
    rw [Sound, hpc] at h
    exact Descriptors.Holds.create h _
  | setNonBlockingFailed hpc hw =>
    have huse := h.use_eq (by simp [hpc])
    rw [Sound, hpc, show s.sock = none from hc hw] at h
    simp only [Sound, huse]
    exact ⟨h, hc hw⟩
  | closeFailed hpc =>
    rw [Sound, hpc] at h
    obtain ⟨hfds, hsock⟩ := h
    show (s.callClose win32).fds.Holds (s.callClose win32).sock
    rw [show (s.callClose win32).sock = none from (callClean_sock win32 _).trans hsock]
    exact callClose_holds (by rw [hsock]; exact hfds)
  | send =>
    have huse := h.use_eq hc
    rw [Sound] at h
    simp only [Sound, huse]
    exact h

/-- **Descriptor typestate.**  In every run whose steps are careful, no call is
ever made on a closed descriptor, and between two operations `m_sock` is the one
open descriptor or none is open. -/
theorem typestate {win32 : Bool} {wsaCount : Nat} {acts : List SockAct} {s : ODSocket}
    (hrun : run (step win32) (init wsaCount) acts = some s)
    (hcareful : Along (step win32) (Careful win32) (init wsaCount) acts) :
    s.fds.misused = false ∧ (s.pc = .idle → Typestate s) := by
  have h := hcareful.invariant (I := Sound) (fun _ _ _ => sound_step) hrun (sound_init wsaCount)
  refine ⟨h.unmisused, fun hidle => ?_⟩
  rw [Sound, hidle] at h
  exact ⟨fun _ hd => Descriptors.Holds.owned h hd, Descriptors.Holds.card_le_one h,
    fun _ hd => Descriptors.Holds.mem_openFds h hd, h.misused_eq⟩

instance (win32 : Bool) (s : ODSocket) : ∀ a, Decidable (s.Careful win32 a)
  | .tcpStart => inferInstanceAs (Decidable (s.sock = none))
  | .peek (.error errno) =>
    inferInstanceAs (Decidable (hasError win32 errno = true → win32 = true ∧ s.wsaCount = 1))
  | .setNonBlocking false => inferInstanceAs (Decidable (win32 = true → s.sock = none))
  | .send _ => inferInstanceAs (Decidable (s.pc = .init ∨ s.pc = .create → s.sock = none))
  | .tcpCheck | .peek .closed | .peek .data | .close | .init _ | .socket _ | .connect _
  | .setNonBlocking true | .recv _ => inferInstanceAs (Decidable True)

/-- On Windows: connected, reset by the peer, connected again, closed by the
peer, and refused the third time. -/
def windowsRun : List SockAct :=
  [.tcpStart, .init true, .socket (some 5), .connect true, .setNonBlocking true, .send true,
    .tcpCheck, .peek (.error .other), .init true, .socket (some 6), .connect true,
    .setNonBlocking true, .tcpCheck, .peek .closed, .send true, .close, .init true,
    .socket (some 5), .connect false, .setNonBlocking true]

theorem typestate_windowsRun : ∃ s : ODSocket, run (step true) (init 0) windowsRun = some s ∧
    s.sock = some 5 ∧ (s.fds.misused = false ∧ (s.pc = .idle → Typestate s)) :=
  ⟨_, rfl, rfl, typestate (show run (step true) (init 0) windowsRun = some _ from rfl) (by decide)⟩

/-- Elsewhere: the server is away.  The first `connect` is refused, the next peek
meets a socket that is not connected, and the descriptor is overwritten. -/
def refusedRun : List SockAct :=
  [.tcpStart, .init true, .socket (some 5), .connect false, .setNonBlocking true,
    .tcpCheck, .peek (.error .other), .init true, .socket (some 6), .connect false,
    .setNonBlocking true]

theorem typestate_fails : ∃ s : ODSocket, run (step false) (init 0) refusedRun = some s ∧
    s.pc = .idle ∧ s.sock = some 6 ∧ s.fds.openFds = {5, 6} ∧ ¬ Typestate s := by
  refine ⟨_, rfl, rfl, rfl, by decide, fun h => ?_⟩
  exact absurd (h.owned 5 (by decide)) (by decide)

end ODSocket

end SurvivalGame
