import SurvivalGame.Send
import SurvivalGame.Socket

/-! # Reconnecting under a sender

`th_send` and `th_recv` share `m_sock` and nothing else keeps them apart.  Each OS
send of `Send`'s loop uses the descriptor of that moment, while the other thread
may close it, make a new one and connect that.  A connection here is the list of
the pieces of frames that the OS took on it.

If a `connect` succeeds while the sender is in the middle of a frame, the sender
is `stalled`: it has no way to notice, and the rest of its frame is the first
thing it offers to the new connection.  Every connection starts at a frame
boundary exactly in the runs in which the OS refuses that offer
(`startsAtFrame_iff`).
-/
namespace SurvivalGame
open Transition

/-- Some bytes of a frame have been taken and some have not. -/
def SendPc.midFrame : SendPc → Bool
  | .sending _ len count => decide (0 < count ∧ count < len)
  | _ => false

/-- A piece of a frame that the OS took: `size` bytes from `off` on. -/
structure Piece where
  frame : List CChar
  off : Nat
  size : Nat
deriving DecidableEq

/-- The first byte on the connection, if any, is the first of a frame. -/
def StartsAtFrame (conn : List Piece) : Prop := ∀ piece ∈ conn.head?, piece.off = 0

/-- A client with its sender and its receiver thread.  `conns` holds what was
sent on each connection made so far, the current one first. -/
structure Session where
  sendQueue : Queue
  sendPc : SendPc
  socket : ODSocket
  conns : List (List Piece)
  stalled : Bool
deriving DecidableEq

/-- A step of the game, of the sender thread, or of the thread that checks and
makes the connection. -/
inductive SessionAct
  | pushSendQueue (msg : List CChar) (msgid : CUInt)
  | sender (a : SendAct)
  | receiver (a : SockAct)
deriving DecidableEq

/-- A piece is sent on the current connection. -/
def record (piece : Piece) : List (List Piece) → List (List Piece)
  | [] => []
  | conn :: conns => (conn ++ [piece]) :: conns

/-- The connections after an OS send has been answered. -/
def recordSent (pc : SendPc) (answer : SendAnswer) (conns : List (List Piece)) :
    List (List Piece) :=
  if answer.refuses then conns
  else match pc, answer with
    | .sending buf _ count, .accepted k => record ⟨buf, count, k⟩ conns
    | _, _ => conns

theorem recordSent_of_refuses {pc : SendPc} {answer : SendAnswer} {conns : List (List Piece)}
    (h : answer.refuses = true) : recordSent pc answer conns = conns :=
  if_pos h

theorem recordSent_of_accepted {buf : List CChar} {len : Int} {count k : Nat}
    {conns : List (List Piece)} (hk : 0 < k) :
    recordSent (.sending buf len count) (.accepted k) conns = record ⟨buf, count, k⟩ conns :=
  if_neg (by simpa [SendAnswer.refuses] using Nat.ne_of_gt hk)

namespace Session

/-- A fresh client in a process with `wsaCount` other `WSAStartup` calls. -/
def init (wsaCount : Nat) : Session := ⟨.empty, .idle, .init wsaCount, [], false⟩

/-- One step of one thread.  An OS send is a step of the sender and of the socket;
a `connect` that succeeds begins a new connection. -/
def step (win32 : Bool) (s : Session) : SessionAct → Option Session
  | .pushSendQueue msg msgid =>
    some { s with sendQueue := s.sendQueue.pushPocket (makePocket msg msgid) }
  | .sender (.send answer) =>
    (s.socket.step win32 (.send (!answer.refuses))).bind fun socket =>
      (sendFunc s.sendQueue s.sendPc (.send answer)).map fun (q, pc, _) =>
        { sendQueue := q, sendPc := pc, socket := socket
          conns := recordSent s.sendPc answer s.conns, stalled := false }
  | .sender a =>
    (sendFunc s.sendQueue s.sendPc a).map fun (q, pc, _) =>
      { s with sendQueue := q, sendPc := pc }
  -- the receiver thread sends nothing
  | .receiver (.send _) => none
  | .receiver (.connect true) =>
    (s.socket.step win32 (.connect true)).map fun socket =>
      { s with socket := socket, conns := [] :: s.conns, stalled := s.sendPc.midFrame }
  | .receiver a => (s.socket.step win32 a).map ({ s with socket := · })

/-- What a step can do to the connections. -/
inductive Step (s : Session) : SessionAct → Session → Prop
  /-- No bytes move, no connection is made. -/
  | quiet {a : SessionAct} {q : Queue} {pc : SendPc} {socket : ODSocket}
      (hconn : socket.connected = true → s.socket.connected = true)
      (hpc : pc.midFrame = s.sendPc.midFrame)
      (ha : ∀ answer, a ≠ .sender (.send answer)) :
      Step s a { s with sendQueue := q, sendPc := pc, socket := socket }
  /-- An OS send is refused. -/
  | refused {answer : SendAnswer} {q : Queue} {socket : ODSocket}
      (hconn : socket.connected = true → s.socket.connected = true)
      (href : answer.refuses = true) :
      Step s (.sender (.send answer))
        { sendQueue := q, sendPc := .idle, socket := socket, conns := s.conns, stalled := false }
  /-- An OS send takes bytes. -/
  | accepted {buf : List CChar} {len : Int} {count k : Nat} {q : Queue} {socket : ODSocket}
      (hpc : s.sendPc = .sending buf len count) (hk : 0 < k) (hle : count + k ≤ len)
      (hconn : s.socket.connected = true) :
      Step s (.sender (.send (.accepted k)))
        { sendQueue := q, sendPc := .sending buf len (count + k), socket := socket
          conns := record ⟨buf, count, k⟩ s.conns, stalled := false }
  /-- A connection is made. -/
  | connected {socket : ODSocket} : Step s (.receiver (.connect true))
      { s with socket := socket, conns := [] :: s.conns, stalled := s.sendPc.midFrame }

theorem midFrame_startSend (pk : Pocket) : (startSend pk).midFrame = false := by
  rw [startSend]
  split
  · split <;> simp [SendPc.midFrame]
  · simp [SendPc.midFrame]

/-- Outside the OS sends, a call of `sendFunc` is not in the middle of a frame,
neither before nor after a step. -/
theorem midFrame_of_step {q q' : Queue} {pc pc' : SendPc} {a : SendAct} {bs : List CChar}
    (h : sendFunc q pc a = some (q', pc', bs)) (ha : ∀ answer, a ≠ .send answer) :
    pc'.midFrame = pc.midFrame := by
  cases sendFunc_step h with
  | getSize => split <;> rfl
  | pullNull => rfl
  | pull => exact midFrame_startSend _
  | refused => exact absurd rfl (ha _)
  | accepted => exact absurd rfl (ha _)
  | @ret buf len count hle =>
    have hdone : ¬ (0 < count ∧ count < len) := fun h => Int.not_lt.mpr hle h.2
    exact (decide_eq_false hdone).symm

theorem step_cases {win32 : Bool} {s s' : Session} {a : SessionAct}
    (h : s.step win32 a = some s') : Step s a s' := by
  unfold step at h
  split at h
  · cases h
    exact .quiet id rfl (by simp)
  · -- an OS send: the socket's step and the sender's
    obtain ⟨socket, hsock, h⟩ := Option.bind_eq_some_iff.mp h
    obtain ⟨⟨q, pc, bs⟩, hsend, rfl⟩ := Option.map_eq_some_iff.mp h
    obtain ⟨buf, len, count, hpc, ⟨href, rfl⟩ | ⟨k, rfl, hk, hle, rfl⟩⟩ := sendFunc_send hsend
    · have hsame : recordSent s.sendPc _ s.conns = s.conns := recordSent_of_refuses href
      rw [hsame]
      exact .refused (ODSocket.connected_of_step hsock (by simp)) href
    · have hok : (!(SendAnswer.accepted k).refuses) = true := by
        simpa [SendAnswer.refuses] using Nat.ne_of_gt hk
      dsimp only
      rw [hpc, recordSent_of_accepted hk]
      exact .accepted hpc hk hle (ODSocket.connected_of_send hsock hok)
  · rename_i a ha
    obtain ⟨⟨q, pc, bs⟩, hsend, rfl⟩ := Option.map_eq_some_iff.mp h
    exact .quiet id (midFrame_of_step hsend ha)
      fun answer heq => ha answer (SessionAct.sender.inj heq)
  · cases h
  · obtain ⟨socket, hsock, rfl⟩ := Option.map_eq_some_iff.mp h
    exact .connected
  · rename_i a hsend hconn
    obtain ⟨socket, hsock, rfl⟩ := Option.map_eq_some_iff.mp h
    exact .quiet (ODSocket.connected_of_step hsock fun heq => hconn (heq ▸ rfl)) rfl (by simp)

/-! ## Where connections start -/

/-- Every connection so far starts at a frame boundary. -/
def Aligned (s : Session) : Prop := ∀ conn ∈ s.conns, StartsAtFrame conn

/-- An OS send of a stalled sender takes no bytes. -/
def Fresh (s : Session) : SessionAct → Prop
  | .sender (.send (.accepted k)) => s.stalled = true → k = 0
  | _ => True

/-- The invariant of every run: a stalled sender is in the middle of a frame on a
connection that has carried nothing, and it is the only one that is. -/
structure Tracked (s : Session) : Prop where
  stalled : s.stalled = true → s.sendPc.midFrame = true ∧ ∃ rest, s.conns = [] :: rest
  connected : s.socket.connected = true → s.conns ≠ []
  flowing : s.socket.connected = true → s.stalled = false → s.sendPc.midFrame = true →
    ∀ rest, s.conns ≠ [] :: rest

theorem tracked_init (wsaCount : Nat) : Tracked (init wsaCount) :=
  ⟨nofun, nofun, nofun⟩

theorem tracked_step {s s' : Session} {a : SessionAct} (h : Tracked s) (hs : Step s a s') :
    Tracked s' := by
  cases hs with
  | quiet hconn hpc =>
    exact ⟨fun hst => ⟨hpc.trans (h.stalled hst).1, (h.stalled hst).2⟩,
      fun hc => h.connected (hconn hc),
      fun hc hst hmid => h.flowing (hconn hc) hst (hpc.symm.trans hmid)⟩
  | refused hconn =>
    exact ⟨nofun, fun hc => h.connected (hconn hc), nofun⟩
  | accepted hpc hk hle hconn =>
    obtain ⟨conn, rest, hconns⟩ := List.exists_cons_of_ne_nil (h.connected hconn)
    refine ⟨nofun, fun _ => ?_, fun _ _ _ rest' heq => ?_⟩
    · simp [hconns, record]
    · simp [hconns, record] at heq
  | connected =>
    refine ⟨fun hmid => ⟨hmid, s.conns, rfl⟩, fun _ => List.cons_ne_nil _ _, fun _ hst hmid => ?_⟩
    exact absurd (hst.symm.trans hmid) (by decide)

/-- A piece sent on a connection that has carried something changes nothing about
its start. -/
theorem startsAtFrame_append {conn : List Piece} (hne : conn ≠ []) (piece : Piece) :
    StartsAtFrame (conn ++ [piece]) ↔ StartsAtFrame conn := by
  obtain ⟨p, ps, rfl⟩ := List.exists_cons_of_ne_nil hne
  rfl

/-- What is sent by a sender that is not stalled starts no connection in the
middle of a frame. -/
theorem aligned_step {s s' : Session} {a : SessionAct} (hT : Tracked s) (h : Aligned s)
    (hfresh : s.Fresh a) (hs : Step s a s') : Aligned s' := by
  cases hs with
  | quiet | refused => exact h
  | connected =>
    rintro conn hmem
    rcases List.mem_cons.mp hmem with rfl | hmem
    · intro piece hp
      cases hp
    · exact h conn hmem
  | @accepted buf len count k q socket hpc hk hle hconn =>
    obtain ⟨conn, rest, hconns⟩ := List.exists_cons_of_ne_nil (hT.connected hconn)
    have hst : s.stalled = false := by
      rw [← Bool.not_eq_true]
      exact fun hst => Nat.ne_of_gt hk (hfresh hst)
    have h : ∀ c ∈ conn :: rest, StartsAtFrame c := hconns ▸ h
    show ∀ c ∈ record _ s.conns, StartsAtFrame c
    rw [hconns, record]
    rintro c hmem
    rcases List.mem_cons.mp hmem with rfl | hmem
    · by_cases hne : conn = []
      · -- the first piece of the connection: the sender is not in the middle of a frame
        have hmid : ¬ (0 < count ∧ count < len) := fun hlt =>
          hT.flowing hconn hst (by rw [hpc]; exact decide_eq_true hlt) rest (hne ▸ hconns)
        intro piece hp
        rw [hne] at hp
        cases hp
        show count = 0
        omega
      · exact (startsAtFrame_append hne _).mpr (h conn List.mem_cons_self)
    · exact h c (List.mem_cons_of_mem _ hmem)

/-- Pieces are only ever added at the end of a connection. -/
theorem aligned_of_step {s s' : Session} {a : SessionAct} (hs : Step s a s') (h : Aligned s') :
    Aligned s := by
  cases hs with
  | quiet | refused => exact h
  | connected => exact fun conn hmem => h conn (List.mem_cons_of_mem _ hmem)
  | @accepted buf len count k q socket hpc hk hle hconn =>
    intro conn hmem
    cases hconns : s.conns with
    | nil => rw [hconns] at hmem; cases hmem
    | cons c rest =>
      have h : ∀ c' ∈ record ⟨buf, count, k⟩ s.conns, StartsAtFrame c' := h
      rw [hconns, record] at h
      rw [hconns] at hmem
      rcases List.mem_cons.mp hmem with rfl | hmem
      · by_cases hne : conn = []
        · intro piece hp
          rw [hne] at hp
          cases hp
        · exact (startsAtFrame_append hne _).mp (h _ List.mem_cons_self)
      · exact h conn (List.mem_cons_of_mem _ hmem)

/-- What a stalled sender sends starts its connection in the middle of a frame. -/
theorem fresh_of_step {s s' : Session} {a : SessionAct} (hT : Tracked s) (hs : Step s a s')
    (h : Aligned s') : s.Fresh a := by
  cases hs with
  | @quiet a q pc socket _ _ ha =>
    match a, ha with
    | .pushSendQueue .., _ | .receiver _, _ => trivial
    | .sender .getSize, _ | .sender .pullPocket, _ | .sender .ret, _ => trivial
    | .sender (.send answer), ha => exact absurd rfl (ha answer)
  | @refused answer _ _ _ href =>
    match answer, href with
    | .error, _ => trivial
    | .accepted k, href => exact fun _ => by simpa [SendAnswer.refuses] using href
  | connected => trivial
  | @accepted buf len count k q socket hpc hk hle hconn =>
    intro hst
    exfalso
    obtain ⟨hmid, rest, hconns⟩ := hT.stalled hst
    rw [hpc] at hmid
    have hpos : 0 < count := (of_decide_eq_true hmid).1
    have hmem : [⟨buf, count, k⟩] ∈ record ⟨buf, count, k⟩ s.conns := by
      rw [hconns]
      exact List.mem_cons_self
    have hzero : count = 0 := h _ hmem ⟨buf, count, k⟩ rfl
    omega

/-- **Where connections start.**  In every run of the two threads, under every
interleaving and every answer of the operating system, each connection starts at
a frame boundary exactly if no bytes are ever taken from a sender that was in the
middle of a frame when a `connect` succeeded. -/
theorem startsAtFrame_iff {win32 : Bool} {wsaCount : Nat} {acts : List SessionAct} {s : Session}
    (hrun : run (step win32) (init wsaCount) acts = some s) :
    (∀ conn ∈ s.conns, StartsAtFrame conn) ↔ Along (step win32) Fresh (init wsaCount) acts := by
  constructor
  · intro h
    exact (Along.of_run (I := Tracked) (G := Aligned) (fun _ _ _ hT hs => tracked_step hT (step_cases hs))
      (fun _ _ _ hs => aligned_of_step (step_cases hs))
      (fun _ _ _ hT hs => fresh_of_step hT (step_cases hs)) hrun (tracked_init wsaCount) h).2
  · intro h
    have hinit : Tracked (init wsaCount) ∧ Aligned (init wsaCount) :=
      ⟨tracked_init wsaCount, fun _ hmem => by cases hmem⟩
    exact (h.invariant (I := fun s => Tracked s ∧ Aligned s)
      (fun _ _ _ hI hC hs => ⟨tracked_step hI.1 (step_cases hs),
        aligned_step hI.1 hI.2 hC (step_cases hs)⟩) hrun hinit).2

instance (s : Session) : ∀ a, Decidable (s.Fresh a)
  | .sender (.send (.accepted k)) => inferInstanceAs (Decidable (s.stalled = true → k = 0))
  | .sender (.send .error) | .sender .getSize | .sender .pullPocket | .sender .ret
  | .pushSendQueue .. | .receiver _ => inferInstanceAs (Decidable True)

/-- Three bytes of a frame are sent; then the peer closes, and the client connects
again before the sender goes on. -/
def tornReconnect : List SessionAct :=
  [.pushSendQueue [97] 1001, .receiver .tcpCheck, .receiver (.init true),
    .receiver (.socket (some 5)), .receiver (.connect true), .receiver (.setNonBlocking true),
    .sender .getSize, .sender .pullPocket, .sender (.send (.accepted 3)),
    .receiver .tcpCheck, .receiver (.peek .closed), .receiver .close, .receiver (.init true),
    .receiver (.socket (some 5)), .receiver (.connect true)]

/-- The operating system refuses the rest of the frame; the next one starts the
second connection. -/
theorem startsAtFrame_refused : ∃ s : Session,
    run (step false) (init 0) (tornReconnect ++ [.sender (.send .error), .pushSendQueue [98] 1002,
      .sender .getSize, .sender .pullPocket, .sender (.send (.accepted 11))]) = some s ∧
    s.conns.length = 2 ∧ ∀ conn ∈ s.conns, StartsAtFrame conn :=
  ⟨_, rfl, rfl, (startsAtFrame_iff (show run (step false) (init 0) (tornReconnect ++
    [.sender (.send .error), .pushSendQueue [98] 1002, .sender .getSize, .sender .pullPocket,
      .sender (.send (.accepted 11))]) = some _ from rfl)).mpr (by decide)⟩

/-- It takes the rest: the second connection starts with the fourth byte. -/
theorem startsAtFrame_fails : ∃ s : Session,
    run (step false) (init 0) (tornReconnect ++ [.sender (.send (.accepted 8))]) = some s ∧
    ¬ ∀ conn ∈ s.conns, StartsAtFrame conn := by
  refine ⟨_, rfl, fun h => ?_⟩
  exact absurd (h _ List.mem_cons_self _ rfl) (by decide)

end Session

end SurvivalGame
