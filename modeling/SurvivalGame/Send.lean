import SurvivalGame.Header
import SurvivalGame.Transition

/-! # Sending: `TcpClient::sendFunc` over `ODSocket::Send`

One call of `sendFunc` tests the size of the send queue, pulls a pocket, builds
its bytes and hands them to `ODSocket::Send`, whose loop asks the OS again for
the rest until all is taken or a send is refused.  `SendPc` is where a thread
stands in such a call, and `sendFunc` takes it one step further: one step for
each access to the queue and one for each OS send.

The result of `Send` is not looked at and the pocket is deleted in either case.
So a refused send loses what is left of its frame, and the next call starts the
next frame on the same stream (`stream_torn`).  What the sender guarantees is
stated for one step (`sendFunc_conserves`) and for whole runs
(`accepted_prefix`).
-/
namespace SurvivalGame

/-! ## The bytes of a pocket -/

/-- `sendData`: the header followed by the body. -/
def sendData (pk : Pocket) : List CChar := header pk.length pk.id ++ pk.msg

/-- The bytes `sendFunc` builds for a pocket: a frame if it has an id, the bare
body otherwise. -/
def enc (pk : Pocket) : List CChar := if 0 < pk.id.toNat then sendData pk else pk.msg

/-- The bytes of several pockets in a row. -/
def encs (pks : List Pocket) : List CChar := (pks.map enc).flatten

@[simp] theorem encs_nil : encs [] = [] := rfl

@[simp] theorem encs_cons (pk : Pocket) (pks : List Pocket) :
    encs (pk :: pks) = enc pk ++ encs pks := rfl

@[simp] theorem encs_append (pks pks' : List Pocket) :
    encs (pks ++ pks') = encs pks ++ encs pks' := by
  simp [encs]

theorem encs_mono {pks pks' : List Pocket} (h : pks <+: pks') : encs pks <+: encs pks' := by
  obtain ⟨t, rfl⟩ := h
  rw [encs_append]
  exact List.prefix_append _ _

@[simp] theorem sendData_length (pk : Pocket) : (sendData pk).length = pk.length.toNat + 10 := by
  rw [sendData, List.length_append, header_length, pk.msg_length, Nat.add_comm]

theorem enc_of_id {pk : Pocket} (h : 0 < pk.id.toNat) : enc pk = sendData pk := if_pos h

/-! ## One call of `sendFunc` -/

/-- What one OS `send` answers: -1, or the number of bytes it takes. -/
inductive SendAnswer
  | error
  | accepted (k : Nat)
deriving DecidableEq

/-- `bytes == -1 || bytes == 0`. -/
def SendAnswer.refuses : SendAnswer → Bool
  | .error => true
  | .accepted k => k == 0

/-- Where a thread stands in `sendFunc`. -/
inductive SendPc
  /-- Outside any call. -/
  | idle
  /-- `getSize() > 0` has been seen; `PullPocket` is next. -/
  | tested
  /-- In the loop of `Send(buf, len)`, with `count` bytes taken. -/
  | sending (buf : List CChar) (len : Int) (count : Nat)
  /-- The thread has gone through a null pocket or past the end of `sendData`. -/
  | fault
deriving DecidableEq

/-- The steps of a call. -/
inductive SendAct
  | getSize
  | pullPocket
  | send (answer : SendAnswer)
  | ret
deriving DecidableEq

/-- The step is an OS send that is refused. -/
def SendAct.refuses : SendAct → Bool
  | .send answer => answer.refuses
  | _ => false

/-- From the pulled pocket to the call of `Send`.  `new char[pk->length + 10]` is
unsigned, so past 2^32 the block is too small for the header; `Send` takes the
same number as an `int`. -/
def startSend (pk : Pocket) : SendPc :=
  if 0 < pk.id.toNat then
    if (pk.length + 10).toNat < (sendData pk).length then .fault
    else .sending (sendData pk) (pk.length + 10).toInt 0
  else .sending pk.msg pk.length.toInt 0

/-- One step of a call of `sendFunc` on the queue `q`, with the bytes that the OS
takes in it.  `.ret` is the end of `Send`'s loop and of the call. -/
def sendFunc (q : Queue) : SendPc → SendAct → Option (Queue × SendPc × List CChar)
  | .idle, .getSize => some (q, if 0 < q.getSize then .tested else .idle, [])
  | .tested, .pullPocket =>
    match q.pullPocket with
    -- `pk->id` through a null pointer
    | (none, q') => some (q', .fault, [])
    | (some pk, q') => some (q', startSend pk, [])
  | .sending buf len count, .send answer =>
    if count < len then
      match answer with
      -- `Send` returns -1, and so does the call: the pocket is deleted all the same
      | .error => some (q, .idle, [])
      | .accepted 0 => some (q, .idle, [])
      | .accepted (k + 1) =>
        if count + (k + 1) ≤ len then
          some (q, .sending buf len (count + (k + 1)), (buf.drop count).take (k + 1))
        else none
    else none
  | .sending _ len count, .ret => if count < len then none else some (q, .idle, [])
  | _, _ => none

/-- What a step of `sendFunc` can do, one constructor for each branch. -/
inductive SendStep (q : Queue) : SendPc → SendAct → Queue → SendPc → List CChar → Prop
  | getSize : SendStep q .idle .getSize q (if 0 < q.getSize then .tested else .idle) []
  | pullNull (h : q.pks = []) : SendStep q .tested .pullPocket q .fault []
  | pull {pk : Pocket} {pks : List Pocket} (h : q.pks = pk :: pks) :
      SendStep q .tested .pullPocket ⟨pks⟩ (startSend pk) []
  | refused {buf : List CChar} {len : Int} {count : Nat} {answer : SendAnswer} (hlt : count < len)
      (href : answer.refuses = true) :
      SendStep q (.sending buf len count) (.send answer) q .idle []
  | accepted {buf : List CChar} {len : Int} {count k : Nat} (hk : 0 < k) (hle : count + k ≤ len) :
      SendStep q (.sending buf len count) (.send (.accepted k)) q (.sending buf len (count + k))
        ((buf.drop count).take k)
  | ret {buf : List CChar} {len : Int} {count : Nat} (hle : len ≤ count) :
      SendStep q (.sending buf len count) .ret q .idle []

/-- **The inversion of `sendFunc`**: later proofs case on `SendStep` and never
unfold the function. -/
theorem sendFunc_step {q q' : Queue} {pc pc' : SendPc} {a : SendAct} {bs : List CChar}
    (h : sendFunc q pc a = some (q', pc', bs)) : SendStep q pc a q' pc' bs := by
  match pc, a with
  | .idle, .getSize => cases h; exact .getSize
  | .tested, .pullPocket =>
    cases hq : q.pks with
    | nil =>
      rw [sendFunc, Queue.pullPocket_of_nil hq] at h
      cases h
      exact .pullNull hq
    | cons pk pks =>
      rw [sendFunc, Queue.pullPocket_of_cons hq] at h
      cases h
      exact .pull hq
  | .sending buf len count, .send answer =>
    by_cases hlt : count < len
    · match answer with
      | .error =>
        simp only [sendFunc, if_pos hlt] at h
        cases h
        exact .refused hlt rfl
      | .accepted 0 =>
        simp only [sendFunc, if_pos hlt] at h
        cases h
        exact .refused hlt rfl
      | .accepted (k + 1) =>
        by_cases hle : count + ((k : Int) + 1) ≤ len
        · simp only [sendFunc, if_pos hlt, if_pos hle] at h
          cases h
          exact .accepted (Nat.succ_pos k) (by exact_mod_cast hle)
        · simp only [sendFunc, if_pos hlt, if_neg hle] at h
          cases h
    · simp only [sendFunc, if_neg hlt] at h
      cases answer <;> cases h
  | .sending buf len count, .ret =>
    by_cases hlt : count < len
    · simp only [sendFunc, if_pos hlt] at h
      cases h
    · simp only [sendFunc, if_neg hlt] at h
      cases h
      exact .ret (Int.not_lt.mp hlt)
  | .idle, .pullPocket | .idle, .send _ | .idle, .ret => cases h
  | .tested, .getSize | .tested, .send _ | .tested, .ret => cases h
  | .sending .., .getSize | .sending .., .pullPocket => cases h
  | .fault, .getSize | .fault, .pullPocket | .fault, .send _ | .fault, .ret => cases h

/-! ## What one sender guarantees -/

/-- The pocket's bytes fit the `int` that `Send` takes as their number. -/
def Sendable (pk : Pocket) : Prop := (enc pk).length < 2 ^ 31

instance (pk : Pocket) : Decidable (Sendable pk) := inferInstanceAs (Decidable (_ < _))

/-- A pocket that fits is handed to `Send` whole. -/
theorem startSend_of_sendable {pk : Pocket} (h : Sendable pk) :
    startSend pk = .sending (enc pk) (enc pk).length 0 := by
  by_cases hid : 0 < pk.id.toNat
  · rw [Sendable, enc_of_id hid, sendData_length] at h
    have hadd : (pk.length + 10).toNat = pk.length.toNat + 10 := by
      rw [BitVec.toNat_add]
      exact Nat.mod_eq_of_lt (by show pk.length.toNat + 10 < 2 ^ 32; omega)
    rw [startSend, if_pos hid, hadd, sendData_length, if_neg (Nat.lt_irrefl _), enc_of_id hid,
      sendData_length, BitVec.toInt_eq_toNat_of_lt (by omega), hadd]
  · rw [Sendable, enc, if_neg hid, pk.msg_length] at h
    rw [startSend, if_neg hid, enc, if_neg hid, BitVec.toInt_eq_toNat_of_lt (by omega),
      pk.msg_length]

/-- The bytes of the current pocket that the OS has not taken yet. -/
def SendPc.unsent : SendPc → List CChar
  | .sending buf _ count => buf.drop count
  | _ => []

/-- Between the steps of the only sender: the size test still holds at the pull,
and `Send` counts within a buffer it may send whole. -/
def SendPc.Sound (q : Queue) : SendPc → Prop
  | .idle => True
  | .tested => q.pks ≠ []
  | .sending buf len count => len = buf.length ∧ count ≤ buf.length
  | .fault => False

theorem SendPc.Sound.push {q : Queue} {pc : SendPc} (h : pc.Sound q) (pk : Pocket) :
    pc.Sound (q.pushPocket pk) := by
  cases pc with
  | tested => simp [Sound]
  | _ => exact h

/-- **The step lemma of the sender.**  While no send is refused, the bytes taken
so far followed by the bytes still to be taken are the bytes of the pockets
pulled so far. -/
theorem sendFunc_conserves {q q' : Queue} {pc pc' : SendPc} {a : SendAct} {bs : List CChar}
    (h : sendFunc q pc a = some (q', pc', bs)) (hpc : pc.Sound q)
    (hq : ∀ pk ∈ q.pks, Sendable pk) (ha : a.refuses = false) :
    pc'.Sound q' ∧ ∃ pulled, q.pks = pulled ++ q'.pks ∧
      bs ++ pc'.unsent = pc.unsent ++ encs pulled := by
  cases sendFunc_step h with
  | getSize =>
    refine ⟨?_, [], rfl, ?_⟩
    · split
      · rename_i hpos
        exact Queue.ne_nil_of_getSize_pos hpos
      · trivial
    · split <;> rfl
  | pullNull hnil => exact absurd hnil hpc
  | @pull pk pks hcons =>
    have hpk : Sendable pk := hq pk (by rw [hcons]; exact List.mem_cons_self)
    rw [startSend_of_sendable hpk]
    exact ⟨⟨rfl, Nat.zero_le _⟩, [pk], hcons, by simp [SendPc.unsent]⟩
  | refused _ href => rw [SendAct.refuses, href] at ha; cases ha
  | @accepted buf len count k _ hle =>
    obtain ⟨rfl, _⟩ := hpc
    refine ⟨⟨rfl, by exact_mod_cast hle⟩, [], rfl, ?_⟩
    simp only [SendPc.unsent, encs_nil, List.append_nil, ← List.drop_drop]
    exact List.take_append_drop k (buf.drop count)
  | @ret buf len count hle =>
    obtain ⟨rfl, _⟩ := hpc
    refine ⟨trivial, [], rfl, ?_⟩
    have hnil : buf.drop count = [] := List.drop_eq_nil_of_le (by exact_mod_cast hle)
    simp [SendPc.unsent, hnil]

/-- A refused send gives the pocket up: nothing is taken, nothing is kept. -/
theorem sendFunc_refused {q q' : Queue} {pc pc' : SendPc} {a : SendAct} {bs : List CChar}
    (h : sendFunc q pc a = some (q', pc', bs)) (ha : a.refuses = true) :
    q' = q ∧ pc' = .idle ∧ bs = [] := by
  cases sendFunc_step h with
  | refused => exact ⟨rfl, rfl, rfl⟩
  | @accepted _ _ _ k hk =>
    simp only [SendAct.refuses, SendAnswer.refuses, beq_iff_eq] at ha
    omega
  | _ => cases ha

/-- What an OS send does to the loop of `Send`. -/
theorem sendFunc_send {q q' : Queue} {pc pc' : SendPc} {answer : SendAnswer} {bs : List CChar}
    (h : sendFunc q pc (.send answer) = some (q', pc', bs)) :
    ∃ buf len count, pc = .sending buf len count ∧ (answer.refuses = true ∧ pc' = .idle ∨
      ∃ k, answer = .accepted k ∧ 0 < k ∧ count + k ≤ len ∧ pc' = .sending buf len (count + k)) := by
  cases sendFunc_step h with
  | refused _ href => exact ⟨_, _, _, rfl, Or.inl ⟨href, rfl⟩⟩
  | accepted hk hle => exact ⟨_, _, _, rfl, Or.inr ⟨_, rfl, hk, hle, rfl⟩⟩

/-- Only an OS send puts bytes on the wire. -/
theorem sendFunc_bytes {q q' : Queue} {pc pc' : SendPc} {a : SendAct} {bs : List CChar}
    (h : sendFunc q pc a = some (q', pc', bs)) :
    bs = [] ∨ ∃ k, 0 < k ∧ a = .send (.accepted k) := by
  cases sendFunc_step h with
  | @accepted _ _ _ k hk => exact Or.inr ⟨k, hk, rfl⟩
  | _ => exact Or.inl rfl

/-- A sender only ever takes pockets off the head of the queue. -/
theorem sendFunc_queue {q q' : Queue} {pc pc' : SendPc} {a : SendAct} {bs : List CChar}
    (h : sendFunc q pc a = some (q', pc', bs)) : q'.pks <:+ q.pks := by
  cases sendFunc_step h with
  | pull hcons => rw [hcons]; exact List.suffix_cons _ _
  | _ => exact List.suffix_rfl

/-! ## One connection -/

/-- A client sending on one connection, with what the OS has taken on it, the
pockets pushed, and whether a send was refused so far. -/
structure Connection where
  sendQueue : Queue
  pc : SendPc
  accepted : List CChar
  pushed : List Pocket
  refused : Bool
deriving DecidableEq

/-- What happens on the connection: the game pushes a message, or the sender
thread takes a step. -/
inductive ConnectionAct
  | pushSendQueue (msg : List CChar) (msgid : CUInt)
  | sendFunc (a : SendAct)

namespace Connection

/-- A fresh client. -/
def init : Connection := ⟨.empty, .idle, [], [], false⟩

/-- One step of the game or of the sender. -/
def step (c : Connection) : ConnectionAct → Option Connection
  | .pushSendQueue msg msgid =>
    some { c with
      sendQueue := c.sendQueue.pushPocket (makePocket msg msgid)
      pushed := c.pushed ++ [makePocket msg msgid] }
  | .sendFunc a =>
    (SurvivalGame.sendFunc c.sendQueue c.pc a).map fun (q, pc, bs) =>
      { c with sendQueue := q, pc := pc, accepted := c.accepted ++ bs, refused := c.refused || a.refuses }

/-- The steps that keep the stream whole: every pushed pocket fits `Send`'s
`int`, and once a send has been refused none takes bytes any more. -/
def Whole (c : Connection) : ConnectionAct → Prop
  | .pushSendQueue msg msgid => Sendable (makePocket msg msgid)
  | .sendFunc (.send (.accepted k)) => c.refused = true → k = 0
  | .sendFunc _ => True

instance (c : Connection) : ∀ a, Decidable (c.Whole a)
  | .pushSendQueue .. => inferInstanceAs (Decidable (Sendable _))
  | .sendFunc (.send (.accepted k)) => inferInstanceAs (Decidable (c.refused = true → k = 0))
  | .sendFunc (.send .error) | .sendFunc .getSize | .sendFunc .pullPocket | .sendFunc .ret =>
    inferInstanceAs (Decidable True)

/-- The sender's invariant: up to the first refusal, the bytes taken and the
bytes to come are those of the pockets pulled; after it, nothing is taken. -/
structure Intact (c : Connection) : Prop where
  sendable : ∀ pk ∈ c.sendQueue.pks, Sendable pk
  sound : c.refused = false → c.pc.Sound c.sendQueue
  stream : c.refused = false →
    ∃ pulled, c.pushed = pulled ++ c.sendQueue.pks ∧ c.accepted ++ c.pc.unsent = encs pulled
  isPrefix : c.accepted <+: encs c.pushed

theorem intact_init : Intact init where
  sendable := by simp [init, Queue.empty]
  sound _ := trivial
  stream _ := ⟨[], rfl, rfl⟩
  isPrefix := List.nil_prefix

theorem intact_push {c : Connection} (hc : Intact c) {msg : List CChar} {msgid : CUInt}
    (h : Sendable (makePocket msg msgid)) :
    Intact { c with
      sendQueue := c.sendQueue.pushPocket (makePocket msg msgid)
      pushed := c.pushed ++ [makePocket msg msgid] } where
  sendable := by
    intro pk hpk
    rcases List.mem_append.mp hpk with hpk | hpk
    · exact hc.sendable pk hpk
    · rw [List.mem_singleton.mp hpk]; exact h
  sound hr := (hc.sound hr).push _
  stream hr := by
    obtain ⟨pulled, hp, hs⟩ := hc.stream hr
    exact ⟨pulled, by simp [hp], hs⟩
  isPrefix := hc.isPrefix.trans (encs_mono (List.prefix_append _ _))

theorem intact_send {c : Connection} (hc : Intact c) {a : SendAct} (hw : c.Whole (.sendFunc a))
    {q : Queue} {pc : SendPc} {bs : List CChar}
    (h : SurvivalGame.sendFunc c.sendQueue c.pc a = some (q, pc, bs)) :
    Intact { c with
      sendQueue := q, pc := pc, accepted := c.accepted ++ bs, refused := c.refused || a.refuses } := by
  have hsendable : ∀ pk ∈ q.pks, Sendable pk :=
    fun pk hpk => hc.sendable pk ((sendFunc_queue h).subset hpk)
  cases ha : a.refuses with
  | true =>
    obtain ⟨-, -, rfl⟩ := sendFunc_refused h ha
    exact ⟨hsendable, by simp, by simp, by simpa using hc.isPrefix⟩
  | false =>
    cases hr : c.refused with
    | false =>
      obtain ⟨pulled, hp, hs⟩ := hc.stream hr
      obtain ⟨hsound, pulled', hp', hs'⟩ :=
        sendFunc_conserves h (hc.sound hr) hc.sendable ha
      have hstream : c.accepted ++ bs ++ pc.unsent = encs (pulled ++ pulled') := by
        rw [encs_append, ← hs, List.append_assoc, hs', List.append_assoc]
      have hpushed : c.pushed = pulled ++ pulled' ++ q.pks := by
        rw [hp, hp', List.append_assoc]
      refine ⟨hsendable, fun _ => hsound, fun _ => ⟨_, hpushed, hstream⟩, ?_⟩
      calc c.accepted ++ bs <+: encs (pulled ++ pulled') := ⟨_, hstream⟩
        _ <+: encs c.pushed := encs_mono ⟨_, hpushed.symm⟩
    | true =>
      have hbs : bs = [] := by
        rcases sendFunc_bytes h with hbs | ⟨k, hk, rfl⟩
        · exact hbs
        · exact absurd (hw hr) (Nat.ne_of_gt hk)
      subst hbs
      exact ⟨hsendable, by simp, by simp, by simpa using hc.isPrefix⟩

theorem intact_step {c d : Connection} {a : ConnectionAct} (hc : Intact c) (hw : c.Whole a)
    (h : c.step a = some d) : Intact d := by
  cases a with
  | pushSendQueue msg msgid => cases h; exact intact_push hc hw
  | sendFunc a =>
    obtain ⟨⟨q, pc, bs⟩, hs, rfl⟩ := Option.map_eq_some_iff.mp h
    exact intact_send hc hw hs

/-- **The stream of one connection.**  In every run whose pockets fit and in
which no send takes bytes after a refused one, the bytes the OS has taken are at
every moment a prefix of the frames in push order. -/
theorem accepted_prefix {acts : List ConnectionAct} {c : Connection}
    (hrun : Transition.run step init acts = some c)
    (hwhole : Transition.Along step Whole init acts) : c.accepted <+: encs c.pushed :=
  (hwhole.invariant (fun _ _ _ => intact_step) hrun intact_init).isPrefix

/-- Two messages; the OS takes three bytes of the first and refuses from then on. -/
def stalledRun : List ConnectionAct :=
  [.pushSendQueue [97] 1, .pushSendQueue [98] 2,
    .sendFunc .getSize, .sendFunc .pullPocket, .sendFunc (.send (.accepted 3)),
    .sendFunc (.send .error),
    .sendFunc .getSize, .sendFunc .pullPocket, .sendFunc (.send (.accepted 0))]

theorem accepted_prefix_stalledRun : ∃ c : Connection,
    Transition.run step init stalledRun = some c ∧ c.accepted = [9, 0, 1] ∧
      c.accepted <+: encs c.pushed :=
  ⟨_, rfl, rfl, accepted_prefix (show Transition.run step init stalledRun = some _ from rfl) (by decide)⟩

/-- Two messages, the first refused after three of its eleven bytes: the next
call of `sendFunc` sends the second message from its start. -/
def tornRun : List ConnectionAct :=
  [.pushSendQueue [97] 1, .pushSendQueue [98] 2,
    .sendFunc .getSize, .sendFunc .pullPocket, .sendFunc (.send (.accepted 3)),
    .sendFunc (.send .error),
    .sendFunc .getSize, .sendFunc .pullPocket, .sendFunc (.send (.accepted 1))]

theorem stream_torn :
    ∃ c, Transition.run step init tornRun = some c ∧ ¬ c.accepted <+: encs c.pushed :=
  ⟨_, rfl, by decide⟩

end Connection

end SurvivalGame
