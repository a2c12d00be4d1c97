import Mathlib.Data.List.TakeWhile
import Mathlib.Data.BitVec
import Mathlib.Tactic.Common

/-! # Pockets and their queues

The message type of the client (`Pocket.h`), the way a pocket is made from a C
string (`TcpClient::MakePocket`) and the vector of pockets that the threads share
(`Queue.cpp`).

Bytes are bit patterns of `char`; that `char` is signed matters only where one is
promoted to `int`, in the header.  A `const char*` argument is the list of the
bytes from the pointer on, the allocation's end standing for the terminating NUL
of a literal.
-/
namespace SurvivalGame

/-- A `char`: eight bits. -/
abbrev CChar := BitVec 8

/-- An `unsigned int`: 32 bits on every target of the client. -/
abbrev CUInt := BitVec 32

/-- A number below 2^31 is the `int` that holds it. -/
theorem toInt_ofNat_of_lt {m : Nat} (h : m < 2 ^ 31) : (BitVec.ofNat 32 m).toInt = m := by
  have hnat : (BitVec.ofNat 32 m).toNat = m := by
    rw [BitVec.toNat_ofNat, Nat.mod_eq_of_lt (by omega)]
  rw [BitVec.toInt_eq_toNat_of_lt (by omega), hnat]

/-- `strlen`: the number of bytes before the first NUL. -/
def strlen (msg : List CChar) : Nat := (msg.takeWhile (· ≠ 0)).length

theorem strlen_le (msg : List CChar) : strlen msg ≤ msg.length :=
  (List.takeWhile_prefix _).length_le

theorem takeWhile_eq_self_of_nul_free {msg : List CChar} (h : 0 ∉ msg) :
    msg.takeWhile (· ≠ 0) = msg :=
  List.takeWhile_eq_self_iff.mpr fun _ hc => decide_eq_true fun h0 => h (h0 ▸ hc)

theorem strlen_of_nul_free {msg : List CChar} (h : 0 ∉ msg) : strlen msg = msg.length := by
  rw [strlen, takeWhile_eq_self_of_nul_free h]

/-- The bytes before the first NUL, when a NUL follows them. -/
theorem takeWhile_append_nul (msg rest : List CChar) :
    (msg ++ 0 :: rest).takeWhile (· ≠ 0) = msg.takeWhile (· ≠ 0) := by
  induction msg with
  | nil => simp
  | cons c msg ih => by_cases hc : c = 0 <;> simp_all

theorem strlen_append_nul (msg rest : List CChar) : strlen (msg ++ 0 :: rest) = strlen msg := by
  rw [strlen, takeWhile_append_nul, strlen]

/-- A byte string is its own C string exactly when it holds no NUL. -/
theorem takeWhile_eq_self_iff_nul_free {msg : List CChar} :
    msg.takeWhile (· ≠ 0) = msg ↔ 0 ∉ msg := by
  constructor
  · intro h h0
    have := List.takeWhile_eq_self_iff.mp h 0 h0
    simp at this
  · exact takeWhile_eq_self_of_nul_free

/-! ## Pockets -/

/-- `Pocket`: its buffer holds `length` bytes. -/
structure Pocket where
  length : CUInt
  id : CUInt
  msg : List CChar
  msg_length : msg.length = length.toNat
deriving DecidableEq

/-- A pocket is its id and its bytes; the length field adds nothing. -/
theorem Pocket.ext_of_msg {pk pk' : Pocket} (hid : pk.id = pk'.id) (hmsg : pk.msg = pk'.msg) :
    pk = pk' := by
  have hlen : pk.length = pk'.length :=
    BitVec.eq_of_toNat_eq (by rw [← pk.msg_length, ← pk'.msg_length, hmsg])
  cases pk; cases pk'
  simp_all

/-- `TcpClient::MakePocket`: `strlen` is stored into an `unsigned int`, and that
many bytes are copied. -/
def makePocket (msg : List CChar) (msgid : CUInt) : Pocket where
  length := BitVec.ofNat 32 (strlen msg)
  id := msgid
  msg := msg.take (BitVec.ofNat 32 (strlen msg)).toNat
  msg_length := by
    rw [List.length_take, Nat.min_eq_left]
    exact Nat.le_trans (by rw [BitVec.toNat_ofNat]; exact Nat.mod_le _ _) (strlen_le msg)

@[simp] theorem makePocket_id (msg : List CChar) (msgid : CUInt) :
    (makePocket msg msgid).id = msgid := rfl

theorem makePocket_length_toNat (msg : List CChar) (msgid : CUInt) :
    (makePocket msg msgid).length.toNat = strlen msg % 2 ^ 32 :=
  BitVec.toNat_ofNat ..

/-- Below 4 GiB a pocket holds the whole C string and no byte after it. -/
theorem makePocket_msg {msg : List CChar} {msgid : CUInt} (h : strlen msg < 2 ^ 32) :
    (makePocket msg msgid).msg = msg.takeWhile (· ≠ 0) := by
  have hn : (BitVec.ofNat 32 (strlen msg)).toNat = strlen msg := by
    rw [BitVec.toNat_ofNat, Nat.mod_eq_of_lt h]
  show msg.take (BitVec.ofNat 32 (strlen msg)).toNat = _
  rw [hn, strlen]
  exact (List.prefix_iff_eq_take.mp (List.takeWhile_prefix _)).symm

theorem makePocket_msg_of_nul_free {msg : List CChar} {msgid : CUInt} (h : 0 ∉ msg)
    (hlen : msg.length < 2 ^ 32) : (makePocket msg msgid).msg = msg := by
  rw [makePocket_msg (by rwa [strlen_of_nul_free h]), takeWhile_eq_self_of_nul_free h]

/-! ## Queues -/

/-- `Queue`: the `std::vector` of pockets. -/
structure Queue where
  pks : List Pocket
deriving DecidableEq

namespace Queue

/-- The queue the constructor makes. -/
def empty : Queue := ⟨[]⟩

/-- `Queue::PushPocket`. -/
def pushPocket (q : Queue) (pk : Pocket) : Queue := ⟨q.pks ++ [pk]⟩

/-- `Queue::PullPocket`: the first pocket, or `nullptr` from an empty queue. -/
def pullPocket (q : Queue) : Option Pocket × Queue :=
  match q.pks with
  | [] => (none, q)
  | pk :: pks => (some pk, ⟨pks⟩)

/-- `Queue::getSize`: the vector's size, returned as an `int`. -/
def getSize (q : Queue) : Int := (BitVec.ofNat 32 q.pks.length).toInt

@[simp] theorem pks_pushPocket (q : Queue) (pk : Pocket) : (q.pushPocket pk).pks = q.pks ++ [pk] :=
  rfl

theorem pullPocket_of_nil {q : Queue} (h : q.pks = []) : q.pullPocket = (none, q) := by
  simp [pullPocket, h]

theorem pullPocket_of_cons {q : Queue} {pk : Pocket} {pks : List Pocket} (h : q.pks = pk :: pks) :
    q.pullPocket = (some pk, ⟨pks⟩) := by
  simp [pullPocket, h]

/-- A positive `getSize` means that there is a pocket to pull. -/
theorem ne_nil_of_getSize_pos {q : Queue} (h : 0 < q.getSize) : q.pks ≠ [] := by
  intro hnil
  simp [getSize, hnil] at h

end Queue

end SurvivalGame
