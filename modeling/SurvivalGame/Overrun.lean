import SurvivalGame.Receive

/-! # The receive buffers

`recvHeadBuf` has ten bytes and `msgBody` has `msgLen + 1`.  A `Recv` may write as
many bytes as it asks for, so the question is what each one asks for, and what
`new char[msgLen + 1]` is called with, when the bytes come from anywhere.

The body loop asks for what is missing.  The header loop asks for the size of a
pointer, and the length is used as it comes.  `safe_iff_keepsRoom` names the bytes
and the fragments with which nothing goes wrong: no fragment ends where that many
bytes would not fit, and no header says more than six bytes with the sign bit of
one of the upper three length bytes set.
-/
namespace SurvivalGame
open Transition

/-! ## What is asked for -/

/-- The size of the buffer that the pending `Recv` writes into. -/
def capacity : RecvPc → Nat
  | .body _ msgLen _ _ => msgLen + 1
  | _ => 10

/-- The pending `Recv` stays inside its buffer. -/
def InBounds (sizeofPtr : Nat) (pc : RecvPc) : Prop :=
  ∀ req ∈ request sizeofPtr pc, req.1 + req.2 ≤ capacity pc

instance (sizeofPtr : Nat) (pc : RecvPc) : Decidable (InBounds sizeofPtr pc) :=
  inferInstanceAs (Decidable (∀ req ∈ request sizeofPtr pc, _))

/-- How many header bytes there are when `k` more have come in. -/
def headerCount (k : Nat) : RecvPc → Option Nat
  | .head => some k
  | .headLoop _ recvLen => some (recvLen + k)
  | _ => none

/-- The header that the bytes `bs` complete, if they do. -/
def headerOf (bs : List CChar) : RecvPc → Option (List CChar)
  | .head => if bs.length < 10 then none else some (write (List.replicate 10 0) 0 bs)
  | .headLoop buf recvLen => if recvLen + bs.length < 10 then none else some (write buf recvLen bs)
  | _ => none

/-- In the body branch: the `int`s `msgLen` and `msgLen + 1`, the second of which
goes to `new char[]` and to `memset`. -/
def allocation (recvHeadBuf : List CChar) : Option (BitVec 32 × BitVec 32) :=
  if 6 < (protobufLength recvHeadBuf).toNat then
    some (protocol recvHeadBuf, protocol recvHeadBuf + 1)
  else none

/-- The length is not negative, the sum does not overflow, and it is what is
allocated. -/
def SoundAllocation (recvHeadBuf : List CChar) : Prop :=
  ∀ a ∈ allocation recvHeadBuf,
    0 ≤ a.1.toInt ∧ a.1.toInt + 1 < 2 ^ 31 ∧ a.2.toInt = a.1.toInt + 1

instance (recvHeadBuf : List CChar) : Decidable (SoundAllocation recvHeadBuf) :=
  Option.decidableForallMem (allocation recvHeadBuf)

/-- The header that a step of the receiver completes. -/
def Receiver.headerRead (r : Receiver) : RecvAct → Option (List CChar)
  | .recv (.took k) => headerOf (r.stream.take k) r.pc
  | _ => none

/-- A step that is safe: if it completes a header the allocation is sound, and the
`Recv` that is made next stays inside its buffer. -/
def Safe (sizeofPtr : Nat) (r : Receiver) (a : RecvAct) : Prop :=
  (∀ r' ∈ r.step sizeofPtr a, InBounds sizeofPtr r'.pc) ∧
    ∀ h ∈ r.headerRead a, SoundAllocation h

instance (sizeofPtr : Nat) (r : Receiver) (a : RecvAct) : Decidable (Safe sizeofPtr r a) :=
  inferInstanceAs (Decidable ((∀ r' ∈ r.step sizeofPtr a, _) ∧ ∀ h ∈ r.headerRead a, _))

/-! ## Which headers and fragments do no harm -/

/-- A header that announces no body, or whose three upper length bytes have clear
sign bits. -/
def PlainHeader (recvHeadBuf : List CChar) : Prop :=
  ((recvHeadBuf.getD 1 0) = 0 ∧ (recvHeadBuf.getD 0 0).toNat ≤ 6) ∨
    ((recvHeadBuf.getD 7 0).msb = false ∧ (recvHeadBuf.getD 8 0).msb = false ∧
      (recvHeadBuf.getD 9 0).msb = false)

instance (recvHeadBuf : List CChar) : Decidable (PlainHeader recvHeadBuf) :=
  inferInstanceAs (Decidable (_ ∨ _))

/-- How many header bytes there are after a step. -/
def Receiver.headerCount (r : Receiver) : RecvAct → Option Nat
  | .recv (.took k) => SurvivalGame.headerCount k r.pc
  | _ => none

/-- A fragment that leaves an incomplete header with room for the bytes that the loop
asks for, and completes a plain one. -/
def KeepsRoom (sizeofPtr : Nat) (r : Receiver) (a : RecvAct) : Prop :=
  (∀ n ∈ r.headerCount a, n < 10 → n + sizeofPtr ≤ 10) ∧ ∀ h ∈ r.headerRead a, PlainHeader h

instance (sizeofPtr : Nat) (r : Receiver) (a : RecvAct) : Decidable (KeepsRoom sizeofPtr r a) :=
  inferInstanceAs (Decidable ((∀ n ∈ r.headerCount a, _) ∧ ∀ h ∈ r.headerRead a, _))

/-! ## The length field of an arbitrary header -/

/-- Bit 15 of a 32-bit field as it is read: the sign bit of its second byte. -/
theorem getLsbD_word_fifteen (b₀ b₁ b₂ b₃ : CChar) : (word b₀ b₁ b₂ b₃).getLsbD 15 = b₁.msb := by
  simp only [word, BitVec.getLsbD_or, BitVec.getLsbD_and, BitVec.getLsbD_shiftLeft]
  rw [getLsbD_ff (by decide : 15 < 32), getLsbD_promote b₁ (by decide : 15 - 8 < 32)]
  simp [BitVec.msb_eq_getLsbD_last]

/-- The top bit of a 32-bit field as it is read: any of its upper sign bits. -/
theorem msb_word (b₀ b₁ b₂ b₃ : CChar) :
    (word b₀ b₁ b₂ b₃).msb = (b₁.msb || b₂.msb || b₃.msb) := by
  rw [BitVec.msb_eq_getLsbD_last]
  simp only [word, BitVec.getLsbD_or, BitVec.getLsbD_and, BitVec.getLsbD_shiftLeft]
  rw [getLsbD_ff (by decide), getLsbD_promote b₁ (by decide), getLsbD_promote b₂ (by decide),
    getLsbD_promote b₃ (by decide)]
  simp [BitVec.msb_eq_getLsbD_last]

/-- The 16-bit field as it is read says at most six exactly when its high byte is
zero and its low byte says so. -/
theorem protobufLength_le_six_iff (recvHeadBuf : List CChar) :
    (protobufLength recvHeadBuf).toNat ≤ 6 ↔
      (recvHeadBuf.getD 1 0) = 0 ∧ (recvHeadBuf.getD 0 0).toNat ≤ 6 := by
  have hlow : ∀ b : CChar, (((promote b ||| promote 0 <<< 8).setWidth 16).toNat ≤ 6) ↔
      b.toNat ≤ 6 := by decide
  rw [protobufLength]
  by_cases h : recvHeadBuf.getD 1 0 = 0
  · rw [h, hlow]
    exact (and_iff_right rfl).symm
  · refine iff_of_false (fun hle => h ?_) fun h' => h h'.1
    -- every bit of the high byte is a bit of the field that six does not have
    apply BitVec.eq_of_getLsbD_eq
    intro i hi
    by_contra hbit
    have hbit : (recvHeadBuf.getD 1 0).getLsbD i = true := by simpa using hbit
    have hset : ((promote (recvHeadBuf.getD 0 0) ||| promote (recvHeadBuf.getD 1 0) <<< 8).setWidth
        16).toNat.testBit (i + 8) = true := by
      rw [BitVec.testBit_toNat, BitVec.getLsbD_setWidth, BitVec.getLsbD_or,
        BitVec.getLsbD_shiftLeft, Nat.add_sub_cancel, getLsbD_promote _ (by omega : i < 32),
        Nat.min_eq_left (by omega : i ≤ 7), hbit]
      simp
      omega
    have := Nat.ge_two_pow_of_testBit hset
    have := Nat.pow_le_pow_right (by decide : 0 < 2) (Nat.le_add_left 8 i)
    omega

/-- **The headers whose allocation is sound**, whatever the ten bytes are.  With
clear sign bits the length stays below 2^31 - 1 because its bit 15 is clear. -/
theorem soundAllocation_iff (recvHeadBuf : List CChar) :
    SoundAllocation recvHeadBuf ↔ PlainHeader recvHeadBuf := by
  unfold SoundAllocation PlainHeader allocation
  rw [← protobufLength_le_six_iff]
  by_cases h6 : 6 < (protobufLength recvHeadBuf).toNat
  · rw [if_pos h6, or_iff_right (Nat.not_le_of_lt h6)]
    simp only [Option.mem_some_iff, forall_eq']
    have hmsb : (protocol recvHeadBuf).msb = _ := msb_word _ _ _ _
    have hbit : (protocol recvHeadBuf).getLsbD 15 = _ := getLsbD_word_fifteen _ _ _ _
    constructor
    · rintro ⟨hneg, -, -⟩
      have hclear : (protocol recvHeadBuf).msb = false := by
        by_contra hset
        have := BitVec.toInt_neg_of_msb_true (Bool.not_eq_false _ ▸ hset)
        omega
      rw [hclear] at hmsb
      simpa [and_assoc] using hmsb.symm
    · rintro ⟨h7, h8, h9⟩
      rw [h7, h8, h9] at hmsb
      rw [h7] at hbit
      have h15 := getLsbD_iff_le_mod (protocol recvHeadBuf) 15
      rw [hbit, iff_false_left Bool.false_ne_true] at h15
      have hlt := BitVec.msb_eq_false_iff_two_mul_lt.mp hmsb
      have hint : (protocol recvHeadBuf).toInt = (protocol recvHeadBuf).toNat :=
        BitVec.toInt_eq_toNat_of_lt (by omega)
      have hadd : (protocol recvHeadBuf + 1).toNat = (protocol recvHeadBuf).toNat + 1 := by
        rw [BitVec.toNat_add]
        exact Nat.mod_eq_of_lt (by show (protocol recvHeadBuf).toNat + 1 < 2 ^ 32; omega)
      have hint' : (protocol recvHeadBuf + 1).toInt = ((protocol recvHeadBuf).toNat + 1 : Nat) := by
        rw [BitVec.toInt_eq_toNat_of_lt (by omega), hadd]
      rw [hint, hint']
      omega
  · rw [if_neg h6]
    exact iff_of_true nofun (Or.inl (Nat.le_of_not_lt h6))

/-! ## Runs -/

theorem inBounds_decode (sizeofPtr : Nat) (recvHeadBuf : List CChar) :
    InBounds sizeofPtr (decode recvHeadBuf) := by
  rw [decode]
  split
  · split
    · intro req hreq
      cases hreq
    · split
      · rintro req ⟨⟩
        simp [capacity]
      · intro req hreq
        cases hreq
  · intro req hreq
    cases hreq

/-- Bytes that come in leave the next `Recv` in bounds exactly when an incomplete
header has room for what is asked for. -/
theorem inBounds_received {sizeofPtr off len : Nat} {pc : RecvPc} {bs : List CChar}
    (hpc : InBounds sizeofPtr pc) (hreq : request sizeofPtr pc = some (off, len))
    (hlen : bs.length ≤ len) : InBounds sizeofPtr (received bs pc).1 ↔
      ∀ n ∈ headerCount bs.length pc, n < 10 → n + sizeofPtr ≤ 10 := by
  have hroom : off + len ≤ capacity pc := hpc _ hreq
  cases pc with
  | idle => cases hreq
  | fault => cases hreq
  | head =>
    rw [received]
    split
    · rename_i hlt
      simp [InBounds, request, capacity, headerCount, hlt]
    · rename_i hge
      exact iff_of_true (inBounds_decode _ _) (by simp [headerCount]; omega)
  | headLoop buf recvLen =>
    rw [received]
    split
    · rename_i hlt
      simp [InBounds, request, capacity, headerCount, hlt]
    · rename_i hge
      exact iff_of_true (inBounds_decode _ _) (by simp [headerCount]; omega)
  | body msgId msgLen buf readSize =>
    refine iff_of_true ?_ (by simp [headerCount])
    have hlen : bs.length ≤ msgLen - readSize := by cases hreq; exact hlen
    have hroom : readSize + (msgLen - readSize) ≤ msgLen + 1 := by cases hreq; exact hroom
    rw [received]
    split
    · intro req hreq
      cases hreq
    · rintro req ⟨⟩
      simp only [capacity]
      omega

theorem InBounds.gaveUp {sizeofPtr : Nat} {pc : RecvPc} (h : InBounds sizeofPtr pc) :
    InBounds sizeofPtr (SurvivalGame.gaveUp pc) := by
  cases pc with
  | head => nofun
  | _ => exact h

namespace Receiver

theorem take_pc (r : Receiver) (k : Nat) : (r.take k).pc = (received (r.stream.take k) r.pc).1 := by
  rw [take]
  cases h : received (r.stream.take k) r.pc with
  | mk pc call => cases call <;> rfl

/-- **The step lemma.**  A step that is made with its own `Recv` in bounds is safe
exactly when its fragment keeps room. -/
theorem safe_iff_keepsRoom_step {sizeofPtr : Nat} {r r' : Receiver} {a : RecvAct}
    (hr : InBounds sizeofPtr r.pc) (h : r.step sizeofPtr a = some r') :
    Safe sizeofPtr r a ↔ KeepsRoom sizeofPtr r a := by
  have hnext : (∀ r' ∈ r.step sizeofPtr a, InBounds sizeofPtr r'.pc) ↔
      InBounds sizeofPtr r'.pc := by
    rw [h]
    simp
  rw [Safe, hnext]
  cases step_cases h with
  | call =>
    refine iff_of_true ⟨?_, nofun⟩ ⟨nofun, nofun⟩
    rintro req ⟨⟩
    exact Nat.le_refl 10
  | gaveUp hreq => exact iff_of_true ⟨hr.gaveUp, nofun⟩ ⟨nofun, nofun⟩
  | @took off len k hreq hlen hk =>
    have htake : (r.stream.take k).length = k := by rw [List.length_take, Nat.min_eq_left hk]
    rw [take_pc, inBounds_received hr hreq (by rwa [htake]), htake]
    exact and_congr_right fun _ => forall₂_congr fun bs _ => soundAllocation_iff bs

end Receiver

/-- **The receive buffers, for every stream and every fragmentation of it**: a run
is safe exactly when all its fragments keep room. -/
theorem safe_iff_keepsRoom {sizeofPtr : Nat} {stream : List CChar} {acts : List RecvAct}
    {r : Receiver}
    (h : run (Receiver.step sizeofPtr) (Receiver.init stream) acts = some r) :
    Along (Receiver.step sizeofPtr) (Safe sizeofPtr) (Receiver.init stream) acts ↔
      Along (Receiver.step sizeofPtr) (KeepsRoom sizeofPtr) (Receiver.init stream) acts := by
  refine Along.iff_of_run (I := fun r => InBounds sizeofPtr r.pc)
    (fun _ _ _ hr hstep => Receiver.safe_iff_keepsRoom_step hr hstep)
    (fun _ _ _ _ hsafe hstep => hsafe.1 _ hstep) h nofun

/-- A header of a body of three bytes in two fragments, and the body in two more. -/
theorem safe_iff_keepsRoom_fragments :
    Along (Receiver.step 4) (Safe 4) (Receiver.init (header 3 10001 ++ [97, 98, 0]))
      [.call, .recv (.took 6), .recv (.took 4), .recv (.took 1), .recv (.took 2)] :=
  (safe_iff_keepsRoom (r := ((run (Receiver.step 4) (Receiver.init (header 3 10001 ++ [97, 98, 0]))
    [.call, .recv (.took 6), .recv (.took 4), .recv (.took 1), .recv (.took 2)]).get (by decide)))
    (Option.some_get _).symm).mpr (by decide)

/-- Nine bytes of a header in one fragment: the loop asks for more bytes than the
one that is missing.  A header that says -1: nothing is allocated for it. -/
theorem receive_overruns :
    ¬ (∀ (stream : List CChar) (acts : List RecvAct) (r : Receiver),
      run (Receiver.step 4) (Receiver.init stream) acts = some r →
        Along (Receiver.step 4) (Safe 4) (Receiver.init stream) acts) ∧
    ¬ Along (Receiver.step 4) (Safe 4) (Receiver.init (header 3 10001)) [.call, .recv (.took 9)] ∧
    ¬ Along (Receiver.step 4) (Safe 4) (Receiver.init (header 0xffffffff 10001))
      [.call, .recv (.took 10)] := by
  refine ⟨fun h => ?_, by decide, by decide⟩
  have hrun : (run (Receiver.step 4) (Receiver.init (header 3 10001))
      [.call, .recv (.took 9)]).isSome = true := by decide
  exact absurd (h _ _ _ (Option.some_get hrun).symm) (by decide)

end SurvivalGame
