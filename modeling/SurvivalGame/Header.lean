import SurvivalGame.Pocket
import Mathlib.Tactic.IntervalCases

/-! # The frame header

Ten bytes go before the body of a pocket: the package length (16 bits), the
message id (32 bits) and the length of the message content (32 bits), each low
byte first.  `TcpClient::sendFunc` writes them one masked byte at a time and
`TcpClient::recvFunc` puts them together again from `char`s.

`char` is signed, so a byte of 0x80 or more is promoted to a negative `int`, all
of whose higher bits are set.  The reader masks the low byte of a 32-bit field
and none of the others, and no byte of the 16-bit field: what it reads is the
field with every bit above a set sign bit set as well (`word_bytes`,
`protobufLength_header`).
-/
namespace SurvivalGame

/-! ## The two directions, as the source has them -/

/-- The integer promotion of a `char`, which is signed. -/
def promote (c : CChar) : BitVec 32 := c.signExtend 32

/-- The byte stored by `sendData[i] = x & 0xff`. -/
def lowByte (x : CUInt) : CChar := (x &&& 0xff#32).setWidth 8

/-- `sendData[0]` to `sendData[9]`. -/
def header (length id : CUInt) : List CChar :=
  [ lowByte (length + 8),
    lowByte ((length + 8) >>> 8),
    lowByte id,
    lowByte (id >>> 8),
    lowByte (id >>> 16),
    lowByte (id >>> 24),
    lowByte length,
    lowByte (length >>> 8),
    lowByte (length >>> 16),
    lowByte (length >>> 24) ]

/-- The expression that reads a 32-bit field: only the first byte is masked. -/
def word (b₀ b₁ b₂ b₃ : CChar) : CUInt :=
  (promote b₀ &&& 0xff#32) ||| promote b₁ <<< 8 ||| promote b₂ <<< 16 ||| promote b₃ <<< 24

/-- `unsigned short protobufLength = recvHeadBuf[0] | recvHeadBuf[1] << 8`. -/
def protobufLength (recvHeadBuf : List CChar) : BitVec 16 :=
  (promote (recvHeadBuf.getD 0 0) ||| promote (recvHeadBuf.getD 1 0) <<< 8).setWidth 16

/-- `unsigned int msgId`. -/
def msgId (recvHeadBuf : List CChar) : CUInt :=
  word (recvHeadBuf.getD 2 0) (recvHeadBuf.getD 3 0) (recvHeadBuf.getD 4 0) (recvHeadBuf.getD 5 0)

/-- `unsigned int protocol`: the field that becomes `msgLen`. -/
def protocol (recvHeadBuf : List CChar) : CUInt :=
  word (recvHeadBuf.getD 6 0) (recvHeadBuf.getD 7 0) (recvHeadBuf.getD 8 0) (recvHeadBuf.getD 9 0)

@[simp] theorem header_length (length id : CUInt) : (header length id).length = 10 := rfl

/-! ## Bits -/

theorem getLsbD_ff {i : Nat} (hi : i < 32) : (0xff#32).getLsbD i = decide (i < 8) := by
  interval_cases i <;> rfl

theorem getLsbD_lowByte (x : CUInt) (i : Nat) :
    (lowByte x).getLsbD i = (decide (i < 8) && x.getLsbD i) := by
  by_cases hi : i < 8
  · simp only [lowByte, BitVec.getLsbD_setWidth, BitVec.getLsbD_and,
      getLsbD_ff (Nat.lt_trans hi (by decide : 8 < 32)), hi, decide_true, Bool.and_true,
      Bool.true_and]
  · simp [lowByte, hi]

/-- Every bit of a promoted `char` from the eighth on is its sign bit. -/
theorem getLsbD_promote (c : CChar) {i : Nat} (hi : i < 32) :
    (promote c).getLsbD i = c.getLsbD (min i 7) := by
  rw [promote, BitVec.getLsbD_signExtend]
  by_cases h : i < 8
  · simp [h, hi, Nat.min_eq_left (Nat.le_of_lt_succ h)]
  · simp [h, hi, BitVec.msb_eq_getLsbD_last, Nat.min_eq_right (by omega : 7 ≤ i)]

/-- A byte of `x`, promoted and shifted back into place: the bits above it repeat
its sign bit. -/
theorem getLsbD_promote_lowByte (x : CUInt) (k : Nat) {i : Nat} (hi : i < 32) :
    (promote (lowByte (x >>> k)) <<< k).getLsbD i =
      (decide (k ≤ i) && x.getLsbD (min i (k + 7))) := by
  rw [BitVec.getLsbD_shiftLeft]
  by_cases hk : k ≤ i
  · have hmin : k + min (i - k) 7 = min i (k + 7) := by omega
    rw [getLsbD_promote _ (by omega), getLsbD_lowByte, BitVec.getLsbD_ushiftRight, hmin]
    simp [hi, hk, Nat.not_lt.mpr hk]
  · simp [hk, Nat.lt_of_not_le hk]

theorem getLsbD_promote_lowByte_zero (x : CUInt) {i : Nat} (hi : i < 32) :
    (promote (lowByte x)).getLsbD i = x.getLsbD (min i 7) := by
  have h := getLsbD_promote_lowByte x 0 hi
  simpa only [BitVec.shiftLeft_zero, BitVec.ushiftRight_zero, Nat.zero_add, Nat.zero_le,
    decide_true, Bool.true_and] using h

/-- The bits that the sign bits of the two middle bytes add to a 32-bit field. -/
def smear (x : CUInt) : CUInt :=
  (if x.getLsbD 15 then 0xffff0000 else 0) ||| (if x.getLsbD 23 then 0xff000000 else 0)

theorem getLsbD_smear (x : CUInt) {i : Nat} (hi : i < 32) :
    (smear x).getLsbD i = (decide (16 ≤ i) && x.getLsbD 15 || decide (24 ≤ i) && x.getLsbD 23) := by
  unfold smear
  cases x.getLsbD 15 <;> cases x.getLsbD 23 <;> interval_cases i <;> rfl

/-- **What the reader makes of a 32-bit field**, for every value of it. -/
theorem word_bytes (x : CUInt) :
    word (lowByte x) (lowByte (x >>> 8)) (lowByte (x >>> 16)) (lowByte (x >>> 24)) =
      x ||| smear x := by
  apply BitVec.eq_of_getLsbD_eq
  intro i hi
  simp only [word, BitVec.getLsbD_or, BitVec.getLsbD_and, getLsbD_promote_lowByte_zero x hi,
    getLsbD_promote_lowByte x _ hi, getLsbD_smear x hi, getLsbD_ff hi]
  -- one case for each byte of the field
  rcases (by omega : i < 8 ∨ (8 ≤ i ∧ i < 16) ∨ (16 ≤ i ∧ i < 24) ∨ 24 ≤ i) with h | h | h | h
  · simp [h, Nat.min_eq_left (by omega : i ≤ 7), show ¬ 8 ≤ i by omega, show ¬ 16 ≤ i by omega,
      show ¬ 24 ≤ i by omega]
  · simp [h, Nat.min_eq_left (by omega : i ≤ 15), show ¬ i < 8 by omega, show ¬ 16 ≤ i by omega,
      show ¬ 24 ≤ i by omega]
  · simp [h, Nat.min_eq_left (by omega : i ≤ 23), Nat.min_eq_right (by omega : 15 ≤ i),
      show ¬ i < 8 by omega, show 8 ≤ i by omega, show ¬ 24 ≤ i by omega, Bool.or_comm]
  · simp [h, Nat.min_eq_left (by omega : i ≤ 31), Nat.min_eq_right (by omega : 23 ≤ i),
      Nat.min_eq_right (by omega : 15 ≤ i), show ¬ i < 8 by omega, show 8 ≤ i by omega,
      show 16 ≤ i by omega, Bool.or_comm]

@[simp] theorem msgId_header (length id : CUInt) : msgId (header length id) = id ||| smear id :=
  word_bytes id

@[simp] theorem protocol_header (length id : CUInt) :
    protocol (header length id) = length ||| smear length :=
  word_bytes length

/-- **What the reader makes of the 16-bit field**: its low byte is not masked
either. -/
theorem protobufLength_header (length id : CUInt) : protobufLength (header length id) =
    (length + 8).setWidth 16 ||| (if (length + 8).getLsbD 7 then 0xff00 else 0) := by
  apply BitVec.eq_of_getLsbD_eq
  intro i hi
  have hi' : i < 32 := by omega
  have hmask : (if (length + 8).getLsbD 7 then 0xff00#16 else 0).getLsbD i =
      (decide (8 ≤ i) && (length + 8).getLsbD 7) := by
    cases (length + 8).getLsbD 7 <;> interval_cases i <;> rfl
  show (BitVec.setWidth 16 (promote (lowByte (length + 8)) |||
    promote (lowByte ((length + 8) >>> 8)) <<< 8)).getLsbD i = _
  simp only [BitVec.getLsbD_setWidth, BitVec.getLsbD_or, getLsbD_promote_lowByte_zero _ hi',
    getLsbD_promote_lowByte _ _ hi', hi, decide_true, Bool.true_and]
  refine Eq.trans ?_ (congrArg ((length + 8).getLsbD i || ·) hmask.symm)
  by_cases h : i < 8
  · simp [Nat.min_eq_left (by omega : i ≤ 7), show ¬ 8 ≤ i by omega]
  · simp [Nat.min_eq_left (by omega : i ≤ 15), Nat.min_eq_right (by omega : 7 ≤ i),
      show 8 ≤ i by omega, Bool.or_comm]

/-! ## Values that survive -/

/-- Bit `k` as arithmetic. -/
theorem getLsbD_iff_le_mod {w : Nat} (x : BitVec w) (k : Nat) :
    x.getLsbD k = true ↔ 2 ^ k ≤ x.toNat % 2 ^ (k + 1) := by
  rw [BitVec.getLsbD, Nat.testBit_eq_decide_div_mod_eq, decide_eq_true_eq]
  have hmod : x.toNat % 2 ^ (k + 1) = x.toNat % 2 ^ k + 2 ^ k * (x.toNat / 2 ^ k % 2) := by
    rw [Nat.pow_succ, Nat.mod_mul]
  have hlt : x.toNat % 2 ^ k < 2 ^ k := Nat.mod_lt _ (Nat.two_pow_pos k)
  rcases Nat.mod_two_eq_zero_or_one (x.toNat / 2 ^ k) with h | h
  · rw [hmod, h]; omega
  · rw [hmod, h]; omega

/-- Setting the bits of a number from `k` on changes nothing exactly when they
are set already. -/
theorem or_highMask_eq_iff {w k q : Nat} (hq : 2 ^ k * q + 2 ^ k = 2 ^ w) (x : BitVec w) :
    x ||| BitVec.ofNat w (2 ^ k * q) = x ↔ 2 ^ k * q ≤ x.toNat := by
  have hpos := Nat.two_pow_pos k
  have hm : (BitVec.ofNat w (2 ^ k * q)).toNat = 2 ^ k * q := by
    rw [BitVec.toNat_ofNat, Nat.mod_eq_of_lt (by omega)]
  constructor
  · intro h
    rw [← h, BitVec.toNat_or, hm]
    exact Nat.right_le_or
  · intro h
    apply BitVec.eq_of_toNat_eq
    obtain ⟨r, hr⟩ := Nat.exists_eq_add_of_le h
    have hr' : r < 2 ^ k := by have := x.isLt; omega
    rw [BitVec.toNat_or, hm, hr, Nat.two_pow_add_eq_or_of_lt hr', Nat.or_comm _ r, Nat.or_assoc,
      Nat.or_self]

theorem or_or_eq_iff {w : Nat} (x a b : BitVec w) :
    x ||| (a ||| b) = x ↔ x ||| a = x ∧ x ||| b = x := by
  constructor
  · intro h
    constructor
    · calc x ||| a = x ||| (a ||| b) ||| a := by rw [h]
        _ = x ||| (a ||| b) := by
          rw [BitVec.or_assoc, BitVec.or_comm (a ||| b), ← BitVec.or_assoc a, BitVec.or_self]
        _ = x := h
    · calc x ||| b = x ||| (a ||| b) ||| b := by rw [h]
        _ = x ||| (a ||| b) := by rw [BitVec.or_assoc, BitVec.or_assoc, BitVec.or_self]
        _ = x := h
  · rintro ⟨ha, hb⟩
    rw [← BitVec.or_assoc, ha, hb]

theorem or_ite_eq_iff {w : Nat} (x m : BitVec w) (b : Bool) :
    x ||| (if b then m else 0) = x ↔ b = false ∨ x ||| m = x := by
  cases b <;> simp

/-- The 32-bit fields that the reader gets back unchanged: no sign bit of a
middle byte is set, or every bit above it is set anyway. -/
def Survives (x : CUInt) : Prop :=
  (x.toNat % 2 ^ 16 < 2 ^ 15 ∨ 2 ^ 32 - 2 ^ 16 ≤ x.toNat) ∧
    (x.toNat % 2 ^ 24 < 2 ^ 23 ∨ 2 ^ 32 - 2 ^ 24 ≤ x.toNat)

instance (x : CUInt) : Decidable (Survives x) := inferInstanceAs (Decidable (_ ∧ _))

theorem or_smear_eq_iff (x : CUInt) : x ||| smear x = x ↔ Survives x := by
  have h15 := getLsbD_iff_le_mod x 15
  have h23 := getLsbD_iff_le_mod x 23
  have m16 := or_highMask_eq_iff (w := 32) (k := 16) (q := 0xffff) rfl x
  have m24 := or_highMask_eq_iff (w := 32) (k := 24) (q := 0xff) rfl x
  rw [smear, or_or_eq_iff, or_ite_eq_iff, or_ite_eq_iff, Survives, ← Bool.not_eq_true, h15,
    ← Bool.not_eq_true, h23, Nat.not_le, Nat.not_le]
  exact and_congr (or_congr_right m16) (or_congr_right m24)

theorem Survives.of_lt {x : CUInt} (h : x.toNat < 2 ^ 15) : Survives x := by
  unfold Survives; omega

theorem msb_or_smear (x : CUInt) :
    (x ||| smear x).msb = (x.getLsbD 15 || x.getLsbD 23 || x.getLsbD 31) := by
  rw [BitVec.msb_eq_getLsbD_last, BitVec.getLsbD_or, getLsbD_smear x (by decide)]
  cases x.getLsbD 15 <;> cases x.getLsbD 23 <;> cases x.getLsbD 31 <;> rfl

theorem protobufLength_header_eq_iff (length id : CUInt) :
    protobufLength (header length id) = (length + 8).setWidth 16 ↔
      (length + 8).toNat % 2 ^ 8 < 2 ^ 7 ∨ 0xff00 ≤ (length + 8).toNat % 2 ^ 16 := by
  have h7 := getLsbD_iff_le_mod (length + 8) 7
  have m8 := or_highMask_eq_iff (w := 16) (k := 8) (q := 0xff) rfl ((length + 8).setWidth 16)
  rw [BitVec.toNat_setWidth] at m8
  rw [protobufLength_header, or_ite_eq_iff, ← Bool.not_eq_true, h7, Nat.not_le]
  exact or_congr_right m8

/-- The set bits only make the 16-bit field larger, so a body whose length has a
clear bit 15 is never taken for an empty package. -/
theorem six_lt_protobufLength {length id : CUInt} (h : length.toNat % 2 ^ 16 < 2 ^ 15) :
    6 < (protobufLength (header length id)).toNat := by
  have hy : ((length + 8).setWidth 16).toNat = length.toNat % 2 ^ 16 + 8 := by
    rw [BitVec.toNat_setWidth, BitVec.toNat_add]
    show (length.toNat + 8) % 2 ^ 32 % 2 ^ 16 = _
    omega
  rw [protobufLength_header, BitVec.toNat_or, hy]
  exact Nat.lt_of_lt_of_le (by omega) Nat.left_le_or

/-- **The exact domain of the header codec.**  Among the lengths that fit the
16-bit field, the three decoded values are the three encoded ones exactly when
the id survives, the length stays below 2^15, and the low byte of the package
length has a clear sign bit. -/
theorem header_roundTrip_iff (id length : CUInt) (hn : length.toNat + 8 < 2 ^ 16) :
    (msgId (header length id) = id ∧ protocol (header length id) = length ∧
      (protobufLength (header length id)).toNat = length.toNat + 8) ↔
    (Survives id ∧ length.toNat < 2 ^ 15 ∧ (length.toNat + 8) % 2 ^ 8 < 2 ^ 7) := by
  have hy : (length + 8).toNat = length.toNat + 8 := by
    rw [BitVec.toNat_add]
    exact Nat.mod_eq_of_lt (by show length.toNat + 8 < 2 ^ 32; omega)
  have hset : ((length + 8).setWidth 16).toNat = length.toNat + 8 := by
    rw [BitVec.toNat_setWidth, hy, Nat.mod_eq_of_lt hn]
  have hp : (protobufLength (header length id)).toNat = length.toNat + 8 ↔
      (length.toNat + 8) % 2 ^ 8 < 2 ^ 7 ∨ 0xff00 ≤ length.toNat + 8 := by
    rw [← hset, BitVec.toNat_inj, protobufLength_header_eq_iff, hy, hset, Nat.mod_eq_of_lt hn]
  rw [hp, msgId_header, or_smear_eq_iff, protocol_header, or_smear_eq_iff]
  unfold Survives
  omega

theorem header_roundTrip_login : Survives 10001 ∧
    (msgId (header 100 10001) = 10001 ∧ protocol (header 100 10001) = 100 ∧
      (protobufLength (header 100 10001)).toNat = 108) :=
  ⟨by decide, (header_roundTrip_iff 10001 100 (by decide)).mpr (by decide)⟩

/-- Id 32768 on an empty body is read back as 0xffff8000. -/
theorem header_roundTrip_fails : (1 : CUInt) ≤ 0x8000 ∧ (0 : CUInt).toNat + 8 < 2 ^ 16 ∧
    ¬ (msgId (header 0 0x8000) = 0x8000 ∧ protocol (header 0 0x8000) = 0 ∧
      (protobufLength (header 0 0x8000)).toNat = (0 : CUInt).toNat + 8) := by
  decide

end SurvivalGame
