import SurvivalGame.Base128
import SurvivalGame.Pocket

/-! # Writing numbers

The number formats of `io::CodedOutputStream`, as its `ToArray` functions write
them, and the sizes that are computed before anything is written
(`VarintSize32`, `VarintSize64`): `log2` times nine, plus 73, divided by 64 instead
of by seven.

An `int32` is written with its sign extended to 64 bits, so that a negative one
takes all ten bytes.
-/
namespace SurvivalGame

/-! ## As the source has them -/

/-- The loop that `WriteVarint32ToArray` and `WriteVarint64ToArray` share, with a
bound on the turns it takes. -/
def writeVarintLoop {w : Nat} : Nat → BitVec w → List CChar
  | 0, value => [value.setWidth 8]
  | turns + 1, value =>
    if 0x80#w ≤ value then
      (value ||| 0x80#w).setWidth 8 :: writeVarintLoop turns (value >>> 7)
    else [value.setWidth 8]

/-- `CodedOutputStream::WriteVarint32ToArray`: at most `kMaxVarint32Bytes` = 5 bytes. -/
def writeVarint32ToArray (value : CUInt) : List CChar := writeVarintLoop 4 value

/-- `CodedOutputStream::WriteVarint64ToArray`: at most `kMaxVarintBytes` = 10 bytes. -/
def writeVarint64ToArray (value : BitVec 64) : List CChar := writeVarintLoop 9 value

/-- `CodedOutputStream::WriteVarint32SignExtendedToArray`: the cast to `uint64` of a
negative `int32` sets the 32 high bits. -/
def writeVarint32SignExtendedToArray (value : BitVec 32) : List CChar :=
  writeVarint64ToArray (value.signExtend 64)

/-- `CodedOutputStream::WriteTagToArray`. -/
def writeTagToArray (value : CUInt) : List CChar := writeVarint32ToArray value

/-- `CodedOutputStream::WriteLittleEndian32ToArray`. -/
def writeLittleEndian32ToArray (value : BitVec 32) : List CChar :=
  [value.setWidth 8, (value >>> 8).setWidth 8, (value >>> 16).setWidth 8, (value >>> 24).setWidth 8]

/-- `CodedOutputStream::WriteLittleEndian64ToArray`: the low half, then the high half. -/
def writeLittleEndian64ToArray (value : BitVec 64) : List CChar :=
  writeLittleEndian32ToArray (value.setWidth 32) ++
    writeLittleEndian32ToArray ((value >>> 32).setWidth 32)

/-- `CodedOutputStream::WriteStringWithSizeToArray`: the size goes through a `uint32`. -/
def writeStringWithSizeToArray (str : List CChar) : List CChar :=
  writeVarint32ToArray (BitVec.ofNat 32 str.length) ++ str

/-- `CodedOutputStream::VarintSize32`; `Bits::Log2FloorNonZero` is `Nat.log2`. -/
def varintSize32 (value : CUInt) : Nat := ((value ||| 1).toNat.log2 * 9 + 73) / 64

/-- `CodedOutputStream::VarintSize64`. -/
def varintSize64 (value : BitVec 64) : Nat := ((value ||| 1).toNat.log2 * 9 + 73) / 64

/-- `CodedOutputStream::VarintSize32SignExtended`. -/
def varintSize32SignExtended (value : BitVec 32) : Nat :=
  if value.slt 0#32 then 10 else varintSize32 value

/-- `WireFormatLite::LengthDelimitedSize`. -/
def lengthDelimitedSize (length : Nat) : Nat := length + varintSize32 (BitVec.ofNat 32 length)

/-! ## What the loop writes -/

theorem toNat_shiftRight_seven {w : Nat} (value : BitVec w) :
    (value >>> 7).toNat = value.toNat / 128 := by
  rw [BitVec.toNat_ushiftRight, Nat.shiftRight_eq_div_pow]

theorem or_high (c : CChar) : c ||| 0x80#8 = BitVec.ofNat 8 (c.toNat % 128 + 128) := by
  decide +revert

theorem toNat_high {w : Nat} (hw : 8 ≤ w) : (0x80#w).toNat = 128 := by
  rw [BitVec.toNat_ofNat]
  exact Nat.mod_eq_of_lt (Nat.lt_of_lt_of_le (by decide) (Nat.pow_le_pow_right (by decide) hw))

/-- Setting the high bit of the low byte. -/
theorem setWidth_or_high {w : Nat} (hw : 8 ≤ w) (value : BitVec w) :
    (value ||| 0x80#w).setWidth 8 = BitVec.ofNat 8 (value.toNat % 128 + 128) := by
  have hlit : (0x80#w).setWidth 8 = 0x80#8 := by
    apply BitVec.eq_of_toNat_eq
    rw [BitVec.toNat_setWidth, toNat_high hw]
    rfl
  rw [BitVec.setWidth_or, hlit, or_high, BitVec.toNat_setWidth, Nat.mod_mod_of_dvd _ (by decide)]

/-- **The loop writes base 128**, as long as it has turns enough. -/
theorem writeVarintLoop_eq_encode {w : Nat} (hw : 8 ≤ w) {turns : Nat} {value : BitVec w}
    (h : value.toNat < 128 ^ (turns + 1)) :
    writeVarintLoop turns value = Base128.encode (turns + 1) value.toNat := by
  induction turns generalizing value with
  | zero =>
    rw [Base128.encode_last (by simpa using h), BitVec.ofNat_toNat]
    rfl
  | succ turns ih =>
    have hle_iff : 0x80#w ≤ value ↔ 128 ≤ value.toNat := by rw [BitVec.le_def, toNat_high hw]
    rw [writeVarintLoop]
    split
    · next hle =>
      rw [Base128.encode_more (hle_iff.mp hle), ← toNat_shiftRight_seven, setWidth_or_high hw, ih]
      rw [toNat_shiftRight_seven]
      exact Base128.div_lt_pow h
    · next hle =>
      rw [hle_iff] at hle
      rw [Base128.encode_last (by omega), BitVec.ofNat_toNat]

theorem writeVarint32ToArray_eq (value : CUInt) :
    writeVarint32ToArray value = Base128.encode 5 value.toNat :=
  writeVarintLoop_eq_encode (by decide) (Nat.lt_trans value.isLt (by decide))

theorem writeVarint64ToArray_eq (value : BitVec 64) :
    writeVarint64ToArray value = Base128.encode 10 value.toNat :=
  writeVarintLoop_eq_encode (by decide) (Nat.lt_trans value.isLt (by decide))

/-- Five bytes hold a `uint32`, so writing it as a `uint64` makes no difference. -/
theorem writeVarint32ToArray_eq_encode (value : CUInt) :
    writeVarint32ToArray value = Base128.encode 10 value.toNat := by
  rw [writeVarint32ToArray_eq]
  exact Base128.encode_eq_encode (Nat.lt_trans value.isLt (by decide))
    (Nat.lt_trans value.isLt (by decide))

/-! ## The sizes are the lengths -/

theorem log2_or_one (n : Nat) : (n ||| 1).log2 = n.log2 := by
  rcases Nat.eq_zero_or_pos n with rfl | hn
  · rfl
  · have hor : n ≤ n ||| 1 := Nat.left_le_or
    rw [Nat.log2_eq_iff (by omega)]
    constructor
    · exact Nat.le_trans (Nat.log2_self_le (by omega)) hor
    · exact Nat.or_lt_two_pow Nat.lt_log2_self (Nat.one_lt_two_pow (Nat.succ_ne_zero _))

theorem log2_toNat_lt {w : Nat} (hw : 0 < w) (value : BitVec w) : value.toNat.log2 < w := by
  rcases Nat.eq_zero_or_pos value.toNat with h | h
  · rwa [h]
  · exact (Nat.log2_lt (by omega)).mpr value.isLt

/-- Times nine, plus 73, by 64: a division by seven as far as 64 bits go. -/
theorem mul_nine_div (log2value : Nat) (h : log2value < 64) :
    (log2value * 9 + 73) / 64 = log2value / 7 + 1 := by
  omega

theorem varintSize32_eq (value : CUInt) : varintSize32 value = value.toNat.log2 / 7 + 1 := by
  have hlog := log2_toNat_lt (by decide) value
  rw [varintSize32, BitVec.toNat_or, show (1 : CUInt).toNat = 1 from rfl, log2_or_one,
    mul_nine_div _ (by omega)]

theorem varintSize64_eq (value : BitVec 64) :
    varintSize64 value = value.toNat.log2 / 7 + 1 := by
  have hlog := log2_toNat_lt (by decide) value
  rw [varintSize64, BitVec.toNat_or, show (1 : BitVec 64).toNat = 1 from rfl, log2_or_one,
    mul_nine_div _ hlog]

/-- **`VarintSize32` is the number of bytes written.** -/
theorem length_writeVarint32ToArray (value : CUInt) :
    (writeVarint32ToArray value).length = varintSize32 value := by
  rw [writeVarint32ToArray_eq, varintSize32_eq,
    Base128.length_encode (Nat.lt_trans value.isLt (by decide))]

theorem length_writeVarint64ToArray (value : BitVec 64) :
    (writeVarint64ToArray value).length = varintSize64 value := by
  rw [writeVarint64ToArray_eq, varintSize64_eq,
    Base128.length_encode (Nat.lt_trans value.isLt (by decide))]

theorem toNat_signExtend_of_neg {value : BitVec 32} (h : value.msb = true) :
    (value.signExtend 64).toNat = value.toNat + (2 ^ 64 - 2 ^ 32) := by
  rw [BitVec.toNat_signExtend, if_pos h, BitVec.toNat_setWidth,
    Nat.mod_eq_of_lt (Nat.lt_trans value.isLt (by decide))]

theorem toNat_signExtend_of_nonneg {value : BitVec 32} (h : value.msb = false) :
    (value.signExtend 64).toNat = value.toNat := by
  rw [BitVec.signExtend_eq_setWidth_of_msb_false h, BitVec.toNat_setWidth,
    Nat.mod_eq_of_lt (Nat.lt_trans value.isLt (by decide))]

theorem setWidth_signExtend (value : BitVec 32) : (value.signExtend 64).setWidth 32 = value := by
  ext i hi
  rw [BitVec.getElem_setWidth, BitVec.getLsbD_signExtend, if_pos hi, BitVec.getLsbD_eq_getElem hi,
    decide_eq_true (by omega), Bool.true_and]

/-- A negative `int32` fills all 64 bits, hence ten bytes. -/
theorem length_writeVarint32SignExtendedToArray (value : BitVec 32) :
    (writeVarint32SignExtendedToArray value).length = varintSize32SignExtended value := by
  rw [writeVarint32SignExtendedToArray, length_writeVarint64ToArray, varintSize64_eq,
    varintSize32SignExtended, BitVec.slt_zero_eq_msb]
  cases hmsb : value.msb with
  | false => rw [toNat_signExtend_of_nonneg hmsb, ← varintSize32_eq]; rfl
  | true =>
    have hlog : (value.signExtend 64).toNat.log2 = 63 := by
      rw [Nat.log2_eq_iff] <;> rw [toNat_signExtend_of_neg hmsb]
      · have := value.isLt
        omega
      · omega
    rw [hlog]
    rfl

@[simp] theorem length_writeLittleEndian32ToArray (value : BitVec 32) :
    (writeLittleEndian32ToArray value).length = 4 := rfl

@[simp] theorem length_writeLittleEndian64ToArray (value : BitVec 64) :
    (writeLittleEndian64ToArray value).length = 8 := rfl

theorem length_writeStringWithSizeToArray (str : List CChar) :
    (writeStringWithSizeToArray str).length = lengthDelimitedSize str.length := by
  rw [writeStringWithSizeToArray, List.length_append, length_writeVarint32ToArray,
    lengthDelimitedSize, Nat.add_comm]

end SurvivalGame
