import SurvivalGame.Base128
import SurvivalGame.Pocket

/-! # The input stream

`io::CodedInputStream`: bytes between `buffer_` and `buffer_end_`, and behind them
the buffers that a `ZeroCopyInputStream` has not handed out yet.  A stream over one
array has no such input and ends with its buffer; a stream over a
`ZeroCopyInputStream` refills its buffer (`Refresh`) until that is exhausted or
`INT_MAX` bytes have been read.

A number is read by straight-line code from the buffer when the buffer cannot end
inside it, and otherwise by a loop that refills.  `ReadVarint32FromArray` and
`ReadVarint64FromArray` do not look at `buffer_end_`: what they read is memory from
`buffer_` on, and `overrun` is a read past it.

A limit ends the stream before its bytes do.  `buffer_end_` is then put in front of
the bytes of the buffer that are behind the limit.
-/
namespace SurvivalGame

/-- `INT_MAX`, which is also `kDefaultTotalBytesLimit`. -/
def intMax : Nat := 2 ^ 31 - 1

/-! ## Numbers out of an array -/

/-- How `ReadVarint32FromArray` and `ReadVarint64FromArray` end: past the memory
they were given, with `false`, or with a value and the pointer behind it. -/
inductive FromArray (α : Type)
  | overrun
  | corrupt
  | done (value : α) (ptr : List CChar)
deriving DecidableEq

/-- One line of them:
`b = *(ptr++); part += b << s; if (!(b & 0x80)) goto done; part -= 0x80 << s;` -/
def fromArrayLine {α : Type} (ptr : List CChar) (part : CUInt) (s : Nat)
    (done next : CUInt → List CChar → FromArray α) : FromArray α :=
  match ptr with
  | [] => .overrun
  | b :: ptr =>
    let part := part + b.setWidth 32 <<< s
    if b &&& 0x80#8 = 0 then done part ptr else next (part - 0x80#32 <<< s) ptr

/-- "We still need to read it all and discard the high-order bits": the loop over the
bytes behind the fifth. -/
def discardVarint (result : CUInt) : Nat → List CChar → FromArray CUInt
  | 0, _ => .corrupt
  | _ + 1, [] => .overrun
  | turns + 1, b :: ptr =>
    if b &&& 0x80#8 = 0 then .done result ptr else discardVarint result turns ptr

/-- `ReadVarint32FromArray`; that `result` is left alone behind its fifth line makes no
difference, for `0x80 << 28` is zero. -/
def readVarint32FromArray (first_byte : CUInt) (buffer : List CChar) : FromArray CUInt :=
  let result := first_byte - 0x80#32
  fromArrayLine (buffer.drop 1) result 7 .done fun result ptr =>
  fromArrayLine ptr result 14 .done fun result ptr =>
  fromArrayLine ptr result 21 .done fun result ptr =>
  fromArrayLine ptr result 28 .done fun result ptr =>
  discardVarint result 5 ptr

/-- The value that `ReadVarint64FromArray` puts together at its label `done`. -/
def joinParts (part0 part1 part2 : CUInt) : BitVec 64 :=
  part0.setWidth 64 ||| part1.setWidth 64 <<< 28 ||| part2.setWidth 64 <<< 56

/-- `ReadVarint64FromArray`: three pieces of 32 bits, four groups each. -/
def readVarint64FromArray (buffer : List CChar) : FromArray (BitVec 64) :=
  fromArrayLine buffer 0 0 (fun part0 => .done (joinParts part0 0 0)) fun part0 ptr =>
  fromArrayLine ptr part0 7 (fun part0 => .done (joinParts part0 0 0)) fun part0 ptr =>
  fromArrayLine ptr part0 14 (fun part0 => .done (joinParts part0 0 0)) fun part0 ptr =>
  fromArrayLine ptr part0 21 (fun part0 => .done (joinParts part0 0 0)) fun part0 ptr =>
  fromArrayLine ptr 0 0 (fun part1 => .done (joinParts part0 part1 0)) fun part1 ptr =>
  fromArrayLine ptr part1 7 (fun part1 => .done (joinParts part0 part1 0)) fun part1 ptr =>
  fromArrayLine ptr part1 14 (fun part1 => .done (joinParts part0 part1 0)) fun part1 ptr =>
  fromArrayLine ptr part1 21 (fun part1 => .done (joinParts part0 part1 0)) fun part1 ptr =>
  fromArrayLine ptr 0 0 (fun part2 => .done (joinParts part0 part1 part2)) fun part2 ptr =>
  fromArrayLine ptr part2 7 (fun part2 => .done (joinParts part0 part1 part2)) fun _ _ =>
  .corrupt

/-- `CodedInputStream::ReadLittleEndian32FromArray`, of four bytes or more. -/
def readLittleEndian32FromArray (buffer : List CChar) : BitVec 32 :=
  (buffer.getD 0 0).setWidth 32 ||| (buffer.getD 1 0).setWidth 32 <<< 8 |||
    (buffer.getD 2 0).setWidth 32 <<< 16 ||| (buffer.getD 3 0).setWidth 32 <<< 24

/-- `CodedInputStream::ReadLittleEndian64FromArray`, of eight bytes or more. -/
def readLittleEndian64FromArray (buffer : List CChar) : BitVec 64 :=
  (readLittleEndian32FromArray buffer).setWidth 64 |||
    (readLittleEndian32FromArray (buffer.drop 4)).setWidth 64 <<< 32

/-! ## The stream -/

/-- `CodedInputStream`.  The last buffer of the input goes on behind `buffer_end_` when
a limit is in it, and behind that when it goes beyond `INT_MAX`. -/
structure CodedInputStream where
  /-- From `buffer_` to `buffer_end_`. -/
  buffer : List CChar
  /-- The `buffer_size_after_limit_` bytes behind it. -/
  afterLimit : List CChar
  /-- The `overflow_bytes_` bytes behind those. -/
  overflow : List CChar
  /-- The buffers that `input_->Next` has still to return. -/
  input : List (List CChar)
  totalBytesRead : Nat
  lastTag : CUInt
  legitimateMessageEnd : Bool
  currentLimit : Nat
  recursionBudget : Nat
  limit_le : currentLimit ≤ intMax
  length_afterLimit : afterLimit.length = totalBytesRead - currentLimit
  total_of_overflow : overflow ≠ [] → totalBytesRead = intMax

/-- The bytes of an array whose size is an `int`. -/
abbrev SizedArray := { data : List CChar // data.length ≤ intMax }

/-- `default_recursion_limit_`. -/
def recursionLimit : Nat := 100

/-- `CodedInputStream::RecomputeBufferLimits`: what is left of a buffer, and what is
behind the limit. -/
def recomputeBufferLimits (bytes : List CChar) (totalBytesRead currentLimit : Nat) :
    List CChar × List CChar :=
  if currentLimit < totalBytesRead then
    let bufferSize := bytes.length - (totalBytesRead - currentLimit)
    (bytes.take bufferSize, bytes.drop bufferSize)
  else (bytes, [])

/-- When the limit is not in front of the bytes. -/
theorem length_recomputeBufferLimits {bytes : List CChar} {totalBytesRead currentLimit : Nat}
    (h : totalBytesRead ≤ currentLimit + bytes.length) :
    (recomputeBufferLimits bytes totalBytesRead currentLimit).2.length =
      totalBytesRead - currentLimit := by
  rw [recomputeBufferLimits]
  split
  · rw [List.length_drop]
    omega
  · exact (Nat.sub_eq_zero_of_le (by omega)).symm

theorem append_recomputeBufferLimits (bytes : List CChar) (totalBytesRead currentLimit : Nat) :
    (recomputeBufferLimits bytes totalBytesRead currentLimit).1 ++
      (recomputeBufferLimits bytes totalBytesRead currentLimit).2 = bytes := by
  rw [recomputeBufferLimits]
  split
  · exact List.take_append_drop _ _
  · exact List.append_nil _

/-- Bytes that begin in front of the limit. -/
theorem recomputeBufferLimits_eq {bytes : List CChar} {totalBytesRead currentLimit : Nat}
    (h : totalBytesRead ≤ currentLimit) :
    recomputeBufferLimits bytes (totalBytesRead + bytes.length) currentLimit =
      bytes.splitAt (currentLimit - totalBytesRead) := by
  rw [recomputeBufferLimits, List.splitAt_eq]
  split
  · rw [show bytes.length - (totalBytesRead + bytes.length - currentLimit) =
      currentLimit - totalBytesRead by omega]
  · rw [List.take_of_length_le (by omega), List.drop_eq_nil_of_le (by omega)]

namespace CodedInputStream

/-- `NextNonEmpty`. -/
def nextNonEmpty : List (List CChar) → Option (List CChar × List (List CChar))
  | [] => none
  | [] :: input => nextNonEmpty input
  | chunk :: input => some (chunk, input)

/-- The stream has come to a limit. -/
def AtLimit (s : CodedInputStream) : Prop :=
  s.afterLimit ≠ [] ∨ s.overflow ≠ [] ∨ s.totalBytesRead = s.currentLimit

instance (s : CodedInputStream) : Decidable s.AtLimit :=
  inferInstanceAs (Decidable (_ ∨ _ ∨ _))

theorem total_le_of_not_atLimit {s : CodedInputStream} (h : ¬ s.AtLimit) :
    s.totalBytesRead ≤ s.currentLimit := by
  have hlength := s.length_afterLimit
  rw [Decidable.not_not.mp fun hne => h (.inl hne), List.length_nil] at hlength
  omega

/-- `CodedInputStream::Refresh`: it is called on an empty buffer, which it leaves empty
when it fails.  A buffer that would take `total_bytes_read_` beyond `INT_MAX` is cut off
there. -/
def refresh (s : CodedInputStream) : Option CodedInputStream :=
  if hstop : s.AtLimit then none
  else
    match nextNonEmpty s.input with
    | none => none
    | some (chunk, input) =>
      let kept := chunk.take (intMax - s.totalBytesRead)
      let totalBytesRead := s.totalBytesRead + kept.length
      let cut := recomputeBufferLimits kept totalBytesRead s.currentLimit
      some { s with
        buffer := cut.1, afterLimit := cut.2
        overflow := chunk.drop (intMax - s.totalBytesRead)
        input := input, totalBytesRead := totalBytesRead
        length_afterLimit := length_recomputeBufferLimits
          (Nat.add_le_add_right (total_le_of_not_atLimit hstop) _)
        total_of_overflow := fun hne => by
          have hlt := Nat.lt_of_not_le (mt List.drop_eq_nil_iff.mpr hne)
          have hle := Nat.le_trans (total_le_of_not_atLimit hstop) s.limit_le
          simp only [totalBytesRead, kept, List.length_take]
          omega }

/-- `CodedInputStream(const uint8* buffer, int size)`. -/
def ofArray (buffer : SizedArray) : CodedInputStream where
  buffer := buffer.val
  afterLimit := []
  overflow := []
  input := []
  totalBytesRead := buffer.val.length
  lastTag := 0
  legitimateMessageEnd := false
  currentLimit := buffer.val.length
  recursionBudget := recursionLimit
  limit_le := buffer.property
  length_afterLimit := (Nat.sub_self _).symm
  total_of_overflow := fun h => absurd rfl h

/-- `CodedInputStream(ZeroCopyInputStream* input)`: it refreshes eagerly. -/
def ofStream (input : List (List CChar)) : CodedInputStream :=
  let s : CodedInputStream :=
    { buffer := [], afterLimit := [], overflow := [], input := input, totalBytesRead := 0
      lastTag := 0, legitimateMessageEnd := false, currentLimit := intMax
      recursionBudget := recursionLimit, limit_le := Nat.le_refl _
      length_afterLimit := (Nat.zero_sub _).symm, total_of_overflow := fun h => absurd rfl h }
  s.refresh.getD s

/-- `CodedInputStream::Advance`. -/
def advance (s : CodedInputStream) (amount : Nat) : CodedInputStream :=
  { s with buffer := s.buffer.drop amount }

/-- `while (buffer_ == buffer_end_) Refresh()`; a buffer that `Refresh` got is never
empty. -/
def fill (s : CodedInputStream) : Option CodedInputStream :=
  if s.buffer = [] then s.refresh else some s

/-- A varint at the front cannot run past the buffer: there are `kMaxVarintBytes` bytes,
or the last one would end it. -/
def VarintInBuffer (s : CodedInputStream) : Prop :=
  10 ≤ s.buffer.length ∨ ∃ b ∈ s.buffer.getLast?, b &&& 0x80#8 = 0

instance (s : CodedInputStream) : Decidable s.VarintInBuffer :=
  inferInstanceAs (Decidable (_ ∨ ∃ b ∈ s.buffer.getLast?, _))

/-- What a read returns: a value and the stream behind it, or the stream as it is after a
read that failed. -/
abbrev ReadResult (α : Type) := Except CodedInputStream (α × CodedInputStream)

/-- `CodedInputStream::ReadVarint64Slow` with `kMaxVarintBytes - count` bytes to go.  When
it fails it has passed the bytes it looked at. -/
def readVarint64Slow : Nat → BitVec 64 → CodedInputStream → ReadResult (BitVec 64)
  | 0, _, s => .error s
  | togo + 1, result, s =>
    match s.fill with
    | none => .error s
    | some s =>
      match s.buffer with
      | [] => .error s
      | b :: _ =>
        let result := result ||| (b &&& 0x7f#8).setWidth 64 <<< (7 * (9 - togo))
        if b &&& 0x80#8 = 0 then .ok (result, s.advance 1)
        else readVarint64Slow togo result (s.advance 1)

/-- The pointer is moved when the array was read with success, and else left where it is. -/
def ofFromArray {α : Type} (s : CodedInputStream) : FromArray α → ReadResult α
  | .done value ptr => .ok (value, { s with buffer := ptr })
  | _ => .error s

/-- `CodedInputStream::ReadVarint64Fallback`. -/
def readVarint64Fallback (s : CodedInputStream) : ReadResult (BitVec 64) :=
  if s.VarintInBuffer then s.ofFromArray (readVarint64FromArray s.buffer)
  else readVarint64Slow 10 0 s

/-- `CodedInputStream::ReadVarint64`. -/
def readVarint64 (s : CodedInputStream) : ReadResult (BitVec 64) :=
  match s.buffer with
  | [] => s.readVarint64Fallback
  | b :: _ =>
    if b < 0x80#8 then .ok (b.setWidth 64, s.advance 1) else s.readVarint64Fallback

/-- `CodedInputStream::ReadVarint32Slow`. -/
def readVarint32Slow (s : CodedInputStream) : ReadResult CUInt :=
  s.readVarint64Fallback.map fun p => (p.1.setWidth 32, p.2)

/-- `CodedInputStream::ReadVarint32Fallback`. -/
def readVarint32Fallback (s : CodedInputStream) (first_byte_or_zero : CUInt) :
    ReadResult CUInt :=
  if s.VarintInBuffer then s.ofFromArray (readVarint32FromArray first_byte_or_zero s.buffer)
  else s.readVarint32Slow

/-- `CodedInputStream::ReadVarint32`. -/
def readVarint32 (s : CodedInputStream) : ReadResult CUInt :=
  match s.buffer with
  | [] => s.readVarint32Fallback 0
  | b :: _ =>
    if b < 0x80#8 then .ok (b.setWidth 32, s.advance 1)
    else s.readVarint32Fallback (b.setWidth 32)

/-! ## Tags -/

/-- `CodedInputStream::ReadTagSlow`.  At the end of the input the position decides
whether a message may end here: not at `total_bytes_limit_`, unless that is the
limit asked for. -/
def readTagSlow (s : CodedInputStream) : CUInt × CodedInputStream :=
  match s.fill with
  | none =>
    if intMax ≤ s.totalBytesRead - s.afterLimit.length then
      (0, { s with legitimateMessageEnd := decide (s.currentLimit = intMax) })
    else (0, { s with legitimateMessageEnd := true })
  | some s =>
    match s.readVarint64 with
    | .error s => (0, s)
    | .ok (result, s) => (result.setWidth 32, s)

/-- `CodedInputStream::ReadTagFallback`. -/
def readTagFallback (s : CodedInputStream) (first_byte_or_zero : CUInt) :
    CUInt × CodedInputStream :=
  if s.VarintInBuffer then
    if first_byte_or_zero = 0 then (0, s.advance 1)
    else
      match readVarint32FromArray first_byte_or_zero s.buffer with
      | .done tag ptr => (tag, { s with buffer := ptr })
      | _ => (0, s)
  else if s.buffer = [] ∧ (s.afterLimit ≠ [] ∨ s.totalBytesRead = s.currentLimit) ∧
      s.totalBytesRead - s.afterLimit.length < intMax then
    (0, { s with legitimateMessageEnd := true })
  else s.readTagSlow

/-- `CodedInputStream::ReadTagNoLastTag`. -/
def readTagNoLastTag (s : CodedInputStream) : CUInt × CodedInputStream :=
  match s.buffer with
  | [] => s.readTagFallback 0
  | b :: _ =>
    if b < 0x80#8 then (b.setWidth 32, s.advance 1) else s.readTagFallback (b.setWidth 32)

/-- `CodedInputStream::ReadTag`. -/
def readTag (s : CodedInputStream) : CUInt × CodedInputStream :=
  let p := s.readTagNoLastTag
  (p.1, { p.2 with lastTag := p.1 })

/-- `CodedInputStream::ReadTagWithCutoffNoLastTag`. -/
def readTagWithCutoffNoLastTag (s : CodedInputStream) (cutoff : CUInt) :
    (CUInt × Bool) × CodedInputStream :=
  let slow (first_byte_or_zero : CUInt) :=
    let p := s.readTagFallback first_byte_or_zero
    ((p.1, decide (p.1 - 1 < cutoff)), p.2)
  match s.buffer with
  | [] => slow 0
  | b :: rest =>
    if (0#8).slt b then
      let tag := b.setWidth 32
      ((tag, decide (0x7f#32 ≤ cutoff ∨ tag ≤ cutoff)), s.advance 1)
    else
      match rest with
      | [] => slow (b.setWidth 32)
      | c :: _ =>
        if 0x80#32 ≤ cutoff ∧ 0x80#8 ≤ b &&& ~~~c then
          let tag := 0x80#32 * c.setWidth 32 + (b.setWidth 32 - 0x80#32)
          ((tag, decide (0x3fff#32 ≤ cutoff ∨ tag ≤ cutoff)), s.advance 2)
        else slow (b.setWidth 32)

/-! ## Raw bytes -/

/-- The loop of `InternalReadRawInline` and of `ReadStringFallback`, with a bound on its
turns: what the buffer holds is taken until it holds enough. -/
def readRawLoop : Nat → Nat → List CChar → CodedInputStream →
    Option (List CChar × CodedInputStream)
  | 0, _, _, _ => none
  | turns + 1, size, out, s =>
    if s.buffer.length < size then do
      let s' ← (s.advance s.buffer.length).refresh
      readRawLoop turns (size - s.buffer.length) (out ++ s.buffer) s'
    else some (out ++ s.buffer.take size, s.advance size)

/-- `CodedInputStream::ReadRaw`.  Every buffer after the first holds a byte, so that
`size + 1` turns are enough. -/
def readRaw (s : CodedInputStream) (size : Nat) : Option (List CChar × CodedInputStream) :=
  readRawLoop (size + 1) size [] s

/-- `CodedInputStream::ReadString`, of a size that comes from the input. -/
def readString (s : CodedInputStream) (size : CUInt) : Option (List CChar × CodedInputStream) :=
  if size.slt 0#32 then none
  else if size.toNat ≤ s.buffer.length then
    some (s.buffer.take size.toNat, s.advance size.toNat)
  else s.readRaw size.toNat

/-- `CodedInputStream::ReadLittleEndian32`. -/
def readLittleEndian32 (s : CodedInputStream) : Option (BitVec 32 × CodedInputStream) :=
  if 4 ≤ s.buffer.length then some (readLittleEndian32FromArray s.buffer, s.advance 4)
  else (s.readRaw 4).map fun p => (readLittleEndian32FromArray p.1, p.2)

/-- `CodedInputStream::ReadLittleEndian64`. -/
def readLittleEndian64 (s : CodedInputStream) : Option (BitVec 64 × CodedInputStream) :=
  if 8 ≤ s.buffer.length then some (readLittleEndian64FromArray s.buffer, s.advance 8)
  else (s.readRaw 8).map fun p => (readLittleEndian64FromArray p.1, p.2)

/-! ## Skipping -/

/-- `ZeroCopyInputStream::Skip`, which every kind of input has its own of, as the comment in
its interface describes it.  It fails when the input ends before as many bytes; else the
input returns from then on the bytes that are behind them, in whatever buffers. -/
structure InputSkip where
  skip : Nat → List (List CChar) → Option (List (List CChar))
  spec : ∀ count input, (skip count input).map List.flatten =
    if count ≤ input.flatten.length then some (input.flatten.drop count) else none

theorem flatten_toChunksAux (n : Nat) (bytes : List CChar) (i : Nat) :
    (bytes.toChunksAux n i).1 ++ (bytes.toChunksAux n i).2.flatten = bytes := by
  induction bytes generalizing i with
  | nil => rfl
  | cons b bytes ih =>
    cases i with
    | zero => exact congrArg (b :: ·) (ih n)
    | succ i => exact congrArg (b :: ·) (ih i)

/-- `ArrayInputStream::Skip`: blocks of `n + 1` bytes begin anew where it stops. -/
def arrayInputSkip (n : Nat) : InputSkip where
  skip count input :=
    if count ≤ input.flatten.length then
      some ((input.flatten.drop count).toChunksAux n 0).2
    else none
  spec count input := by
    split
    · have hblocks := flatten_toChunksAux n (input.flatten.drop count) 0
      cases hdrop : input.flatten.drop count with
      | nil => rfl
      | cons b bytes =>
        rw [hdrop] at hblocks
        exact congrArg some hblocks
    · rfl

/-- `CodedInputStream::SkipFallback`, for more bytes than the buffer has.  Those of the
input are not looked at. -/
def skipFallback (skipInput : InputSkip) (s : CodedInputStream) (count : Nat) :
    Option CodedInputStream :=
  if hlimit : s.afterLimit ≠ [] then none
  else
    let rest := count - s.buffer.length
    if hrest : s.currentLimit < s.totalBytesRead + rest then none
    else (skipInput.skip rest s.input).map fun input =>
      { s with
        buffer := [], input := input, totalBytesRead := s.totalBytesRead + rest
        length_afterLimit := by
          rw [Decidable.not_not.mp hlimit, List.length_nil]
          omega
        total_of_overflow := fun hne => by
          have htotal := s.total_of_overflow hne
          have hle := s.limit_le
          omega }

/-- `CodedInputStream::Skip`, of a number that comes from the input. -/
def skip (skipInput : InputSkip) (s : CodedInputStream) (count : CUInt) :
    Option CodedInputStream :=
  if count.slt 0#32 then none
  else if count.toNat ≤ s.buffer.length then some (s.advance count.toNat)
  else s.skipFallback skipInput count.toNat

/-! ## Groups -/

/-- `CodedInputStream::IncrementRecursionDepth`. -/
def incrementRecursionDepth (s : CodedInputStream) : Option CodedInputStream :=
  if 0 < s.recursionBudget then some { s with recursionBudget := s.recursionBudget - 1 } else none

/-- `CodedInputStream::DecrementRecursionDepth`. -/
def decrementRecursionDepth (s : CodedInputStream) : CodedInputStream :=
  if s.recursionBudget < recursionLimit then
    { s with recursionBudget := s.recursionBudget + 1 }
  else s

/-! ## Limits -/

/-- `CodedInputStream::CurrentPosition`. -/
def currentPosition (s : CodedInputStream) : Int :=
  s.totalBytesRead - (s.buffer.length + s.afterLimit.length)

/-- `CodedInputStream::PushLimit`, without the limit that it returns for `PopLimit`. -/
def pushLimit (s : CodedInputStream) (byteLimit : Int) : CodedInputStream :=
  if h : 0 ≤ byteLimit ∧ byteLimit ≤ intMax - s.currentPosition ∧
      byteLimit < s.currentLimit - s.currentPosition then
    let currentLimit := (s.currentPosition + byteLimit).toNat
    let cut := recomputeBufferLimits (s.buffer ++ s.afterLimit) s.totalBytesRead currentLimit
    { s with
      buffer := cut.1, afterLimit := cut.2, currentLimit := currentLimit
      limit_le := by omega
      length_afterLimit := length_recomputeBufferLimits (by
        rw [List.length_append]
        simp only [currentLimit, currentPosition]
        omega) }
  else s

/-- `CodedInputStream::BytesUntilLimit`. -/
def bytesUntilLimit (s : CodedInputStream) : Int :=
  if s.currentLimit = intMax then -1 else s.currentLimit - s.currentPosition

/-- `CodedInputStream::BackUpInputToCurrentPosition`, which the destructor calls: what
the input returns from then on. -/
def backUpInputToCurrentPosition (s : CodedInputStream) : List (List CChar) :=
  let backup := s.buffer ++ s.afterLimit ++ s.overflow
  if 0 < backup.length then backup :: s.input else s.input

end CodedInputStream

end SurvivalGame
