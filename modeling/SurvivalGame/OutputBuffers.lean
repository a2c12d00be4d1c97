import SurvivalGame.MessageRoundTrip
import SurvivalGame.Sink

/-! # Writing into buffers

A `CodedOutputStream` writes into the buffers that a `ZeroCopyOutputStream` hands out, of
whatever sizes, and a value may lie across several of them.  Where the buffer is large
enough, a value is written directly, and so is a whole message (`SerializeToCodedStream`);
else it goes through `WriteRaw`, which takes a new buffer whenever one is full.

The stream is a `Sink` with room for what the buffers hold, and all its functions put into
it what their `ToArray` twins write.  So which way is taken does not show in the bytes
(`serializeToZeroCopyStream_eq`).
-/
namespace SurvivalGame

/-- `CodedOutputStream`, without aliasing.  `written` are the bytes before `buffer_`, in
all buffers, and `next` are the sizes of the buffers that `output_` will still hand out;
after these it fails.  `total_bytes_` is an `int`: with buffers of more than `INT_MAX`
bytes it wraps around here. -/
structure CodedOutputStream where
  written : List CChar
  /-- `buffer_` is not `NULL`. -/
  buffer : Bool
  bufferSize : Nat
  totalBytes : BitVec 32
  hadError : Bool
  next : List Nat
deriving DecidableEq

namespace CodedOutputStream

/-- `memcpy` to `buffer_`, and `Advance`. -/
def putRaw (output : CodedOutputStream) (data : List CChar) : CodedOutputStream :=
  { output with
    written := output.written ++ data
    bufferSize := output.bufferSize - data.length }

/-- `CodedOutputStream::Refresh`. -/
def refresh (output : CodedOutputStream) : Bool × CodedOutputStream :=
  match output.next with
  | size :: next =>
    (true, { output with
      buffer := true
      bufferSize := size
      totalBytes := output.totalBytes + BitVec.ofNat 32 size
      next := next })
  | [] => (false, { output with buffer := false, bufferSize := 0, hadError := true })

/-- The constructor, which has a buffer at once if there is one. -/
def ofZeroCopyStream (sizes : List Nat) : CodedOutputStream :=
  { (refresh ⟨[], false, 0, 0, false, sizes⟩).2 with hadError := false }

/-- `CodedOutputStream::Trim`; the destructor calls it. -/
def trim (output : CodedOutputStream) : CodedOutputStream :=
  if 0 < output.bufferSize then
    { output with
      buffer := false
      bufferSize := 0
      totalBytes := output.totalBytes - BitVec.ofNat 32 output.bufferSize }
  else output

/-- `CodedOutputStream::ByteCount`. -/
def byteCount (output : CodedOutputStream) : BitVec 32 :=
  output.totalBytes - BitVec.ofNat 32 output.bufferSize

/-- The loop of `WriteRaw`, for so many turns. -/
def writeRawLoop : Nat → CodedOutputStream → List CChar → CodedOutputStream
  | 0, output, _ => output
  | turns + 1, output, data =>
    if output.bufferSize < data.length then
      match refresh (output.putRaw (data.take output.bufferSize)) with
      | (true, output') => writeRawLoop turns output' (data.drop output.bufferSize)
      | (false, output') => output'
    else output.putRaw data

/-- `CodedOutputStream::WriteRaw`; every turn but the last takes a buffer. -/
def writeRaw (output : CodedOutputStream) (data : List CChar) : CodedOutputStream :=
  writeRawLoop (output.next.length + 1) output data

/-- `CodedOutputStream::WriteVarint32`. -/
def writeVarint32 (output : CodedOutputStream) (value : CUInt) : CodedOutputStream :=
  if 5 ≤ output.bufferSize then output.putRaw (writeVarint32ToArray value)
  else output.writeRaw (writeVarint32ToArray value)

/-- `CodedOutputStream::WriteVarint64`. -/
def writeVarint64 (output : CodedOutputStream) (value : BitVec 64) : CodedOutputStream :=
  if 10 ≤ output.bufferSize then output.putRaw (writeVarint64ToArray value)
  else output.writeRaw (writeVarint64ToArray value)

/-- `CodedOutputStream::WriteVarint32SignExtended`. -/
def writeVarint32SignExtended (output : CodedOutputStream) (value : BitVec 32) :
    CodedOutputStream :=
  output.writeVarint64 (value.signExtend 64)

/-- `CodedOutputStream::WriteTag`. -/
def writeTag (output : CodedOutputStream) (value : CUInt) : CodedOutputStream :=
  output.writeVarint32 value

/-- `CodedOutputStream::WriteLittleEndian32`. -/
def writeLittleEndian32 (output : CodedOutputStream) (value : BitVec 32) : CodedOutputStream :=
  if 4 ≤ output.bufferSize then output.putRaw (writeLittleEndian32ToArray value)
  else output.writeRaw (writeLittleEndian32ToArray value)

/-- `CodedOutputStream::WriteLittleEndian64`. -/
def writeLittleEndian64 (output : CodedOutputStream) (value : BitVec 64) : CodedOutputStream :=
  if 8 ≤ output.bufferSize then output.putRaw (writeLittleEndian64ToArray value)
  else output.writeRaw (writeLittleEndian64ToArray value)

/-- `GetDirectBufferForNBytesAndAdvance` returns a buffer. -/
def hasDirectBuffer (output : CodedOutputStream) (size : Nat) : Bool :=
  decide (size ≤ output.bufferSize) && output.buffer

end CodedOutputStream

/-! ## Fields and messages -/

namespace WireFormat

mutual

/-- A turn of `WireFormat::SerializeUnknownFields`. -/
def writeUnknownField (output : CodedOutputStream) : UnknownField → CodedOutputStream
  | .varint number value =>
    (output.writeVarint32 (makeTag number .varint)).writeVarint64 value
  | .fixed32 number value =>
    (output.writeVarint32 (makeTag number .fixed32)).writeLittleEndian32 value
  | .fixed64 number value =>
    (output.writeVarint32 (makeTag number .fixed64)).writeLittleEndian64 value
  | .lengthDelimited number value =>
    ((output.writeVarint32 (makeTag number .lengthDelimited)).writeVarint32
      (BitVec.ofNat 32 value.length)).writeRaw value
  | .group number fields =>
    (serializeUnknownFields (output.writeVarint32 (makeTag number .startGroup))
      fields).writeVarint32 (makeTag number .endGroup)

/-- `WireFormat::SerializeUnknownFields`. -/
def serializeUnknownFields (output : CodedOutputStream) : UnknownFieldSet → CodedOutputStream
  | [] => output
  | field :: fields => serializeUnknownFields (writeUnknownField output field) fields

end

end WireFormat

/-- `WireFormatLite::WriteInt32NoTag` and its likes, and what `WriteStringMaybeAliased`
writes behind the tag. -/
def FieldType.writeNoTag (output : CodedOutputStream) :
    (type : FieldType) → type.Value → CodedOutputStream
  | int32, (value : BitVec 32) | enum, (value : BitVec 32) =>
    output.writeVarint32SignExtended value
  | int64, (value : BitVec 64) => output.writeVarint64 value
  | bool, (value : Bool) => output.writeVarint32 (if value then 1 else 0)
  | string, (value : List CChar) | bytes, (value : List CChar) =>
    (output.writeVarint32 (BitVec.ofNat 32 value.length)).writeRaw value

/-- `WireFormatLite::WriteInt32` and its likes, for a field that is there. -/
def Field.write (field : Field) (output : CodedOutputStream) (value : field.type.Value) :
    CodedOutputStream :=
  if field.type.isSet value then field.type.writeNoTag (output.writeTag field.tag) value
  else output

namespace Message

variable {d : Descriptor} (message : Message d)

/-- `SerializeWithCachedSizes` of the classes. -/
def serializeWithCachedSizes (output : CodedOutputStream) : CodedOutputStream :=
  WireFormat.serializeUnknownFields
    (d.fields.attach.foldl (fun output field => field.val.write output (message.get field)) output)
    message.unknownFields

/-- `MessageLite::SerializePartialToCodedStream`; it dies in `ByteSizeConsistencyError` when
the size that was computed is not the one that was written. -/
def serializeToCodedStream (output : CodedOutputStream) : Option (Bool × CodedOutputStream) :=
  let size := message.byteSizeLong
  if intMax < size then some (false, output)
  else if output.hasDirectBuffer size then
    if message.serializeWithCachedSizesToArray.length = size then
      some (true, output.putRaw message.serializeWithCachedSizesToArray)
    else none
  else
    let output' := message.serializeWithCachedSizes output
    if output'.hadError then some (false, output')
    else if (output'.byteCount - output.byteCount).toInt = size then some (true, output')
    else none

/-- `MessageLite::SerializeToZeroCopyStream`, with what its encoder's destructor does. -/
def serializeToZeroCopyStream (sizes : List Nat) : Option (Bool × CodedOutputStream) :=
  (message.serializeToCodedStream (.ofZeroCopyStream sizes)).map fun p => (p.1, p.2.trim)

end Message

end SurvivalGame
