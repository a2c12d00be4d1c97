import Mathlib.Logic.Function.Basic
import SurvivalGame.StructurallyValid
import SurvivalGame.UnknownFields

/-! # The message classes (`Classes/Data/*.pb.cc`)

The generated classes are the same code over different fields.  A `Descriptor` is the
fields of a class, in the order of their numbers, which is the order the code has them
in; the functions below are that code, once for all classes, and `GameMessage` has the
classes themselves.

A message has a value for each field, whether it was set or not: a field that has the
value zero, or no bytes, is one that is not there.
-/
namespace SurvivalGame

/-- The types of the fields. -/
inductive FieldType
  | int32
  | int64
  | bool
  | enum
  | string
  | bytes
deriving DecidableEq

namespace FieldType

/-- The type of the member that holds a field. -/
abbrev Value : FieldType → Type
  | int32 | enum => BitVec 32
  | int64 => BitVec 64
  | bool => Bool
  | string | bytes => List CChar

instance : (type : FieldType) → DecidableEq type.Value
  | int32 | enum => inferInstanceAs (DecidableEq (BitVec 32))
  | int64 => inferInstanceAs (DecidableEq (BitVec 64))
  | bool => inferInstanceAs (DecidableEq Bool)
  | string | bytes => inferInstanceAs (DecidableEq (List CChar))

/-- The value of a field that is not there. -/
def default : (type : FieldType) → type.Value
  | int32 | enum => (0 : BitVec 32)
  | int64 => (0 : BitVec 64)
  | bool => false
  | string | bytes => ([] : List CChar)

/-- The condition that a field is written and merged on: `!= 0` or `.size() > 0`. -/
def isSet : (type : FieldType) → type.Value → Bool
  | int32, (value : BitVec 32) | enum, (value : BitVec 32) => value != 0
  | int64, (value : BitVec 64) => value != 0
  | bool, (value : Bool) => value
  | string, (value : List CChar) | bytes, (value : List CChar) => 0 < value.length

def wireType : FieldType → WireType
  | int32 | int64 | bool | enum => .varint
  | string | bytes => .lengthDelimited

/-- `WireFormatLite::VerifyUtf8String` while parsing, once the static initialisation is
done; the data of a `std::string` is aligned. -/
def verify : (type : FieldType) → type.Value → Bool
  | string, (value : List CChar) => isStructurallyValidUTF8 true 0 value
  | _, _ => true

section Read

variable {σ : Type} [InputStream σ]

open InputStream

/-- `WireFormatLite::ReadBytes`, which is `ReadString` too. -/
def readBytes (input : σ) : Option (List CChar × σ) := do
  let (length, input) ← readVarint32 input
  readString input length

/-- `WireFormatLite::ReadPrimitive`, `ReadString` and `ReadBytes`. -/
def read : (type : FieldType) → σ → Option (type.Value × σ)
  | int32, input | enum, input => (readVarint32 input : Option (BitVec 32 × σ))
  | int64, input => (readVarint64 input : Option (BitVec 64 × σ))
  | bool, input => (readVarint64 input).map fun p => ((p.1 != 0 : Bool), p.2)
  | string, input | bytes, input => (readBytes input : Option (List CChar × σ))

end Read

/-- What is written behind the tag: `WriteInt32NoTagToArray` and its likes. -/
def writeNoTagToArray : (type : FieldType) → type.Value → List CChar
  | int32, (value : BitVec 32) | enum, (value : BitVec 32) =>
    writeVarint32SignExtendedToArray value
  | int64, (value : BitVec 64) => writeVarint64ToArray value
  | bool, (value : Bool) => writeVarint32ToArray (if value then 1 else 0)
  | string, (value : List CChar) | bytes, (value : List CChar) =>
    writeStringWithSizeToArray value

/-- `WireFormatLite::Int32Size` and its likes. -/
def size : (type : FieldType) → type.Value → Nat
  | int32, (value : BitVec 32) | enum, (value : BitVec 32) => varintSize32SignExtended value
  | int64, (value : BitVec 64) => varintSize64 value
  | bool, _ => 1
  | string, (value : List CChar) | bytes, (value : List CChar) =>
    lengthDelimitedSize value.length

end FieldType

/-- A field: its number, small enough for a tag of one byte, and its type. -/
structure Field where
  number : BitVec 32
  type : FieldType
  one_le : 1 ≤ number.toNat
  le_fifteen : number.toNat ≤ 15
deriving DecidableEq

namespace Field

variable (field : Field)

/-- The tag in front of the field. -/
def tag : CUInt := makeTag field.number field.type.wireType

/-- `WireFormatLite::WriteInt32ToArray` and its likes, for a field that is there. -/
def writeToArray (value : field.type.Value) : List CChar :=
  if field.type.isSet value then
    writeTagToArray field.tag ++ field.type.writeNoTagToArray value
  else []

/-- The part of a field in `ByteSizeLong`. -/
def byteSize (value : field.type.Value) : Nat :=
  if field.type.isSet value then 1 + field.type.size value else 0

end Field

/-- The fields of a class. -/
structure Descriptor where
  fields : List Field
  nodup : (fields.map Field.number).Nodup

namespace Descriptor

/-- A field of the class. -/
abbrev Member (d : Descriptor) : Type := {field : Field // field ∈ d.fields}

/-- `switch` on the field number. -/
def find? (d : Descriptor) (number : BitVec 32) : Option d.Member :=
  d.fields.attach.find? fun field => field.val.number == number

end Descriptor

/-- A message of a class. -/
@[ext] structure Message (d : Descriptor) where
  get : (field : d.Member) → field.val.type.Value
  unknownFields : UnknownFieldSet

namespace Message

variable {d : Descriptor}

/-- A new message, and one after `Clear`. -/
def clear (d : Descriptor) : Message d where
  get field := field.val.type.default
  unknownFields := []

/-- `set_mid` and its likes. -/
def set (message : Message d) (field : d.Member) (value : field.val.type.Value) : Message d :=
  { message with get := Function.update message.get field value }

/-! ## Parsing -/

section Parse

variable {σ : Type} [InputStream σ]

open InputStream

/-- The code behind `handle_unusual`, for a tag that is not zero; groups are not nested
deeper than the recursion limit. -/
def handleUnusual (input : σ) (tag : CUInt) (message : Message d) : Option (Message d × σ) :=
  (WireFormat.skipField (fun input => WireFormat.skipMessage recursionLimit input [])
    input tag message.unknownFields).map fun p => ({ message with unknownFields := p.1 }, p.2)

/-- A turn of `MergePartialFromCodedStream`, with what `ReadTagWithCutoffNoLastTag`
returned. -/
def mergeField (input : σ) (p : CUInt × Bool) (message : Message d) : Option (Message d × σ) :=
  match if p.2 then d.find? (getTagFieldNumber p.1) else none with
  | some field =>
    if p.1.setWidth 8 = field.val.tag.setWidth 8 then do
      let (value, input) ← field.val.type.read input
      if field.val.type.verify value then some (message.set field value, input) else none
    else handleUnusual input p.1 message
  | none => handleUnusual input p.1 message

/-- `MergePartialFromCodedStream` of the classes. -/
def mergePartialFromCodedStream (input : σ) (message : Message d) : Option (Message d × σ) :=
  TokenLoop.loop bytesLeft (readTagWithCutoffNoLastTag · 127) (fun p => p.1 == 0) mergeField
    input message

/-- `MessageLite::ParseFromCodedStream` with the check of `ConsumedEntireMessage` that its
callers add; the classes have no required fields. -/
def parseFromCodedStream (d : Descriptor) (input : σ) : Option (Message d) := do
  let (message, input) ← mergePartialFromCodedStream input (clear d)
  if consumedEntireMessage input then some message else none

end Parse

/-- `MessageLite::ParseFromArray`, and `ParseFromString`. -/
def parseFromArray (d : Descriptor) (data : SizedArray) : Option (Message d) :=
  parseFromCodedStream d (CodedInputStream.ofArray data)

/-- `MessageLite::ParseFromZeroCopyStream`, of what the stream returns. -/
def parseFromZeroCopyStream (d : Descriptor) (chunks : List (List CChar)) : Option (Message d) :=
  parseFromCodedStream d (CodedInputStream.ofStream chunks)

/-- `MessageLite::ParseFromBoundedZeroCopyStream`, with what the stream returns from then
on. -/
def parseFromBoundedZeroCopyStream (d : Descriptor) (chunks : List (List CChar)) (size : Int) :
    Option (Message d × List (List CChar)) := do
  let decoder := (CodedInputStream.ofStream chunks).pushLimit size
  let (message, decoder) ← mergePartialFromCodedStream decoder (clear d)
  if InputStream.consumedEntireMessage decoder ∧ decoder.bytesUntilLimit = 0 then
    some (message, decoder.backUpInputToCurrentPosition)
  else none

/-! ## Writing -/

/-- `InternalSerializeWithCachedSizesToArray` of the classes. -/
def serializeWithCachedSizesToArray (message : Message d) : List CChar :=
  d.fields.attach.flatMap (fun field => field.val.writeToArray (message.get field)) ++
    WireFormat.serializeUnknownFieldsToArray message.unknownFields

/-- `ByteSizeLong` of the classes. -/
def byteSizeLong (message : Message d) : Nat :=
  WireFormat.computeUnknownFieldsSize message.unknownFields +
    (d.fields.attach.map fun field => field.val.byteSize (message.get field)).sum

/-- `MessageLite::AppendToString`. -/
def appendToString (message : Message d) (output : List CChar) : Option (List CChar) :=
  if intMax < message.byteSizeLong then none
  else some (output ++ message.serializeWithCachedSizesToArray)

/-- `MessageLite::SerializeToString`. -/
def serializeToString (message : Message d) : Option (List CChar) := message.appendToString []

/-- `MessageLite::SerializeAsString`. -/
def serializeAsString (message : Message d) : List CChar := (message.appendToString []).getD []

/-- `MessageLite::SerializeToArray`, into an array of some size. -/
def serializeToArray (message : Message d) (size : Nat) : Option (List CChar) :=
  if intMax < message.byteSizeLong then none
  else if size < message.byteSizeLong then none
  else some message.serializeWithCachedSizesToArray

/-! ## Merging -/

/-- `MergeFrom` of the classes. -/
def mergeFrom (message source : Message d) : Message d where
  get field :=
    if field.val.type.isSet (source.get field) then source.get field else message.get field
  unknownFields := message.unknownFields ++ source.unknownFields

/-- `CopyFrom` of the classes, from another message. -/
def copyFrom (_message source : Message d) : Message d := (clear d).mergeFrom source

end Message

/-! ## The classes -/

/-- A field by its number in the `.proto` file. -/
def Field.ofNat (number : Nat) (type : FieldType)
    (h : 1 ≤ number ∧ number ≤ 15 := by decide) : Field where
  number := BitVec.ofNat 32 number
  type := type
  one_le := by rw [BitVec.toNat_ofNat]; omega
  le_fifteen := by rw [BitVec.toNat_ofNat]; omega

namespace GameMessage

/-! ### `HallLoginMessage.pb.cc` -/

def LoginRequest : Descriptor where
  fields := [
    -- int32 msgId = 1
    .ofNat 1 .int32,
    -- string account = 2
    .ofNat 2 .string,
    -- string password = 3
    .ofNat 3 .string,
    -- LoginType loginType = 4
    .ofNat 4 .enum,
    -- int64 sessionId = 5
    .ofNat 5 .int64,
    -- int32 gateId = 6
    .ofNat 6 .int32,
    -- string ip = 7
    .ofNat 7 .string,
    -- string version = 8
    .ofNat 8 .string]
  nodup := by decide

def LoginResponse : Descriptor where
  fields := [
    -- int32 msgId = 1
    .ofNat 1 .int32,
    -- bool isOk = 2
    .ofNat 2 .bool,
    -- int64 uid = 3
    .ofNat 3 .int64,
    -- int64 rid = 4
    .ofNat 4 .int64,
    -- int64 sessionId = 5
    .ofNat 5 .int64]
  nodup := by decide

def QuitRequest : Descriptor where
  fields := [
    -- int32 msgId = 1
    .ofNat 1 .int32,
    -- int64 rid = 2
    .ofNat 2 .int64]
  nodup := by decide

def QuitResponse : Descriptor where
  fields := [
    -- int32 msgId = 1
    .ofNat 1 .int32,
    -- int32 result = 2
    .ofNat 2 .int32]
  nodup := by decide

def LoginSubGameRequest : Descriptor where
  fields := [
    -- int32 msgId = 1
    .ofNat 1 .int32,
    -- int64 rid = 2
    .ofNat 2 .int64,
    -- int32 type = 3
    .ofNat 3 .int32,
    -- int32 gameType = 4
    .ofNat 4 .int32]
  nodup := by decide

def LoginSubGameResponse : Descriptor where
  fields := [
    -- int32 msgId = 1
    .ofNat 1 .int32,
    -- int32 result = 2
    .ofNat 2 .int32]
  nodup := by decide

def QuitSubGameRequest : Descriptor where
  fields := [
    -- int32 msgId = 1
    .ofNat 1 .int32,
    -- int64 rid = 2
    .ofNat 2 .int64]
  nodup := by decide

def QuitSubGameResponse : Descriptor where
  fields := [
    -- int32 msgId = 1
    .ofNat 1 .int32,
    -- int32 result = 2
    .ofNat 2 .int32]
  nodup := by decide

/-! ### `SystemMessage.pb.cc` -/

def SystemErrorResponse : Descriptor where
  fields := [
    -- int32 mid = 1
    .ofNat 1 .int32,
    -- SystemErrorCode errorCode = 2
    .ofNat 2 .enum,
    -- bytes msg = 3
    .ofNat 3 .bytes]
  nodup := by decide

def HeartRequest : Descriptor where
  fields := [
    -- int32 mid = 1
    .ofNat 1 .int32]
  nodup := by decide

def HeartResponse : Descriptor where
  fields := [
    -- int32 mid = 1
    .ofNat 1 .int32,
    -- int64 serverTime = 2
    .ofNat 2 .int64]
  nodup := by decide

def UdpConnectRequest : Descriptor where
  fields := [
    -- int32 mid = 1
    .ofNat 1 .int32,
    -- int64 sessionId = 2
    .ofNat 2 .int64,
    -- int64 rid = 3
    .ofNat 3 .int64]
  nodup := by decide

def UdpConnectResponse : Descriptor where
  fields := [
    -- int32 mid = 1
    .ofNat 1 .int32,
    -- int32 result = 2
    .ofNat 2 .int32]
  nodup := by decide

end GameMessage

end SurvivalGame
