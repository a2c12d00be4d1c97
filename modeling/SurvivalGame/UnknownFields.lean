import SurvivalGame.CodedOutput
import SurvivalGame.TokenLoop
import SurvivalGame.Unread

/-! # Fields on the wire

A message is a sequence of fields, each behind a tag that holds its number and its wire
type (`WireFormatLite::MakeTag`).  An `UnknownFieldSet` is such a sequence as it was
read; `WireFormat` reads, skips, writes and measures it.

A group is a sequence of fields between two tags.  `SkipField` and `SkipMessage` call
each other for one, no deeper than the recursion budget of the stream allows.
-/
namespace SurvivalGame

/-! ## Tags -/

/-- `WireFormatLite::WireType`. -/
inductive WireType
  | varint
  | fixed64
  | lengthDelimited
  | startGroup
  | endGroup
  | fixed32
deriving DecidableEq

/-- The values of the enumeration. -/
def WireType.value : WireType → CUInt
  | varint => 0
  | fixed64 => 1
  | lengthDelimited => 2
  | startGroup => 3
  | endGroup => 4
  | fixed32 => 5

/-- `WireFormatLite::MakeTag`. -/
def makeTag (field_number : BitVec 32) (type : WireType) : CUInt := field_number <<< 3 ||| type.value

/-- `WireFormatLite::GetTagWireType`; six and seven are no wire types. -/
def getTagWireType (tag : CUInt) : Option WireType :=
  match (tag &&& 7#32).toNat with
  | 0 => some .varint
  | 1 => some .fixed64
  | 2 => some .lengthDelimited
  | 3 => some .startGroup
  | 4 => some .endGroup
  | 5 => some .fixed32
  | _ => none

/-- `WireFormatLite::GetTagFieldNumber`. -/
def getTagFieldNumber (tag : CUInt) : BitVec 32 := tag >>> 3

/-! ## Unknown fields -/

/-- `UnknownField`. -/
inductive UnknownField
  | varint (number : BitVec 32) (value : BitVec 64)
  | fixed32 (number : BitVec 32) (value : BitVec 32)
  | fixed64 (number : BitVec 32) (value : BitVec 64)
  | lengthDelimited (number : BitVec 32) (value : List CChar)
  | group (number : BitVec 32) (fields : List UnknownField)

/-- `UnknownFieldSet`. -/
abbrev UnknownFieldSet := List UnknownField

namespace WireFormat

variable {σ : Type} [InputStream σ]

open InputStream

/-- `WireFormat::SkipField` with a set to keep the field in; `skipMessage` is what it
calls for a group. -/
def skipField (skipMessage : σ → Option (UnknownFieldSet × σ)) (input : σ) (tag : CUInt)
    (unknown_fields : UnknownFieldSet) : Option (UnknownFieldSet × σ) :=
  let number := getTagFieldNumber tag
  if number = 0 then none
  else
    match getTagWireType tag with
    | some .varint => do
      let (value, input) ← readVarint64 input
      some (unknown_fields ++ [.varint number value], input)
    | some .fixed64 => do
      let (value, input) ← readLittleEndian64 input
      some (unknown_fields ++ [.fixed64 number value], input)
    | some .lengthDelimited => do
      let (length, input) ← readVarint32 input
      let (value, input) ← readString input length
      some (unknown_fields ++ [.lengthDelimited number value], input)
    | some .startGroup => do
      let input ← incrementRecursionDepth input
      let (group, input) ← skipMessage input
      let input := decrementRecursionDepth input
      if lastTagWas input (makeTag number .endGroup) then
        some (unknown_fields ++ [.group number group], input)
      else none
    | some .endGroup => none
    | some .fixed32 => do
      let (value, input) ← readLittleEndian32 input
      some (unknown_fields ++ [.fixed32 number value], input)
    | none => none

/-- The tags that `WireFormat::SkipMessage` returns at: none, for the end of the input,
and the end of a group. -/
def endsMessage (tag : CUInt) : Bool := tag == 0 || getTagWireType tag == some .endGroup

/-- `WireFormat::SkipMessage`, calling itself for groups to a depth. -/
def skipMessage : Nat → σ → UnknownFieldSet → Option (UnknownFieldSet × σ)
  | 0, _, _ => none
  | depth + 1, input, unknown_fields =>
    TokenLoop.loop bytesLeft readTag endsMessage
      (skipField fun input => skipMessage depth input []) input unknown_fields

/-- The depth that the recursion limit of a stream leaves. -/
def maxDepth : Nat := recursionLimit + 1

/-- `UnknownFieldSet::MergeFromCodedStream` into an empty set, which is
`ParseFromCodedStream`. -/
def parseFromCodedStream (input : σ) : Option UnknownFieldSet := do
  let (other, input) ← skipMessage maxDepth input []
  if consumedEntireMessage input then some other else none

/-- `UnknownFieldSet::ParseFromArray`: the array is an input of one buffer. -/
def parseFromArray (data : SizedArray) : Option UnknownFieldSet :=
  parseFromCodedStream (CodedInputStream.ofStream [data.val])

mutual

/-- One turn of `WireFormat::SerializeUnknownFieldsToArray`. -/
def serializeUnknownField : UnknownField → List CChar
  | .varint number value =>
    writeTagToArray (makeTag number .varint) ++ writeVarint64ToArray value
  | .fixed32 number value =>
    writeTagToArray (makeTag number .fixed32) ++ writeLittleEndian32ToArray value
  | .fixed64 number value =>
    writeTagToArray (makeTag number .fixed64) ++ writeLittleEndian64ToArray value
  | .lengthDelimited number value =>
    writeTagToArray (makeTag number .lengthDelimited) ++ writeStringWithSizeToArray value
  | .group number fields =>
    writeTagToArray (makeTag number .startGroup) ++ serializeUnknownFieldsToArray fields ++
      writeTagToArray (makeTag number .endGroup)

/-- `WireFormat::SerializeUnknownFieldsToArray`. -/
def serializeUnknownFieldsToArray : UnknownFieldSet → List CChar
  | [] => []
  | field :: fields => serializeUnknownField field ++ serializeUnknownFieldsToArray fields

end

mutual

/-- One turn of `WireFormat::ComputeUnknownFieldsSize`. -/
def computeUnknownFieldSize : UnknownField → Nat
  | .varint number value => varintSize32 (makeTag number .varint) + varintSize64 value
  | .fixed32 number _ => varintSize32 (makeTag number .fixed32) + 4
  | .fixed64 number _ => varintSize32 (makeTag number .fixed64) + 8
  | .lengthDelimited number value =>
    varintSize32 (makeTag number .lengthDelimited) + varintSize32 (BitVec.ofNat 32 value.length) +
      value.length
  | .group number fields =>
    varintSize32 (makeTag number .startGroup) + computeUnknownFieldsSize fields +
      varintSize32 (makeTag number .endGroup)

/-- `WireFormat::ComputeUnknownFieldsSize`. -/
def computeUnknownFieldsSize : UnknownFieldSet → Nat
  | [] => 0
  | field :: fields => computeUnknownFieldSize field + computeUnknownFieldsSize fields

end

end WireFormat

end SurvivalGame
