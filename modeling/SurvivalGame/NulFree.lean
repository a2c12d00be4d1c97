import SurvivalGame.MessageRoundTrip

/-! # Messages in pockets

`MakePocket` takes a C string, so that a message that is pushed ends at its first zero
byte.  What is left of it is then no message of any class (`parseFromArray_makePocket`):
the zero byte is inside a field, because no field starts with one.

The numbers of a class are never written as zero, so whether a message that a program
makes has a zero byte is a matter of its texts and of its unknown fields
(`zero_mem_serialize_iff`).
-/
namespace SurvivalGame

/-! ## What is left of a message -/

namespace WireFormat

theorem SpellsTag.append_ne_zero_cons {t : List CChar} {tag : CUInt} (h : SpellsTag t tag)
    (htag : tag ≠ 0#32) (p rest : List CChar) : t ++ p ≠ 0 :: rest := by
  obtain ⟨n, hnumber, rfl⟩ := h
  intro heq
  cases t with
  | nil => exact hnumber.ne_nil rfl
  | cons b t =>
    obtain rfl : b = 0 := (List.cons.inj heq).1
    have hzero : Base128.decode 10 (0 :: t) = some (0, t) :=
      Base128.decode_last (by decide) 9 t
    have hn : (0, t) = (n, []) := Option.some.inj (hzero.symm.trans hnumber)
    obtain ⟨rfl, -⟩ := Prod.mk.inj hn
    exact htag rfl

/-- No sequence of fields starts with a zero byte. -/
theorem not_spells_zero_cons {budget : Nat} {rest : List CChar} {fields : UnknownFieldSet} :
    ¬ Spells budget (0 :: rest) fields := by
  intro h
  generalize hs : 0 :: rest = s at h
  cases h with
  | nil => cases hs
  | scalar hnumber htag => exact htag.append_ne_zero_cons (hnumber.tag_ne_zero _) _ _ hs.symm
  | group hnumber hstart =>
    exact hstart.append_ne_zero_cons (hnumber.tag_ne_zero _) _ _ hs.symm

/-- **Fields that are cut at a zero byte** are no fields any more. -/
theorem not_spells_takeWhile {data : List CChar} {fields fields' : UnknownFieldSet}
    (h : Spells recursionLimit data fields) (hzero : 0 ∈ data) :
    ¬ Spells recursionLimit (data.takeWhile (· ≠ 0)) fields' := by
  intro hcut
  obtain ⟨p, rest, rfl, hfree⟩ := List.eq_append_cons_of_mem hzero
  rw [takeWhile_append_nul, takeWhile_eq_self_of_nul_free hfree] at hcut
  have happend := parseFromCodedStream_append hcut (0 :: rest)
  rw [parseFromCodedStream_eq_some_iff.mpr h] at happend
  obtain ⟨fields'', hrest, -⟩ := Option.map_eq_some_iff.mp happend.symm
  exact not_spells_zero_cons (parseFromCodedStream_eq_some_iff.mp hrest)

end WireFormat

namespace Message

variable {d : Descriptor}

theorem parseFromCodedStream_takeWhile {bytes : List CChar} {message : Message d}
    (h : parseFromCodedStream d (Unread.ofBytes bytes) = some message) :
    parseFromCodedStream d (Unread.ofBytes (bytes.takeWhile (· ≠ 0))) =
      if 0 ∈ bytes then none else some message := by
  split
  · next hzero =>
    obtain ⟨fields, hspells, -, -⟩ := parseFromCodedStream_eq_some_iff.mp h
    rw [Option.eq_none_iff_forall_ne_some]
    intro message' h'
    obtain ⟨fields', hspells', -, -⟩ := parseFromCodedStream_eq_some_iff.mp h'
    exact WireFormat.not_spells_takeWhile hspells hzero hspells'
  · next hzero => rw [takeWhile_eq_self_of_nul_free hzero, h]

/-- **A pocket holds a message or nothing that is one**: it is never another message of
the class. -/
theorem parseFromArray_makePocket {data pocket : SizedArray} {message : Message d}
    (h : parseFromArray d data = some message) {msgid : CUInt}
    (hpocket : pocket.val = (makePocket data.val msgid).msg) :
    parseFromArray d pocket = if 0 ∈ data.val then none else some message := by
  have hlength := Nat.le_trans (strlen_le data.val) data.property
  rw [parseFromArray_eq_parseFromCodedStream] at h ⊢
  rw [hpocket, makePocket_msg (Nat.lt_of_le_of_lt hlength (by decide)),
    parseFromCodedStream_takeWhile h]

end Message

/-! ## Zero bytes -/

namespace WireFormat

theorem zero_mem_writeVarint32ToArray {value : CUInt} :
    0 ∈ writeVarint32ToArray value ↔ value = 0 := by
  rw [writeVarint32ToArray_eq_encode,
    Base128.zero_mem_encode (Nat.lt_trans value.isLt (by decide)), ← BitVec.toNat_inj]
  rfl

theorem zero_mem_writeVarint64ToArray {value : BitVec 64} :
    0 ∈ writeVarint64ToArray value ↔ value = 0 := by
  rw [writeVarint64ToArray_eq,
    Base128.zero_mem_encode (Nat.lt_trans value.isLt (by decide)), ← BitVec.toNat_inj]
  rfl

theorem zero_not_mem_writeTagToArray {number : BitVec 32} (h : ValidNumber number)
    (type : WireType) : 0 ∉ writeTagToArray (makeTag number type) := by
  rw [writeTagToArray, zero_mem_writeVarint32ToArray]
  exact h.tag_ne_zero type

theorem zero_mem_writeStringWithSizeToArray {value : List CChar} (h : value.length < 2 ^ 31) :
    0 ∈ writeStringWithSizeToArray value ↔ value = [] ∨ 0 ∈ value := by
  rw [writeStringWithSizeToArray, List.mem_append, zero_mem_writeVarint32ToArray,
    ← BitVec.toNat_inj, BitVec.toNat_ofNat, ← List.length_eq_zero_iff]
  have hzero : (0 : CUInt).toNat = 0 := rfl
  refine or_congr ?_ Iff.rfl
  omega

/-- None of the bytes is zero. -/
def zeroFree (bytes : List CChar) : Bool := bytes.all (· != 0)

theorem zeroFree_eq_false_iff {bytes : List CChar} : zeroFree bytes = false ↔ 0 ∈ bytes := by
  simp [zeroFree]

mutual

/-- A field is written with no zero byte. -/
def nulFree : UnknownField → Bool
  | .varint _ value => value != 0
  | .fixed32 _ value => zeroFree (writeLittleEndian32ToArray value)
  | .fixed64 _ value => zeroFree (writeLittleEndian64ToArray value)
  | .lengthDelimited _ value => !value.isEmpty && zeroFree value
  | .group _ fields => nulFreeAll fields

/-- All the fields are. -/
def nulFreeAll : UnknownFieldSet → Bool
  | [] => true
  | field :: fields => nulFree field && nulFreeAll fields

end

theorem nulFreeAll_iff {fields : UnknownFieldSet} :
    nulFreeAll fields = true ↔ ∀ field ∈ fields, nulFree field = true := by
  induction fields with
  | nil => simp [nulFreeAll]
  | cons field fields ih => simp [nulFreeAll, ih]

mutual

theorem zero_mem_serializeUnknownField {field : UnknownField} {budget : Nat}
    (h : Fits field budget) : 0 ∈ serializeUnknownField field ↔ nulFree field = false := by
  cases field with
  | varint number value =>
    have htag := zero_not_mem_writeTagToArray (h : ValidNumber number) .varint
    rw [serializeUnknownField, List.mem_append, or_iff_right htag, zero_mem_writeVarint64ToArray,
      nulFree]
    simp
  | fixed32 number value =>
    have htag := zero_not_mem_writeTagToArray (h : ValidNumber number) .fixed32
    rw [serializeUnknownField, List.mem_append, or_iff_right htag, nulFree, zeroFree_eq_false_iff]
  | fixed64 number value =>
    have htag := zero_not_mem_writeTagToArray (h : ValidNumber number) .fixed64
    rw [serializeUnknownField, List.mem_append, or_iff_right htag, nulFree, zeroFree_eq_false_iff]
  | lengthDelimited number value =>
    rw [Fits] at h
    have htag := zero_not_mem_writeTagToArray h.1 .lengthDelimited
    rw [serializeUnknownField, List.mem_append, or_iff_right htag,
      zero_mem_writeStringWithSizeToArray h.2, nulFree, Bool.and_eq_false_iff,
      zeroFree_eq_false_iff, Bool.not_eq_false', List.isEmpty_iff]
  | group number fields =>
    rw [Fits] at h
    have hstart := zero_not_mem_writeTagToArray h.1 .startGroup
    have hend := zero_not_mem_writeTagToArray h.1 .endGroup
    rw [serializeUnknownField, List.mem_append, List.mem_append, or_iff_left hend,
      or_iff_right hstart, zero_mem_serializeUnknownFieldsToArray h.2.2, nulFree]

/-- **Where zero bytes come from.** -/
theorem zero_mem_serializeUnknownFieldsToArray {fields : UnknownFieldSet} {budget : Nat}
    (h : FitsAll fields budget) :
    0 ∈ serializeUnknownFieldsToArray fields ↔ nulFreeAll fields = false := by
  cases fields with
  | nil => simp [nulFreeAll]
  | cons field fields =>
    rw [FitsAll] at h
    rw [serialize_cons, List.mem_append, zero_mem_serializeUnknownField h.1,
      zero_mem_serializeUnknownFieldsToArray h.2, nulFreeAll, Bool.and_eq_false_iff]

end

end WireFormat

namespace FieldType

/-- A text without a NUL, or any number. -/
def nulFree : (type : FieldType) → type.Value → Bool
  | string, (value : List CChar) | bytes, (value : List CChar) => WireFormat.zeroFree value
  | _, _ => true

theorem nulFree_default (type : FieldType) : type.nulFree type.default = true := by
  cases type <;> rfl

theorem nulFree_encode {type : FieldType} {value : type.Value} (h : type.isSet value = true)
    (number : BitVec 32) :
    WireFormat.nulFree (type.encode number value) = type.nulFree value := by
  have hset : ¬ value = type.default := by
    rw [← isSet_eq_false_iff, h]
    exact Bool.noConfusion
  cases type with
  | int32 | enum =>
    have hwide : BitVec.signExtend 64 (value : BitVec 32) ≠ 0 := by
      intro h0
      have := setWidth_signExtend value
      rw [h0] at this
      exact hset this.symm
    simpa [encode, WireFormat.nulFree, nulFree] using hwide
  | int64 =>
    have hne : ¬ value = (0 : BitVec 64) := hset
    simpa [encode, WireFormat.nulFree, nulFree] using hne
  | bool =>
    obtain rfl : value = true := h
    rfl
  | string | bytes =>
    have hne : ¬ value = ([] : List CChar) := hset
    simp [encode, WireFormat.nulFree, nulFree, hne]

end FieldType

namespace Message

variable {d : Descriptor}

/-- No text of the message has a NUL, and no unknown field is written with one. -/
def nulFree (message : Message d) : Bool :=
  d.fields.attach.all (fun member => member.val.type.nulFree (message.get member)) &&
    WireFormat.nulFreeAll message.unknownFields

theorem nulFreeAll_records (message : Message d) :
    WireFormat.nulFreeAll message.records = message.nulFree := by
  rw [Bool.eq_iff_iff, WireFormat.nulFreeAll_iff, nulFree, Bool.and_eq_true, List.all_eq_true,
    WireFormat.nulFreeAll_iff, records]
  constructor
  · intro h
    refine ⟨fun member hmember => ?_, fun wire hwire => h wire (List.mem_append_right _ hwire)⟩
    cases hset : member.val.type.isSet (message.get member) with
    | true =>
      rw [← FieldType.nulFree_encode hset member.val.number]
      exact h _ (List.mem_append_left _ (mem_values.mpr ⟨member, hmember, hset, rfl⟩))
    | false =>
      rw [FieldType.isSet_eq_false_iff.mp hset]
      exact FieldType.nulFree_default _
  · rintro ⟨hvalues, hunknown⟩ wire hwire
    rcases List.mem_append.mp hwire with hwire | hwire
    · obtain ⟨member, hmember, hset, rfl⟩ := mem_values.mp hwire
      rw [Field.record, FieldType.nulFree_encode hset]
      exact hvalues member hmember
    · exact hunknown wire hwire

/-- **Which messages have a zero byte.** -/
theorem zero_mem_serialize_iff {message : Message d} (h : message.Fits)
    (hsize : message.byteSizeLong ≤ intMax) :
    0 ∈ message.serializeWithCachedSizesToArray ↔ message.nulFree = false := by
  have hfits := WireFormat.fitsAll_of_spells (h.spells hsize)
  rw [serializeWithCachedSizesToArray_eq, WireFormat.zero_mem_serializeUnknownFieldsToArray hfits,
    nulFreeAll_records]

/-- **A message that a program makes and pushes** is in the pocket exactly if no text and
no unknown field of it is written with a zero byte; else there is no message in it. -/
theorem Built.parse_makePocket {message : Message d} (h : Built message) {data : List CChar}
    (hdata : message.serializeToString = some data) {msgid : CUInt} {pocket : SizedArray}
    (hpocket : pocket.val = (makePocket data msgid).msg) :
    parseFromArray d pocket = if message.nulFree then some message else none := by
  obtain ⟨hsize, rfl⟩ := serializeToString_eq_some_iff.mp hdata
  have hlength : message.serializeWithCachedSizesToArray.length ≤ intMax := by
    rwa [length_serializeWithCachedSizesToArray]
  have hparse : parseFromArray d ⟨_, hlength⟩ = some message := by
    rw [parseFromArray_eq_parseFromCodedStream]
    exact parseFromCodedStream_serialize h.fits hsize
  rw [parseFromArray_makePocket hparse hpocket]
  have hzero := zero_mem_serialize_iff h.fits hsize
  cases hfree : message.nulFree with
  | true => rw [if_neg (by rw [hzero, hfree]; exact Bool.noConfusion), if_pos rfl]
  | false => rw [if_pos (hzero.mpr hfree), if_neg Bool.noConfusion]

/-- A message with a NUL in its text is refused. -/
theorem Built.parse_makePocket_nul :
    parseFromArray GameMessage.SystemErrorResponse ⟨[26, 2, 104], by decide⟩ = none :=
  Built.parse_makePocket
    (show Built ((clear GameMessage.SystemErrorResponse).set ⟨.ofNat 3 .bytes, by decide⟩
      ([104, 0] : List CChar)) from .set .new _ rfl)
    (show _ = some [26, 2, 104, 0] from rfl) (show _ = (makePocket _ 1002).msg from rfl)

end Message

end SurvivalGame
