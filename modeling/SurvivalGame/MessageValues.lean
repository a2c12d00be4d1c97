import SurvivalGame.Interpretation
import SurvivalGame.LastWins
import SurvivalGame.LongestText
import SurvivalGame.WireRoundTrip

/-! # What a message holds

After any fields of the wire have been interpreted, a field of the class has the last
value there was for it, and the fields that belong to no field of the class are kept in
their order (`foldlM_interpret`).  What a message writes are its own fields that are set,
and then those (`records`); to interpret them is to merge the message
(`absorb_records`).
-/
namespace SurvivalGame

/-! ## The fields of the wire that belong to a field -/

namespace FieldType

/-- A value on the wire. -/
def encode : (type : FieldType) → BitVec 32 → type.Value → UnknownField
  | int32, number, (value : BitVec 32) | enum, number, (value : BitVec 32) =>
    .varint number (value.signExtend 64)
  | int64, number, (value : BitVec 64) => .varint number value
  | bool, number, (value : Bool) => .varint number (if value then 1 else 0)
  | string, number, (value : List CChar) | bytes, number, (value : List CChar) =>
    .lengthDelimited number value

@[simp] theorem number_encode (type : FieldType) (number : BitVec 32) (value : type.Value) :
    (type.encode number value).number = number := by
  cases type <;> rfl

@[simp] theorem decode_encode (type : FieldType) (number : BitVec 32) (value : type.Value) :
    type.decode (type.encode number value) = some value := by
  cases type with
  | int32 | enum =>
    exact congrArg some (setWidth_signExtend value)
  | bool => cases value <;> rfl
  | int64 | string | bytes => rfl

theorem isSet_eq_false_iff {type : FieldType} {value : type.Value} :
    type.isSet value = false ↔ value = type.default := by
  cases type with
  | int32 | enum | int64 => exact bne_eq_false_iff_eq
  | bool => exact Iff.rfl
  | string | bytes =>
    change decide (0 < List.length value) = false ↔ value = []
    rw [decide_eq_false_iff_not, Nat.not_lt, Nat.le_zero, List.length_eq_zero_iff]

@[simp] theorem verify_default (type : FieldType) : type.verify type.default = true := by
  cases type <;> rfl

end FieldType

namespace Field

variable (field : Field)

/-- The value of a field of the wire, if it is one for this field. -/
def take (wire : UnknownField) : Option field.type.Value :=
  if wire.number = field.number then field.type.decode wire else none

/-- A value on the wire. -/
def record (value : field.type.Value) : UnknownField := field.type.encode field.number value

/-- A value on the wire, if it is set. -/
def canonical (value : field.type.Value) : UnknownFieldSet :=
  if field.type.isSet value then [field.record value] else []

@[simp] theorem take_record (value : field.type.Value) :
    field.take (field.record value) = some value := by
  rw [take, record, if_pos (FieldType.number_encode _ _ _), FieldType.decode_encode]

theorem take_record_of_ne {field other : Field} (h : field.number ≠ other.number)
    (value : field.type.Value) : other.take (field.record value) = none := by
  rw [take, record, FieldType.number_encode, if_neg h]

theorem number_of_take {field : Field} {wire : UnknownField} {value : field.type.Value}
    (h : field.take wire = some value) : wire.number = field.number := by
  rw [take] at h
  split at h
  · assumption
  · cases h

theorem mem_canonical {field : Field} {value : field.type.Value} {wire : UnknownField} :
    wire ∈ field.canonical value ↔ field.type.isSet value = true ∧ wire = field.record value := by
  rw [canonical]
  split <;> simp [*]

end Field

namespace Descriptor

variable (d : Descriptor)

/-- A field of the wire is one of the class. -/
def takes (wire : UnknownField) : Bool := d.fields.any fun field => (field.take wire).isSome

/-- A field of the wire has text where the class has a string. -/
def verifies (wire : UnknownField) : Bool :=
  d.fields.all fun field => (field.take wire).all field.type.verify

variable {d}

theorem takes_eq_false_iff {wire : UnknownField} :
    d.takes wire = false ↔ ∀ field ∈ d.fields, field.take wire = none := by
  simp [takes]

theorem takes_of_take {field : Field} (hfield : field ∈ d.fields) {wire : UnknownField}
    {value : field.type.Value} (h : field.take wire = some value) : d.takes wire = true := by
  rw [takes, List.any_eq_true]
  exact ⟨field, hfield, by rw [h]; rfl⟩

theorem verifies_iff {wire : UnknownField} : d.verifies wire = true ↔
    ∀ field ∈ d.fields, ∀ value, field.take wire = some value → field.type.verify value = true := by
  simp only [verifies, List.all_eq_true, Option.all_eq_true]

theorem verifies_of_not_takes {wire : UnknownField} (h : d.takes wire = false) :
    d.verifies wire = true := by
  rw [verifies_iff]
  intro field hfield value hvalue
  rw [takes_eq_false_iff.mp h field hfield] at hvalue
  cases hvalue

/-- No two fields of a class take the same field of the wire. -/
theorem take_eq_none_of_ne {a b : d.Member} (hne : a ≠ b) {wire : UnknownField}
    {value : a.val.type.Value} (h : a.val.take wire = some value) : b.val.take wire = none := by
  rw [Field.take, Field.number_of_take h, if_neg]
  exact fun heq => hne (member_ext heq)

theorem verifies_of_take {member : d.Member} {wire : UnknownField}
    {value : member.val.type.Value} (h : member.val.take wire = some value) :
    d.verifies wire = member.val.type.verify value := by
  rw [Bool.eq_iff_iff, verifies_iff]
  constructor
  · exact fun hall => hall _ member.property value h
  · intro hvalue field hfield other hother
    by_cases heq : member = ⟨field, hfield⟩
    · subst heq
      obtain rfl := Option.some.inj (h.symm.trans hother)
      exact hvalue
    · have hnone : field.take wire = none := take_eq_none_of_ne heq h
      rw [hnone] at hother
      cases hother

end Descriptor

/-! ## Interpreting fields one after the other -/

namespace Message

variable {d : Descriptor}

/-- Either a field of the class takes it, or it is kept. -/
theorem interpret_cases (message : Message d) (wire : UnknownField) :
    (∃ (member : d.Member) (value : member.val.type.Value), member.val.take wire = some value ∧
      message.interpret wire =
        if member.val.type.verify value then some (message.set member value) else none) ∨
      d.takes wire = false ∧ message.interpret wire = some (message.addUnknown wire) := by
  cases hfind : d.find? wire.number with
  | none =>
    refine .inr ⟨Descriptor.takes_eq_false_iff.mpr fun field hfield => ?_,
      interpret_of_find?_eq_none hfind⟩
    rw [Field.take, if_neg]
    intro hnumber
    rw [hnumber, Descriptor.find?_number ⟨field, hfield⟩] at hfind
    cases hfind
  | some member =>
    have hnumber := Descriptor.number_of_find? hfind
    cases hvalue : member.val.type.decode wire with
    | some value =>
      refine .inl ⟨member, value, ?_, interpret_of_decode hfind hvalue⟩
      rw [Field.take, if_pos hnumber.symm, hvalue]
    | none =>
      refine .inr ⟨Descriptor.takes_eq_false_iff.mpr fun field hfield => ?_,
        interpret_of_decode_eq_none hfind hvalue⟩
      rw [Field.take]
      split
      · next heq =>
        obtain rfl : member = ⟨field, hfield⟩ := Descriptor.member_ext (hnumber.trans heq)
        exact hvalue
      · rfl

/-- A message and fields of the wire behind it. -/
def absorb (message : Message d) (fields : UnknownFieldSet) : Message d where
  get member := LastWins.last member.val.take (message.get member) fields
  unknownFields := message.unknownFields ++ fields.filter (!d.takes ·)

theorem absorb_cons_of_take {message : Message d} {wire : UnknownField}
    {fields : UnknownFieldSet} {member : d.Member} {value : member.val.type.Value}
    (h : member.val.take wire = some value) :
    message.absorb (wire :: fields) = (message.set member value).absorb fields := by
  refine Message.ext (funext fun other => ?_) ?_
  · by_cases heq : member = other
    · subst heq
      simp [absorb, set, h]
    · simp [absorb, set, Descriptor.take_eq_none_of_ne heq h, Function.update_of_ne (Ne.symm heq)]
  · simp [absorb, set, Descriptor.takes_of_take member.property h]

theorem absorb_cons_of_not_takes {message : Message d} {wire : UnknownField}
    {fields : UnknownFieldSet} (h : d.takes wire = false) :
    message.absorb (wire :: fields) = (message.addUnknown wire).absorb fields := by
  refine Message.ext (funext fun other => ?_) ?_
  · simp [absorb, addUnknown, Descriptor.takes_eq_false_iff.mp h _ other.property]
  · simp [absorb, addUnknown, h]

/-- **What interpreting fields leaves**: the last values, and the fields of others in
their order; it fails only on a string that is not text. -/
theorem foldlM_interpret (message : Message d) (fields : UnknownFieldSet) :
    fields.foldlM interpret message =
      if fields.all d.verifies then some (message.absorb fields) else none := by
  induction fields generalizing message with
  | nil => simp [absorb]
  | cons wire fields ih =>
    rw [List.foldlM_cons, List.all_cons]
    obtain ⟨member, value, htake, h⟩ | ⟨htakes, h⟩ := message.interpret_cases wire
    · have hverifies := Descriptor.verifies_of_take htake
      rw [h, hverifies]
      cases member.val.type.verify value with
      | true => simp [ih, absorb_cons_of_take htake]
      | false => simp
    · have hverifies := Descriptor.verifies_of_not_takes htakes
      simp [h, hverifies, ih, absorb_cons_of_not_takes htakes]

/-! ## The fields that a message writes -/

/-- The values of some of the fields, as they are written. -/
def values (message : Message d) (members : List d.Member) : UnknownFieldSet :=
  members.flatMap fun member => member.val.canonical (message.get member)

/-- What a message writes. -/
def records (message : Message d) : UnknownFieldSet :=
  message.values d.fields.attach ++ message.unknownFields

theorem mem_values {message : Message d} {members : List d.Member} {wire : UnknownField} :
    wire ∈ message.values members ↔ ∃ member ∈ members,
      member.val.type.isSet (message.get member) = true ∧
        wire = member.val.record (message.get member) := by
  simp only [values, List.mem_flatMap, Field.mem_canonical]

theorem last_values (source : Message d) (member : d.Member) (x : member.val.type.Value)
    (members : List d.Member) : LastWins.last member.val.take x (source.values members) =
      if member ∈ members ∧ member.val.type.isSet (source.get member) then source.get member
      else x := by
  induction members generalizing x with
  | nil => simp [values]
  | cons other members ih =>
    have hother : LastWins.last member.val.take x (other.val.canonical (source.get other)) =
        if member = other ∧ member.val.type.isSet (source.get member) then source.get member
        else x := by
      rw [Field.canonical]
      by_cases heq : member = other
      · subst heq
        split <;> simp [*]
      · have hnumber : other.val.number ≠ member.val.number :=
          fun h => heq (Descriptor.member_ext h).symm
        split <;> simp [heq, Field.take_record_of_ne hnumber]
    rw [values, List.flatMap_cons, LastWins.last_append, hother]
    refine (ih _).trans ?_
    by_cases hset : member.val.type.isSet (source.get member) = true
    · by_cases hmem : member ∈ members <;> by_cases heq : member = other <;> simp [*]
    · simp [hset]

theorem takes_of_mem_values {message : Message d} {members : List d.Member}
    {wire : UnknownField} (h : wire ∈ message.values members) : d.takes wire = true := by
  obtain ⟨member, -, -, rfl⟩ := mem_values.mp h
  exact Descriptor.takes_of_take member.property (Field.take_record _ _)

/-- **A message is merged** by interpreting what it writes. -/
theorem absorb_records {message source : Message d}
    (h : ∀ wire ∈ source.unknownFields, d.takes wire = false) :
    message.absorb source.records = message.mergeFrom source := by
  refine Message.ext (funext fun member => ?_) ?_
  · change LastWins.last _ _ (_ ++ _) = _
    rw [LastWins.last_append, last_values, LastWins.last_eq_of_forall_none fun wire hwire =>
      Descriptor.takes_eq_false_iff.mp (h wire hwire) _ member.property]
    simp [mergeFrom]
  · have hvalues : (source.values d.fields.attach).filter (!d.takes ·) = [] := by
      rw [List.filter_eq_nil_iff]
      intro wire hwire
      simp [takes_of_mem_values hwire]
    have hunknown : source.unknownFields.filter (!d.takes ·) = source.unknownFields := by
      rw [List.filter_eq_self]
      intro wire hwire
      simp [h wire hwire]
    rw [absorb, records, List.filter_append, hvalues, hunknown]
    rfl

theorem clear_mergeFrom (message : Message d) : (clear d).mergeFrom message = message := by
  refine Message.ext (funext fun member => ?_) (List.nil_append _)
  change (if _ then message.get member else member.val.type.default) = message.get member
  split
  · rfl
  · next h => exact (FieldType.isSet_eq_false_iff.mp (Bool.eq_false_iff.mpr h)).symm

/-! ## Writing is writing these -/

theorem writeToArray_eq (field : Field) (value : field.type.Value) :
    field.writeToArray value =
      WireFormat.serializeUnknownFieldsToArray (field.canonical value) := by
  have hone (number : BitVec 32) (type : FieldType) (value : type.Value) :
      writeTagToArray (makeTag number type.wireType) ++ type.writeNoTagToArray value =
        WireFormat.serializeUnknownField (type.encode number value) := by
    cases type with
    | bool => cases value <;> rfl
    | _ => rfl
  rw [Field.writeToArray, Field.canonical]
  split
  · rw [WireFormat.serialize_cons, WireFormat.serialize_nil, List.append_nil]
    exact hone field.number field.type value
  · rw [WireFormat.serialize_nil]

/-- **What a message writes are its records.** -/
theorem serializeWithCachedSizesToArray_eq (message : Message d) :
    message.serializeWithCachedSizesToArray =
      WireFormat.serializeUnknownFieldsToArray message.records := by
  have hvalues (members : List d.Member) :
      members.flatMap (fun member => member.val.writeToArray (message.get member)) =
        WireFormat.serializeUnknownFieldsToArray (message.values members) := by
    induction members with
    | nil => exact WireFormat.serialize_nil.symm
    | cons member members ih =>
      rw [List.flatMap_cons, ih, writeToArray_eq, ← WireFormat.serialize_append]
      rfl
  rw [serializeWithCachedSizesToArray, hvalues, records, WireFormat.serialize_append]

end Message

end SurvivalGame
