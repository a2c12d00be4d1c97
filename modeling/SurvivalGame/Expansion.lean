import SurvivalGame.MessageRoundTrip

/-! # How large a message can become

A class does not write a message as it was: a negative `int32` may come in five bytes and
is written in ten (`WriteVarint32SignExtended`), with its tag eleven bytes for six.  No
field gets longer by more than that (`byteSize_of_take`), and every field that is kept was
one on the wire, so a message is never written in more than eleven sixths of the bytes
it was parsed from.
-/
namespace SurvivalGame

open WireFormat

/-! ## One field -/

/-- Larger numbers are not shorter. -/
theorem log2_div_mono {m n : Nat} (h : m ≤ n) : m.log2 / 7 ≤ n.log2 / 7 := by
  refine Nat.div_le_div_right ?_
  rcases Nat.eq_zero_or_pos m with rfl | hm
  · exact Nat.zero_le _
  · exact (Nat.le_log2 (by omega)).mpr (Nat.le_trans (Nat.log2_self_le (by omega)) h)

/-- An `int32` that is negative was not in less than five bytes. -/
theorem varintSize32SignExtended_setWidth (value : BitVec 64) :
    6 * (1 + varintSize32SignExtended (value.setWidth 32)) ≤ 11 * (1 + varintSize64 value) := by
  have hle : (value.setWidth 32).toNat ≤ value.toNat := by
    rw [BitVec.toNat_setWidth]
    exact Nat.mod_le _ _
  rw [varintSize32SignExtended, varintSize64_eq]
  split
  · next hneg =>
    rw [BitVec.slt_zero_eq_msb, BitVec.msb_eq_decide, decide_eq_true_iff] at hneg
    have hlog := log2_div_mono (Nat.le_trans hneg hle)
    rw [Nat.log2_two_pow] at hlog
    omega
  · have hlog := log2_div_mono hle
    rw [varintSize32_eq]
    omega

theorem one_le_varintSize32 (value : CUInt) : 1 ≤ varintSize32 value := by
  rw [varintSize32_eq]
  exact Nat.le_add_left 1 _

/-- **No field gets longer** by more than five bytes for six. -/
theorem Field.byteSize_of_take {field : Field} {wire : UnknownField} {value : field.type.Value}
    (h : field.take wire = some value) :
    6 * field.byteSize value ≤ 11 * computeUnknownFieldSize wire := by
  have hdecode : field.type.decode wire = some value := by
    rw [take] at h
    split at h
    · exact h
    · cases h
  have hsize : 6 * (1 + field.type.size value) ≤ 11 * computeUnknownFieldSize wire := by
    obtain ⟨number, type, hone, hle⟩ := field
    cases wire with
    | varint wireNumber wireValue =>
      have htag := one_le_varintSize32 (makeTag wireNumber .varint)
      rw [computeUnknownFieldSize]
      cases type with
      | int32 | enum =>
        cases hdecode
        have := varintSize32SignExtended_setWidth wireValue
        change 6 * (1 + varintSize32SignExtended _) ≤ _
        omega
      | int64 =>
        cases hdecode
        change 6 * (1 + varintSize64 _) ≤ _
        omega
      | bool =>
        have hvarint : 1 ≤ varintSize64 wireValue := by
          rw [varintSize64_eq]
          exact Nat.le_add_left 1 _
        change 6 * (1 + 1) ≤ _
        omega
      | string | bytes => cases hdecode
    | lengthDelimited wireNumber wireValue =>
      have htag := one_le_varintSize32 (makeTag wireNumber .lengthDelimited)
      rw [computeUnknownFieldSize]
      cases type with
      | string | bytes =>
        cases hdecode
        change 6 * (1 + (_ + varintSize32 (BitVec.ofNat 32 wireValue.length))) ≤ _
        omega
      | int32 | int64 | enum | bool => cases hdecode
    | fixed32 | fixed64 | group => cases type <;> cases hdecode
  rw [byteSize]
  split
  · exact hsize
  · exact Nat.zero_le _

/-! ## All fields -/

/-- A sum in which one term is changed. -/
theorem sum_map_le_add {α : Type} {l : List α} (hl : l.Nodup) {f g : α → Nat} {a : α}
    (h : ∀ b, b ≠ a → g b = f b) : (l.map g).sum ≤ (l.map f).sum + g a := by
  induction l with
  | nil => exact Nat.zero_le _
  | cons b l ih =>
    rw [List.map_cons, List.map_cons, List.sum_cons, List.sum_cons]
    obtain ⟨hb, hl⟩ := List.nodup_cons.mp hl
    by_cases heq : b = a
    · subst heq
      have hrest : l.map g = l.map f :=
        List.map_congr_left fun c hc => h c fun hcb => hb (hcb ▸ hc)
      rw [hrest]
      omega
    · have := ih hl
      rw [h b heq]
      omega

namespace Message

variable {d : Descriptor}

theorem byteSizeLong_clear : (clear d).byteSizeLong = 0 := by
  have hfields : ∀ member ∈ d.fields.attach,
      member.val.byteSize ((clear d).get member) = 0 := fun member _ => by
    have hunset : member.val.type.isSet ((clear d).get member) = false :=
      FieldType.isSet_eq_false_iff.mpr rfl
    rw [Field.byteSize, hunset, if_neg Bool.false_ne_true]
  rw [byteSizeLong, List.map_congr_left hfields]
  simp [clear, computeUnknownFieldsSize]

/-- A value takes the place of another. -/
theorem byteSizeLong_set_le (message : Message d) (member : d.Member)
    (value : member.val.type.Value) :
    (message.set member value).byteSizeLong ≤
      message.byteSizeLong + member.val.byteSize value := by
  have hnodup : d.fields.attach.Nodup := List.nodup_attach.mpr (List.Nodup.of_map _ d.nodup)
  have hsum := sum_map_le_add hnodup (a := member)
    (f := fun other => other.val.byteSize (message.get other))
    (g := fun other => other.val.byteSize ((message.set member value).get other))
    fun other hne => by simp only [set, Function.update_of_ne hne]
  have hmember : (message.set member value).get member = value := Function.update_self _ _ _
  rw [hmember] at hsum
  rw [byteSizeLong, byteSizeLong]
  change computeUnknownFieldsSize message.unknownFields + _ ≤ _
  omega

theorem byteSizeLong_addUnknown (message : Message d) (wire : UnknownField) :
    (message.addUnknown wire).byteSizeLong =
      message.byteSizeLong + computeUnknownFieldSize wire := by
  have hunknown : computeUnknownFieldsSize (message.unknownFields ++ [wire]) =
      computeUnknownFieldsSize message.unknownFields + computeUnknownFieldSize wire := by
    rw [← length_serializeUnknownFieldsToArray, serialize_append, List.length_append,
      length_serializeUnknownFieldsToArray, length_serializeUnknownFieldsToArray,
      computeUnknownFieldsSize, computeUnknownFieldsSize, Nat.add_zero]
  rw [byteSizeLong, byteSizeLong]
  change computeUnknownFieldsSize (message.unknownFields ++ [wire]) + _ = _
  rw [hunknown, Nat.add_right_comm]
  rfl

/-- Field by field, whether the class has it or not. -/
theorem byteSizeLong_absorb_le (message : Message d) (fields : UnknownFieldSet) :
    6 * (message.absorb fields).byteSizeLong ≤
      6 * message.byteSizeLong + 11 * computeUnknownFieldsSize fields := by
  induction fields generalizing message with
  | nil =>
    have hnil : message.absorb [] = message := by simp [absorb]
    rw [hnil]
    exact Nat.le_add_right _ _
  | cons wire fields ih =>
    rw [computeUnknownFieldsSize]
    obtain ⟨member, value, htake, -⟩ | ⟨htakes, -⟩ := message.interpret_cases wire
    · have hrest := ih (message.set member value)
      have hset := message.byteSizeLong_set_le member value
      have hfield := Field.byteSize_of_take htake
      rw [absorb_cons_of_take htake]
      omega
    · have hrest := ih (message.addUnknown wire)
      have hadd := message.byteSizeLong_addUnknown wire
      rw [absorb_cons_of_not_takes htakes]
      omega

/-- **A message is not much larger than what it was parsed from**: eleven bytes for six at
most, so that what was parsed from six elevenths of `INT_MAX` can be written. -/
theorem byteSizeLong_of_parseFromArray {data : SizedArray} {message : Message d}
    (h : parseFromArray d data = some message) :
    6 * message.byteSizeLong ≤ 11 * data.val.length ∧
      (11 * data.val.length ≤ 6 * intMax →
        message.serializeToString = some message.serializeWithCachedSizesToArray) := by
  rw [parseFromArray_eq_parseFromCodedStream] at h
  obtain ⟨fields, hspells, -, rfl⟩ := parseFromCodedStream_eq_some_iff.mp h
  have habsorb := (clear d).byteSizeLong_absorb_le fields
  have hlength := length_serialize_le_of_spells hspells
  rw [length_serializeUnknownFieldsToArray] at hlength
  rw [byteSizeLong_clear] at habsorb
  have hbound : 6 * ((clear d).absorb fields).byteSizeLong ≤ 11 * data.val.length := by omega
  refine ⟨hbound, fun hsize => ?_⟩
  exact serializeToString_eq_some_iff.mpr ⟨by omega, rfl⟩

/-- Minus one in five bytes is written in ten: the bound is reached. -/
theorem byteSizeLong_of_parseFromArray_negative :
    6 * ((clear GameMessage.HeartRequest).set ⟨.ofNat 1 .int32, by decide⟩
        (-1 : BitVec 32)).byteSizeLong ≤ 11 * 6 ∧
      6 * ((clear GameMessage.HeartRequest).set ⟨.ofNat 1 .int32, by decide⟩
        (-1 : BitVec 32)).byteSizeLong = 11 * 6 :=
  ⟨(byteSizeLong_of_parseFromArray (show parseFromArray GameMessage.HeartRequest
    ⟨[8, 0xff, 0xff, 0xff, 0xff, 0x0f], by decide⟩ = some _ from rfl)).1, rfl⟩

end Message

end SurvivalGame
