import SurvivalGame.WireGrammar

/-! # Writing fields and reading them back

What `WireFormat` writes for a set of fields spells that set (`spells_serialize`), as long
as the numbers are field numbers, no string is longer than an `int` can say, and groups
are nested within the budget (`FitsAll`).  A set that was read fits, so that writing what
was read and reading it again changes nothing, and what is written is never longer than
what was read (`length_serialize_le_of_spells`).
-/
namespace SurvivalGame

namespace WireFormat

instance (number : BitVec 32) : Decidable (ValidNumber number) :=
  inferInstanceAs (Decidable (_ ∧ _))

mutual

/-- The field can be read back, within a budget for groups. -/
def Fits : UnknownField → Nat → Prop
  | .varint number _, _ => ValidNumber number
  | .fixed32 number _, _ => ValidNumber number
  | .fixed64 number _, _ => ValidNumber number
  | .lengthDelimited number value, _ => ValidNumber number ∧ value.length < 2 ^ 31
  | .group number fields, budget => ValidNumber number ∧ 0 < budget ∧ FitsAll fields (budget - 1)

/-- All the fields can. -/
def FitsAll : UnknownFieldSet → Nat → Prop
  | [], _ => True
  | field :: fields, budget => Fits field budget ∧ FitsAll fields budget

end

mutual

/-- `Fits` is decided along the field. -/
def decidableFits : (field : UnknownField) → (budget : Nat) → Decidable (Fits field budget)
  | .varint number _, _ => inferInstanceAs (Decidable (ValidNumber number))
  | .fixed32 number _, _ => inferInstanceAs (Decidable (ValidNumber number))
  | .fixed64 number _, _ => inferInstanceAs (Decidable (ValidNumber number))
  | .lengthDelimited number value, _ =>
    inferInstanceAs (Decidable (ValidNumber number ∧ value.length < 2 ^ 31))
  | .group number fields, budget =>
    have := decidableFitsAll fields (budget - 1)
    inferInstanceAs (Decidable (ValidNumber number ∧ 0 < budget ∧ FitsAll fields (budget - 1)))

/-- `FitsAll` is decided along the fields. -/
def decidableFitsAll :
    (fields : UnknownFieldSet) → (budget : Nat) → Decidable (FitsAll fields budget)
  | [], _ => inferInstanceAs (Decidable True)
  | field :: fields, budget =>
    have := decidableFits field budget
    have := decidableFitsAll fields budget
    inferInstanceAs (Decidable (Fits field budget ∧ FitsAll fields budget))

end

instance (fields : UnknownFieldSet) (budget : Nat) : Decidable (FitsAll fields budget) :=
  decidableFitsAll fields budget

theorem fitsAll_append {fields fields' : UnknownFieldSet} {budget : Nat} :
    FitsAll (fields ++ fields') budget ↔ FitsAll fields budget ∧ FitsAll fields' budget := by
  induction fields with
  | nil => simp [FitsAll]
  | cons field fields ih => simp [FitsAll, ih, and_assoc]

@[simp] theorem serialize_nil : serializeUnknownFieldsToArray [] = [] := by
  rw [serializeUnknownFieldsToArray]

theorem serialize_cons (field : UnknownField) (fields : UnknownFieldSet) :
    serializeUnknownFieldsToArray (field :: fields) =
      serializeUnknownField field ++ serializeUnknownFieldsToArray fields := by
  rw [serializeUnknownFieldsToArray]

theorem serialize_append (fields fields' : UnknownFieldSet) :
    serializeUnknownFieldsToArray (fields ++ fields') =
      serializeUnknownFieldsToArray fields ++ serializeUnknownFieldsToArray fields' := by
  induction fields with
  | nil => simp
  | cons field fields ih => simp [serialize_cons, ih]

/-! ## The size is computed before -/

mutual

theorem length_serializeUnknownField (field : UnknownField) :
    (serializeUnknownField field).length = computeUnknownFieldSize field := by
  cases field with
  | varint number value =>
    rw [serializeUnknownField, computeUnknownFieldSize, List.length_append, writeTagToArray,
      length_writeVarint32ToArray, length_writeVarint64ToArray]
  | fixed32 number value =>
    rw [serializeUnknownField, computeUnknownFieldSize, List.length_append, writeTagToArray,
      length_writeVarint32ToArray, length_writeLittleEndian32ToArray]
  | fixed64 number value =>
    rw [serializeUnknownField, computeUnknownFieldSize, List.length_append, writeTagToArray,
      length_writeVarint32ToArray, length_writeLittleEndian64ToArray]
  | lengthDelimited number value =>
    rw [serializeUnknownField, computeUnknownFieldSize, List.length_append, writeTagToArray,
      length_writeVarint32ToArray, length_writeStringWithSizeToArray, lengthDelimitedSize]
    omega
  | group number fields =>
    rw [serializeUnknownField, computeUnknownFieldSize, List.length_append, List.length_append,
      writeTagToArray, writeTagToArray, length_writeVarint32ToArray, length_writeVarint32ToArray,
      length_serializeUnknownFieldsToArray fields]

/-- **The computed size is the length of what is written.** -/
theorem length_serializeUnknownFieldsToArray (fields : UnknownFieldSet) :
    (serializeUnknownFieldsToArray fields).length = computeUnknownFieldsSize fields := by
  cases fields with
  | nil => rw [serializeUnknownFieldsToArray, computeUnknownFieldsSize, List.length_nil]
  | cons field fields =>
    rw [serialize_cons, computeUnknownFieldsSize, List.length_append,
      length_serializeUnknownField field, length_serializeUnknownFieldsToArray fields]

end

/-! ## What is written is spelled -/

theorem spellsNumber_encode {n : Nat} (h : n < 2 ^ 64) : SpellsNumber (Base128.encode 10 n) n := by
  have hdec := Base128.decode_encode (k := 9) (n := n) (Nat.lt_trans h (by decide)) []
  rwa [List.append_nil] at hdec

theorem spellsNumber_writeVarint64ToArray (value : BitVec 64) :
    SpellsNumber (writeVarint64ToArray value) value.toNat := by
  rw [writeVarint64ToArray_eq]
  exact spellsNumber_encode value.isLt

/-- **Numbers come back** from any stream in which they are next, a negative `int32` from its
ten bytes. -/
theorem readVarint_writeVarint (s : CodedInputStream) (rest : List CChar) :
    (∀ value : BitVec 64, s.unread.bytes = writeVarint64ToArray value ++ rest →
      s.readVarint64.toOption.map (Prod.map id CodedInputStream.unread) =
        some (value, { s.unread with bytes := rest })) ∧
    (∀ value : CUInt, s.unread.bytes = writeVarint32ToArray value ++ rest →
      s.readVarint32.toOption.map (Prod.map id CodedInputStream.unread) =
        some (value, { s.unread with bytes := rest })) ∧
    (∀ value : BitVec 32, s.unread.bytes = writeVarint32SignExtendedToArray value ++ rest →
      s.readVarint32.toOption.map (Prod.map id CodedInputStream.unread) =
        some (value, { s.unread with bytes := rest })) := by
  refine ⟨fun value h => ?_, fun value h => ?_, fun value h => ?_⟩
  · rw [CodedInputStream.toOption_of_unread s.readVarint64_unread,
      (spellsNumber_writeVarint64ToArray value).readVarint 64 h, BitVec.ofNat_toNat]
    rfl
  · have hnumber : SpellsNumber (writeVarint32ToArray value) value.toNat := by
      rw [writeVarint32ToArray_eq_encode]
      exact spellsNumber_encode (Nat.lt_trans value.isLt (by decide))
    rw [CodedInputStream.toOption_of_unread s.readVarint32_unread, hnumber.readVarint 32 h, BitVec.ofNat_toNat]
    rfl
  · rw [CodedInputStream.toOption_of_unread s.readVarint32_unread,
      (spellsNumber_writeVarint64ToArray (value.signExtend 64)).readVarint 32 h,
      BitVec.ofNat_toNat, setWidth_signExtend]

theorem spellsTag_writeVarint32ToArray (value : CUInt) :
    SpellsTag (writeVarint32ToArray value) value := by
  refine ⟨value.toNat, ?_, BitVec.ofNat_toNat 32 value⟩
  rw [writeVarint32ToArray_eq_encode]
  exact spellsNumber_encode (Nat.lt_trans value.isLt (by decide))

theorem toNat_readLittleEndian32FromArray (a b c d : CChar) (rest : List CChar) :
    (readLittleEndian32FromArray (a :: b :: c :: d :: rest)).toNat =
      a.toNat + 2 ^ 8 * b.toNat + 2 ^ 16 * c.toNat + 2 ^ 24 * d.toNat := by
  have shifted : ∀ (x : CChar) (k : Nat), k ≤ 24 → (x.setWidth 32 <<< k).toNat = 2 ^ k * x.toNat := by
    intro x k hk
    have hx := x.isLt
    have hpow : 2 ^ k ≤ 2 ^ 24 := Nat.pow_le_pow_right (by decide) hk
    have hmul : x.toNat * 2 ^ k ≤ 255 * 2 ^ 24 := Nat.mul_le_mul (by omega) hpow
    rw [BitVec.toNat_shiftLeft, BitVec.toNat_setWidth, Nat.shiftLeft_eq,
      Nat.mod_eq_of_lt (by omega : x.toNat < 2 ^ 32), Nat.mod_eq_of_lt (by omega), Nat.mul_comm]
  have ha := a.isLt
  have hb := b.isLt
  have hc := c.isLt
  have hab : a.toNat ||| 2 ^ 8 * b.toNat = 2 ^ 8 * b.toNat + a.toNat := by
    rw [Nat.or_comm, Nat.two_pow_add_eq_or_of_lt ha]
  have habc : 2 ^ 8 * b.toNat + a.toNat ||| 2 ^ 16 * c.toNat =
      2 ^ 16 * c.toNat + (2 ^ 8 * b.toNat + a.toNat) := by
    have hlt : 2 ^ 8 * b.toNat + a.toNat < 2 ^ 16 := by omega
    rw [Nat.or_comm, Nat.two_pow_add_eq_or_of_lt hlt]
  have habcd : 2 ^ 16 * c.toNat + (2 ^ 8 * b.toNat + a.toNat) ||| 2 ^ 24 * d.toNat =
      2 ^ 24 * d.toNat + (2 ^ 16 * c.toNat + (2 ^ 8 * b.toNat + a.toNat)) := by
    have hlt : 2 ^ 16 * c.toNat + (2 ^ 8 * b.toNat + a.toNat) < 2 ^ 24 := by omega
    rw [Nat.or_comm, Nat.two_pow_add_eq_or_of_lt hlt]
  have hlow : (a.setWidth 32).toNat = a.toNat := by
    rw [BitVec.toNat_setWidth]
    omega
  change (a.setWidth 32 ||| b.setWidth 32 <<< 8 ||| c.setWidth 32 <<< 16 |||
    d.setWidth 32 <<< 24).toNat = _
  rw [BitVec.toNat_or, BitVec.toNat_or, BitVec.toNat_or, shifted b 8 (by decide),
    shifted c 16 (by decide), shifted d 24 (by decide), hlow, hab, habc, habcd]
  omega

theorem readLittleEndian32FromArray_write (value : BitVec 32) (rest : List CChar) :
    readLittleEndian32FromArray (writeLittleEndian32ToArray value ++ rest) = value := by
  apply BitVec.eq_of_toNat_eq
  have hvalue := value.isLt
  rw [writeLittleEndian32ToArray, List.cons_append, List.cons_append, List.cons_append,
    List.cons_append, toNat_readLittleEndian32FromArray]
  simp only [BitVec.toNat_setWidth, BitVec.toNat_ushiftRight, Nat.shiftRight_eq_div_pow]
  omega

theorem readLittleEndian64FromArray_write (value : BitVec 64) :
    readLittleEndian64FromArray (writeLittleEndian64ToArray value) = value := by
  have hvalue := value.isLt
  have hhigh : ((value >>> 32).setWidth 32).toNat = value.toNat / 2 ^ 32 := by
    rw [BitVec.toNat_setWidth, BitVec.toNat_ushiftRight, Nat.shiftRight_eq_div_pow]
    omega
  have hdrop : (writeLittleEndian64ToArray value).drop 4 =
      writeLittleEndian32ToArray ((value >>> 32).setWidth 32) ++ [] := rfl
  apply BitVec.eq_of_toNat_eq
  rw [readLittleEndian64FromArray, hdrop, readLittleEndian32FromArray_write,
    writeLittleEndian64ToArray, readLittleEndian32FromArray_write, BitVec.toNat_or,
    BitVec.toNat_shiftLeft, BitVec.toNat_setWidth, BitVec.toNat_setWidth, BitVec.toNat_setWidth,
    hhigh, Nat.shiftLeft_eq]
  have hlow : value.toNat % 2 ^ 32 % 2 ^ 64 = value.toNat % 2 ^ 32 := by omega
  have hmul : value.toNat / 2 ^ 32 % 2 ^ 64 * 2 ^ 32 % 2 ^ 64 =
      2 ^ 32 * (value.toNat / 2 ^ 32) := by omega
  rw [hlow, hmul, Nat.or_comm, ← Nat.two_pow_add_eq_or_of_lt (Nat.mod_lt _ (by decide))]
  omega

mutual

theorem spells_serializeUnknownField {field : UnknownField} {budget : Nat}
    (h : Fits field budget) {s : List CChar} {fields : UnknownFieldSet}
    (hrest : Spells budget s fields) :
    Spells budget (serializeUnknownField field ++ s) (field :: fields) := by
  cases field with
  | varint number value =>
    rw [serializeUnknownField, List.append_assoc]
    exact .scalar h (spellsTag_writeVarint32ToArray _)
      ⟨_, spellsNumber_writeVarint64ToArray value, BitVec.ofNat_toNat 64 value⟩ hrest
  | fixed32 number value =>
    rw [serializeUnknownField, List.append_assoc]
    refine .scalar h (spellsTag_writeVarint32ToArray _) ⟨rfl, ?_⟩ hrest
    rw [← List.append_nil (writeLittleEndian32ToArray value), readLittleEndian32FromArray_write]
  | fixed64 number value =>
    rw [serializeUnknownField, List.append_assoc]
    exact .scalar h (spellsTag_writeVarint32ToArray _)
      ⟨rfl, readLittleEndian64FromArray_write value⟩ hrest
  | lengthDelimited number value =>
    rw [serializeUnknownField, List.append_assoc]
    rw [Fits] at h
    have hlength : (BitVec.ofNat 32 value.length).toNat = value.length := by
      rw [BitVec.toNat_ofNat]
      omega
    exact .scalar h.1 (spellsTag_writeVarint32ToArray _)
      ⟨_, _, spellsTag_writeVarint32ToArray _, rfl, hlength.symm, h.2⟩ hrest
  | group number fields =>
    rw [Fits] at h
    obtain ⟨hnumber, hpos, hfields⟩ := h
    obtain ⟨budget, rfl⟩ := Nat.exists_eq_add_of_lt hpos
    rw [Nat.zero_add, Nat.add_sub_cancel] at hfields
    rw [Nat.zero_add] at hrest ⊢
    rw [serializeUnknownField, List.append_assoc, List.append_assoc]
    exact .group hnumber (spellsTag_writeVarint32ToArray _) (spells_serialize hfields)
      (spellsTag_writeVarint32ToArray _) hrest

/-- **What is written spells the fields.** -/
theorem spells_serialize {fields : UnknownFieldSet} {budget : Nat} (h : FitsAll fields budget) :
    Spells budget (serializeUnknownFieldsToArray fields) fields := by
  cases fields with
  | nil =>
    rw [serialize_nil]
    exact .nil budget
  | cons field fields =>
    rw [FitsAll] at h
    rw [serialize_cons]
    exact spells_serializeUnknownField h.1 (spells_serialize h.2)

end

/-! ## What was read fits, and is not written longer -/

theorem SpellsNumber.length_le {p : List CChar} {m n : Nat} (h : SpellsNumber p n) (hmn : m ≤ n) :
    (Base128.encode 10 m).length ≤ p.length := by
  have hle := Base128.length_encode_add_le h
  have hmono := Base128.length_encode_mono hmn 10
  rw [List.length_nil] at hle
  omega

theorem SpellsTag.length_le {t : List CChar} {tag : CUInt} (h : SpellsTag t tag) :
    (writeTagToArray tag).length ≤ t.length := by
  obtain ⟨n, hn, rfl⟩ := h
  rw [writeTagToArray, writeVarint32ToArray_eq_encode]
  refine hn.length_le ?_
  rw [BitVec.toNat_ofNat]
  exact Nat.mod_le _ _

theorem fits_of_spellsValue {field : UnknownField} {p : List CChar}
    (hnumber : ValidNumber field.number) (h : SpellsValue p field) (budget : Nat) :
    Fits field budget := by
  cases field with
  | varint | fixed32 | fixed64 => exact hnumber
  | lengthDelimited number value =>
    obtain ⟨l, length, -, -, -, hlt⟩ := h
    exact ⟨hnumber, hlt⟩
  | group => exact absurd h id

theorem length_serializeUnknownField_le {field : UnknownField} {t p : List CChar}
    (htag : SpellsTag t field.tag) (h : SpellsValue p field) :
    (serializeUnknownField field).length ≤ t.length + p.length := by
  have hle := htag.length_le
  cases field with
  | varint number value =>
    obtain ⟨n, hn, rfl⟩ := h
    have hvalue := hn.length_le (m := (BitVec.ofNat 64 n).toNat)
      (by rw [BitVec.toNat_ofNat]; exact Nat.mod_le _ _)
    rw [serializeUnknownField, List.length_append, writeVarint64ToArray_eq]
    exact Nat.add_le_add hle hvalue
  | fixed32 number value =>
    rw [serializeUnknownField, List.length_append, h.1]
    exact Nat.add_le_add hle (Nat.le_refl 4)
  | fixed64 number value =>
    rw [serializeUnknownField, List.length_append, h.1]
    exact Nat.add_le_add hle (Nat.le_refl 8)
  | lengthDelimited number value =>
    obtain ⟨l, length, hl, rfl, hlength, -⟩ := h
    have hl := hl.length_le
    rw [serializeUnknownField, List.length_append, writeStringWithSizeToArray, List.length_append,
      List.length_append, hlength, BitVec.ofNat_toNat]
    refine Nat.add_le_add hle (Nat.add_le_add ?_ (Nat.le_refl _))
    simpa [writeTagToArray] using hl
  | group => exact absurd h id

theorem fitsAll_of_spells {budget : Nat} {p : List CChar} {fields : UnknownFieldSet}
    (h : Spells budget p fields) : FitsAll fields budget := by
  induction h with
  | nil => trivial
  | scalar hnumber _ hvalue _ ih =>
    rw [FitsAll]
    exact ⟨fits_of_spellsValue hnumber hvalue _, ih⟩
  | group hnumber _ _ _ _ ihfields ih =>
    rw [FitsAll, Fits]
    exact ⟨⟨hnumber, Nat.succ_pos _, ihfields⟩, ih⟩

/-- **No spelling is shorter** than what is written. -/
theorem length_serialize_le_of_spells {budget : Nat} {p : List CChar} {fields : UnknownFieldSet}
    (h : Spells budget p fields) : (serializeUnknownFieldsToArray fields).length ≤ p.length := by
  induction h with
  | nil => simp
  | scalar _ htag hvalue _ ih =>
    have hle := length_serializeUnknownField_le htag hvalue
    rw [serialize_cons]
    simp only [List.length_append] at hle ih ⊢
    omega
  | group _ hstart _ hend _ ihfields ih =>
    have hs := hstart.length_le
    have he := hend.length_le
    rw [serialize_cons, serializeUnknownField]
    simp only [List.length_append] at hs he ihfields ih ⊢
    omega

/-! ## Round trips -/

/-- **A set of fields survives writing and reading exactly when it fits.** -/
theorem parseFromArray_serialize_iff {fields : UnknownFieldSet}
    (hsize : (serializeUnknownFieldsToArray fields).length ≤ intMax) :
    parseFromArray ⟨serializeUnknownFieldsToArray fields, hsize⟩ = some fields ↔
      FitsAll fields recursionLimit := by
  rw [parseFromArray_eq, parseFromCodedStream_eq_some_iff]
  exact ⟨fitsAll_of_spells, spells_serialize⟩

/-- An empty string, a zero and a group. -/
theorem parseFromArray_serialize_group :
    parseFromArray ⟨serializeUnknownFieldsToArray
        [.lengthDelimited 2 [], .group 15 [.varint 1 0, .fixed32 3 0x1020304]], by decide⟩ =
      some [.lengthDelimited 2 [], .group 15 [.varint 1 0, .fixed32 3 0x1020304]] :=
  (parseFromArray_serialize_iff (by decide)).mpr (by decide)

/-- **What was read is written in no more bytes, and reads as before.** -/
theorem parseFromArray_serialize_of_parseFromArray {data : SizedArray} {fields : UnknownFieldSet}
    (h : parseFromArray data = some fields) :
    ∃ hsize : (serializeUnknownFieldsToArray fields).length ≤ intMax,
      (serializeUnknownFieldsToArray fields).length ≤ data.val.length ∧
        parseFromArray ⟨serializeUnknownFieldsToArray fields, hsize⟩ = some fields := by
  rw [parseFromArray_eq, parseFromCodedStream_eq_some_iff] at h
  have hle := length_serialize_le_of_spells h
  refine ⟨Nat.le_trans hle data.property, hle, ?_⟩
  rw [parseFromArray_eq, parseFromCodedStream_eq_some_iff]
  exact spells_serialize (fitsAll_of_spells h)

/-- A tag of three bytes is written as one. -/
theorem parseFromArray_serialize_overlong :
    ∃ hsize : (serializeUnknownFieldsToArray [.varint 1 300]).length ≤ intMax,
      (serializeUnknownFieldsToArray [.varint 1 300]).length ≤
        [0x88#8, 0x80#8, 0x00#8, 0xac#8, 0x02#8].length ∧
      parseFromArray ⟨serializeUnknownFieldsToArray [.varint 1 300], hsize⟩ =
        some [.varint 1 300] :=
  parseFromArray_serialize_of_parseFromArray
    (show parseFromArray ⟨[0x88, 0x80, 0x00, 0xac, 0x02], by decide⟩ = some _ from rfl)

/-- Fields behind fields: the first sequence is read, and then what is left. -/
theorem parseFromCodedStream_append {p : List CChar} {fields : UnknownFieldSet}
    (h : Spells recursionLimit p fields) (rest : List CChar) :
    parseFromCodedStream (Unread.ofBytes (p ++ rest)) =
      (parseFromCodedStream (Unread.ofBytes rest)).map (fields ++ ·) := by
  have hskip := skipMessage_of_spells h (Nat.lt_succ_self recursionLimit)
    (u := Unread.ofBytes (p ++ rest)) rfl (Nat.le_refl _) rfl []
  rw [parseFromCodedStream, parseFromCodedStream, maxDepth, hskip, List.nil_append,
    skipMessage_append]
  simp only [Option.bind_eq_bind, Option.bind_map, Option.map_bind]
  congr 1
  funext p
  simp only [Function.comp_apply]
  split <;> rfl

end WireFormat

end SurvivalGame
