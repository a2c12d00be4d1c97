import SurvivalGame.UnknownFields
import SurvivalGame.Chunks

/-! # Skipping fields

`WireFormat::SkipField` reads one field and puts it behind those it was given
(`skipField_eq_collect`); `SkipMessage` is the loop that collects them.  The loop ends:
every tag takes a byte (`shrinks_skipField`), and no group lies deeper than the stream's
recursion budget allows.

What is skipped does not depend on how the input is cut into buffers
(`skipMessage_map`).
-/
namespace SurvivalGame

/-! ## Tags -/

theorem WireType.value_lt (type : WireType) : type.value.toNat < 8 := by
  cases type <;> decide

theorem toNat_makeTag {field_number : BitVec 32} (h : field_number.toNat < 2 ^ 29)
    (type : WireType) : (makeTag field_number type).toNat = 8 * field_number.toNat + type.value.toNat := by
  have hshift : (field_number <<< 3).toNat = 2 ^ 3 * field_number.toNat := by
    rw [BitVec.toNat_shiftLeft, Nat.shiftLeft_eq]
    omega
  rw [makeTag, BitVec.toNat_or, hshift, ← Nat.two_pow_add_eq_or_of_lt type.value_lt]

theorem toNat_and_seven (tag : CUInt) : (tag &&& 7#32).toNat = tag.toNat % 8 := by
  rw [BitVec.toNat_and]
  exact Nat.and_two_pow_sub_one_eq_mod tag.toNat 3

theorem toNat_getTagFieldNumber (tag : CUInt) :
    (getTagFieldNumber tag).toNat = tag.toNat / 8 := by
  rw [getTagFieldNumber, BitVec.toNat_ushiftRight, Nat.shiftRight_eq_div_pow]

theorem getTagFieldNumber_lt (tag : CUInt) : (getTagFieldNumber tag).toNat < 2 ^ 29 := by
  have := tag.isLt
  rw [toNat_getTagFieldNumber]
  omega

theorem getTagWireType_eq_some_iff {tag : CUInt} {type : WireType} :
    getTagWireType tag = some type ↔ tag.toNat % 8 = type.value.toNat := by
  have hlt : tag.toNat % 8 < 8 := Nat.mod_lt _ (by decide)
  rw [getTagWireType, toNat_and_seven]
  generalize tag.toNat % 8 = n at hlt
  revert n
  cases type <;> decide

theorem getTagFieldNumber_makeTag {field_number : BitVec 32} (h : field_number.toNat < 2 ^ 29)
    (type : WireType) : getTagFieldNumber (makeTag field_number type) = field_number := by
  apply BitVec.eq_of_toNat_eq
  have := type.value_lt
  rw [toNat_getTagFieldNumber, toNat_makeTag h]
  omega

theorem getTagWireType_makeTag {field_number : BitVec 32} (h : field_number.toNat < 2 ^ 29)
    (type : WireType) : getTagWireType (makeTag field_number type) = some type := by
  have := type.value_lt
  rw [getTagWireType_eq_some_iff, toNat_makeTag h]
  omega

/-- The end of the input is not the end of a group. -/
theorem makeTag_endGroup_ne_zero {field_number : BitVec 32} (h : field_number.toNat < 2 ^ 29) :
    makeTag field_number .endGroup ≠ 0 := by
  intro hzero
  have htag := toNat_makeTag h .endGroup
  rw [hzero] at htag
  simp [WireType.value] at htag

/-- A tag is made of its number and its wire type. -/
theorem makeTag_getTagFieldNumber {tag : CUInt} {type : WireType}
    (h : getTagWireType tag = some type) : makeTag (getTagFieldNumber tag) type = tag := by
  apply BitVec.eq_of_toNat_eq
  rw [toNat_makeTag (getTagFieldNumber_lt tag), toNat_getTagFieldNumber,
    ← getTagWireType_eq_some_iff.mp h]
  omega

namespace WireFormat

open InputStream

variable {σ : Type} [InputStream σ]

/-! ## One field -/

/-- The field that `SkipField` reads behind a tag. -/
def readField (skipMessage : σ → Option (UnknownFieldSet × σ)) (input : σ) (tag : CUInt) :
    Option (UnknownField × σ) :=
  let number := getTagFieldNumber tag
  if number = 0 then none
  else
    match getTagWireType tag with
    | some .varint => (readVarint64 input).map fun p => (.varint number p.1, p.2)
    | some .fixed64 => (readLittleEndian64 input).map fun p => (.fixed64 number p.1, p.2)
    | some .lengthDelimited =>
      (readVarint32 input).bind fun p =>
        (readString p.2 p.1).map fun q => (.lengthDelimited number q.1, q.2)
    | some .startGroup =>
      (incrementRecursionDepth input).bind fun input =>
        (skipMessage input).bind fun p =>
          if lastTagWas (decrementRecursionDepth p.2) (makeTag number .endGroup) then
            some (.group number p.1, decrementRecursionDepth p.2)
          else none
    | some .fixed32 => (readLittleEndian32 input).map fun p => (.fixed32 number p.1, p.2)
    | _ => none

/-- `SkipField` collects. -/
theorem skipField_eq_collect (skipMessage : σ → Option (UnknownFieldSet × σ)) :
    skipField skipMessage = TokenLoop.collect (readField skipMessage) := by
  funext input tag unknown_fields
  rw [skipField, TokenLoop.collect, readField]
  simp only
  split
  · rfl
  · cases getTagWireType tag with
    | none => rfl
    | some type =>
      cases type with
      | varint | fixed64 | fixed32 | lengthDelimited =>
        simp [Option.map_eq_bind, Option.bind_assoc]
      | startGroup =>
        simp only [Option.bind_eq_bind, Option.map_bind]
        congr 1
        funext input
        simp only [Function.comp_apply, Option.map_bind]
        congr 1
        funext p
        split <;> rfl
      | endGroup => rfl

/-! ## Any input stream -/

section Hom

variable {τ : Type} [InputStream τ] {f : σ → τ}

/-- Where `SkipMessage` leaves two streams: behind the tag that it has read last. -/
def SameEnd (f : σ → τ) (s : σ) (t : τ) : Prop :=
  lastTag t = lastTag s ∧ Behind f (lastTag s) s t

theorem ne_zero_of_not_endsMessage {tag : CUInt} (h : endsMessage tag = false) : tag ≠ 0 := by
  rintro rfl
  cases h

theorem not_lastTagWas_of_zero {s : σ} {expected : CUInt} (hzero : lastTag s = 0)
    (hexpected : expected ≠ 0) : ¬ lastTagWas (decrementRecursionDepth s) expected := by
  rw [InputStream.lastTagWas, lastTag_decrementRecursionDepth, hzero, beq_iff_eq]
  exact hexpected.symm

/-- The end of a group is only found where the streams agree. -/
theorem SameEnd.eq_or {s : σ} {t : τ} (h : SameEnd f s t) {expected : CUInt}
    (hexpected : expected ≠ 0) :
    t = f s ∨ ¬ lastTagWas (decrementRecursionDepth s) expected ∧
      ¬ lastTagWas (decrementRecursionDepth t) expected := by
  obtain ⟨hlast, hbehind⟩ := h
  by_cases hzero : lastTag s = 0
  · exact .inr ⟨not_lastTagWas_of_zero hzero hexpected,
      not_lastTagWas_of_zero (hlast.trans hzero) hexpected⟩
  · exact .inl (hbehind.eq_of_ne_zero hzero)

/-- A turn of `SkipMessage`: the same tag, and the streams agree until it is the last. -/
theorem readTag_sameEnd (hf : InputStream.Hom f) (s : σ) :
    (readTag (f s)).1 = (readTag s).1 ∧
      if endsMessage (readTag s).1 then SameEnd f (readTag s).2 (readTag (f s)).2
      else (readTag (f s)).2 = f (readTag s).2 := by
  obtain ⟨htag, hbehind⟩ := hf.readTag s
  refine ⟨htag, ?_⟩
  cases hlast : endsMessage (readTag s).1 with
  | true =>
    rw [if_pos rfl, SameEnd, lastTag_readTag, lastTag_readTag]
    exact ⟨htag, hbehind⟩
  | false =>
    rw [if_neg Bool.false_ne_true]
    exact hbehind.eq_of_ne_zero (ne_zero_of_not_endsMessage hlast)

theorem readField_map (hf : InputStream.Hom f) {skip : σ → Option (UnknownFieldSet × σ)}
    {skip' : τ → Option (UnknownFieldSet × τ)}
    (hskip : ∀ s, Option.Rel (fun p q => p.1 = q.1 ∧ SameEnd f p.2 q.2) (skip s) (skip' (f s)))
    (s : σ) (tag : CUInt) :
    (readField skip s tag).map (Prod.map id f) = readField skip' (f s) tag := by
  rw [readField, readField]
  split
  · rfl
  · cases getTagWireType tag with
    | none => rfl
    | some type =>
      cases type with
      | varint => simp [← hf.readVarint64, Option.map_map, Function.comp_def]
      | fixed64 => simp [← hf.readLittleEndian64, Option.map_map, Function.comp_def]
      | fixed32 => simp [← hf.readLittleEndian32, Option.map_map, Function.comp_def]
      | lengthDelimited =>
        simp [← hf.readVarint32, ← hf.readString, Option.map_map, Option.map_bind,
          Option.bind_map, Function.comp_def]
      | startGroup =>
        simp only [← hf.incrementRecursionDepth, Option.map_bind, Option.bind_map]
        congr 1
        funext input
        have hrel := hskip input
        simp only [Function.comp_apply]
        generalize skip input = x, skip' (f input) = y at hrel ⊢
        cases hrel with
        | none => rfl
        | @some p q hpq =>
          rw [Option.bind_some, Option.bind_some, ← hpq.1]
          rcases hpq.2.eq_or (makeTag_endGroup_ne_zero (getTagFieldNumber_lt tag)) with
            heq | ⟨hno, hno'⟩
          · rw [heq, ← hf.decrementRecursionDepth, hf.lastTagWas]
            split <;> rfl
          · rw [if_neg hno, if_neg hno']
            rfl
      | endGroup => rfl

theorem skipMessage_map (hf : InputStream.Hom f) (depth : Nat) (s : σ)
    (unknown_fields : UnknownFieldSet) :
    Option.Rel (fun p q => p.1 = q.1 ∧ SameEnd f p.2 q.2)
      (skipMessage depth s unknown_fields) (skipMessage depth (f s) unknown_fields) := by
  induction depth generalizing s unknown_fields with
  | zero => exact .none
  | succ depth ih =>
    rw [skipMessage, skipMessage, TokenLoop.loop, TokenLoop.loop, hf.bytesLeft]
    refine TokenLoop.run_map (readTag_sameEnd hf) (fun s tag fields => ?_) _ s unknown_fields
    rw [skipField_eq_collect, skipField_eq_collect, TokenLoop.collect, TokenLoop.collect,
      ← readField_map hf fun s => ih s [], Option.map_map, Option.map_map]
    rfl

/-- **Skipping does not see the buffers.** -/
theorem parseFromCodedStream_map (hf : InputStream.Hom f) (s : σ) :
    parseFromCodedStream s = parseFromCodedStream (f s) := by
  have hrel := skipMessage_map hf maxDepth s []
  rw [parseFromCodedStream, parseFromCodedStream]
  generalize skipMessage maxDepth s [] = x, skipMessage maxDepth (f s) [] = y at hrel
  cases hrel with
  | none => rfl
  | @some p q hpq =>
    have hconsumed := hf.consumedEntireMessage_of_behind hpq.2.2
    simp only [Option.bind_eq_bind, Option.bind_some, hconsumed, hpq.1]

end Hom

/-- What an `UnknownFieldSet` is parsed from. -/
theorem parseFromArray_eq (data : SizedArray) :
    parseFromArray data = parseFromCodedStream (Unread.ofBytes data.val) := by
  rw [parseFromArray, parseFromCodedStream_map CodedInputStream.hom_unread,
    CodedInputStream.unread_ofStream, ← parseFromCodedStream_map (Unread.hom_withLimit _ _),
    List.flatten_singleton, List.take_of_length_le data.property]

/-! ## The loop ends -/

theorem length_lt_of_readVarint {w : Nat} {u : Unread} {p : BitVec w × Unread}
    (h : u.readVarint w = some p) : p.2.bytes.length < u.bytes.length := by
  obtain ⟨q, hq, rfl⟩ := Option.map_eq_some_iff.mp h
  exact Base128.length_lt_of_decode hq

theorem length_le_of_readRaw {u : Unread} {size : Nat} {p : List CChar × Unread}
    (h : u.readRaw size = some p) : p.2.bytes.length ≤ u.bytes.length := by
  rw [Unread.readRaw] at h
  split at h
  · cases h
    exact (List.drop_sublist size u.bytes).length_le
  · cases h

theorem length_readTagNoLastTag_lt {u : Unread} (h : u.readTagNoLastTag.1 ≠ 0) :
    u.readTagNoLastTag.2.bytes.length < u.bytes.length := by
  by_cases hbytes : u.bytes = []
  · rw [Unread.readTagNoLastTag_of_eq_nil hbytes] at h
    exact absurd rfl h
  · rw [Unread.readTagNoLastTag_of_ne_nil hbytes] at h ⊢
    cases hread : u.readVarint 32 with
    | none => simp [hread] at h
    | some p => simpa using length_lt_of_readVarint hread

/-- A tag takes a byte, and so does every field behind one or more. -/
theorem length_readTag_lt {u : Unread} (h : (readTag u).1 ≠ 0) :
    (readTag u).2.bytes.length < u.bytes.length := length_readTagNoLastTag_lt h

theorem length_readTag_le (u : Unread) : (readTag u).2.bytes.length ≤ u.bytes.length := by
  change u.readTagNoLastTag.2.bytes.length ≤ _
  by_cases h : u.readTagNoLastTag.1 = 0
  · by_cases hbytes : u.bytes = []
    · rw [Unread.readTagNoLastTag_of_eq_nil hbytes]
    · rw [Unread.readTagNoLastTag_of_ne_nil hbytes]
      cases hread : u.readVarint 32 with
      | none => exact Nat.le_refl _
      | some p => exact Nat.le_of_lt (length_lt_of_readVarint hread)
  · exact Nat.le_of_lt (length_readTagNoLastTag_lt h)

@[simp] theorem bytes_decrementRecursionDepth (u : Unread) :
    (decrementRecursionDepth u).bytes = u.bytes := by
  change Unread.bytes (if _ then _ else _) = _
  split <;> rfl

theorem bytes_of_incrementRecursionDepth {u v : Unread}
    (h : incrementRecursionDepth u = some v) : v.bytes = u.bytes := by
  change (if _ then _ else _) = _ at h
  split at h
  · cases h
    rfl
  · cases h

theorem length_le_of_readField {skip : Unread → Option (UnknownFieldSet × Unread)}
    (hskip : ∀ u p, skip u = some p → p.2.bytes.length ≤ u.bytes.length) {u : Unread}
    {tag : CUInt} {p : UnknownField × Unread} (h : readField skip u tag = some p) :
    p.2.bytes.length ≤ u.bytes.length := by
  rw [readField] at h
  split at h
  · cases h
  · split at h
    · obtain ⟨q, hq, rfl⟩ := Option.map_eq_some_iff.mp h
      exact Nat.le_of_lt (length_lt_of_readVarint hq)
    · obtain ⟨q, hq, rfl⟩ := Option.map_eq_some_iff.mp h
      obtain ⟨r, hr, rfl⟩ := Option.map_eq_some_iff.mp hq
      exact length_le_of_readRaw hr
    · obtain ⟨q, hq, hp⟩ := Option.bind_eq_some_iff.mp h
      obtain ⟨r, hr, rfl⟩ := Option.map_eq_some_iff.mp hp
      have hlength := length_lt_of_readVarint hq
      change (if _ then _ else _) = _ at hr
      split at hr
      · cases hr
      · have hvalue := length_le_of_readRaw hr
        simp only at hvalue ⊢
        omega
    · obtain ⟨v, hv, hp⟩ := Option.bind_eq_some_iff.mp h
      obtain ⟨q, hq, hp⟩ := Option.bind_eq_some_iff.mp hp
      split at hp
      · cases hp
        rw [bytes_decrementRecursionDepth, ← bytes_of_incrementRecursionDepth hv]
        exact hskip v q hq
      · cases hp
    · obtain ⟨q, hq, rfl⟩ := Option.map_eq_some_iff.mp h
      obtain ⟨r, hr, rfl⟩ := Option.map_eq_some_iff.mp hq
      exact length_le_of_readRaw hr
    · cases h

theorem shrinks_skipField {skip : Unread → Option (UnknownFieldSet × Unread)}
    (hskip : ∀ u p, skip u = some p → p.2.bytes.length ≤ u.bytes.length) :
    TokenLoop.Shrinks bytesLeft readTag endsMessage (skipField skip) := by
  rw [skipField_eq_collect]
  exact TokenLoop.shrinks_collect _
    (fun u h => length_readTag_lt (ne_zero_of_not_endsMessage h))
    fun u tag p h => length_le_of_readField hskip h

theorem length_le_of_skipMessage {depth : Nat} {u : Unread} {unknown_fields : UnknownFieldSet}
    {p : UnknownFieldSet × Unread} (h : skipMessage depth u unknown_fields = some p) :
    p.2.bytes.length ≤ u.bytes.length := by
  induction depth generalizing u unknown_fields p with
  | zero => cases h
  | succ depth ih =>
    exact TokenLoop.size_le_of_run (shrinks_skipField fun u p h => ih h) length_readTag_le h

/-- **`SkipMessage` without a bound**: while there is a tag that does not end the message,
a field is read. -/
theorem skipMessage_eq (depth : Nat) (u : Unread) (unknown_fields : UnknownFieldSet) :
    skipMessage (depth + 1) u unknown_fields =
      if endsMessage (readTag u).1 then some (unknown_fields, (readTag u).2)
      else (readField (skipMessage depth · []) (readTag u).2 (readTag u).1).bind fun p =>
        skipMessage (depth + 1) p.2 (unknown_fields ++ [p.1]) := by
  rw [skipMessage, TokenLoop.loop_eq (shrinks_skipField fun u p h => length_le_of_skipMessage h)]
  split
  · rfl
  · rw [skipField_eq_collect, TokenLoop.collect, Option.bind_map]
    congr 1
    funext p
    rw [skipMessage, skipField_eq_collect]
    rfl

/-- What was there before stays in front. -/
theorem skipMessage_append (depth : Nat) (input : σ) (unknown_fields : UnknownFieldSet) :
    skipMessage depth input unknown_fields =
      (skipMessage depth input []).map fun p => (unknown_fields ++ p.1, p.2) := by
  cases depth with
  | zero => rfl
  | succ depth =>
    rw [skipMessage, skipMessage, skipField_eq_collect, TokenLoop.loop, TokenLoop.loop]
    exact TokenLoop.run_collect_append _ _ input unknown_fields

end WireFormat

end SurvivalGame
