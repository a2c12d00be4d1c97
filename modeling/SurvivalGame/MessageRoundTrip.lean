import SurvivalGame.MessageValues

/-! # Messages there and back

`ByteSizeLong` is the number of bytes that are written.  A message comes back from them
exactly if it `Fits`: its strings are text, and its unknown fields are fields that its
class would keep as such.  Every message that the classes' functions make fits
(`Built.fits`), so that every one that is not too long survives.
-/
namespace SurvivalGame

open WireFormat

/-! ## Sizes -/

theorem FieldType.length_writeNoTagToArray (type : FieldType) (value : type.Value) :
    (type.writeNoTagToArray value).length = type.size value := by
  cases type with
  | int32 | enum => exact length_writeVarint32SignExtendedToArray value
  | int64 => exact length_writeVarint64ToArray value
  | bool => cases value <;> rfl
  | string | bytes => exact length_writeStringWithSizeToArray value

theorem Field.length_writeTagToArray (field : Field) : (writeTagToArray field.tag).length = 1 := by
  have hlt := field.toNat_tag_lt
  rw [writeTagToArray, writeVarint32ToArray_eq_encode, Base128.encode_last hlt,
    List.length_singleton]

theorem Field.length_writeToArray (field : Field) (value : field.type.Value) :
    (field.writeToArray value).length = field.byteSize value := by
  rw [writeToArray, byteSize]
  split
  · rw [List.length_append, field.length_writeTagToArray,
      FieldType.length_writeNoTagToArray]
  · rfl

namespace Message

variable {d : Descriptor}

/-- **The size that is computed is the size that is written.** -/
theorem length_serializeWithCachedSizesToArray (message : Message d) :
    message.serializeWithCachedSizesToArray.length = message.byteSizeLong := by
  rw [serializeWithCachedSizesToArray, byteSizeLong, List.length_append, List.length_flatMap,
    length_serializeUnknownFieldsToArray, Nat.add_comm]
  congr 2
  exact List.map_congr_left fun member _ => member.val.length_writeToArray _

theorem serializeToString_eq_some_iff {message : Message d} {data : List CChar} :
    message.serializeToString = some data ↔
      message.byteSizeLong ≤ intMax ∧ message.serializeWithCachedSizesToArray = data := by
  rw [serializeToString, appendToString]
  split
  · next h => simp [Nat.not_le.mpr h]
  · next h => simp [Nat.not_lt.mp h]

/-- An array takes what a string takes, as far as there is room for it. -/
theorem serializeToArray_eq (message : Message d) (size : Nat) :
    message.serializeToArray size = message.serializeToString.filter (·.length ≤ size) := by
  rw [serializeToArray, serializeToString, appendToString]
  split
  · rfl
  · rw [List.nil_append, Option.filter_some, length_serializeWithCachedSizesToArray]
    split
    · next hlt => simp [Nat.not_le.mpr hlt]
    · next hle => simp [Nat.not_lt.mp hle]

end Message

/-! ## The messages that come back -/

theorem WireFormat.fitsAll_iff {fields : UnknownFieldSet} {budget : Nat} :
    FitsAll fields budget ↔ ∀ field ∈ fields, Fits field budget := by
  induction fields with
  | nil => simp [FitsAll]
  | cons field fields ih => simp [FitsAll, ih]

theorem WireFormat.length_serialize_le_of_mem {fields : UnknownFieldSet} {field : UnknownField}
    (h : field ∈ fields) :
    (serializeUnknownField field).length ≤ (serializeUnknownFieldsToArray fields).length := by
  induction fields with
  | nil => cases h
  | cons other fields ih =>
    rw [serialize_cons, List.length_append]
    rcases List.mem_cons.mp h with rfl | h
    · exact Nat.le_add_right _ _
    · exact Nat.le_trans (ih h) (Nat.le_add_left _ _)

/-- A value that is not too long is one that a field can have on the wire. -/
theorem FieldType.fits_encode (type : FieldType) {number : BitVec 32} (hnumber : ValidNumber number)
    {value : type.Value}
    (h : (serializeUnknownField (type.encode number value)).length ≤ intMax) (budget : Nat) :
    Fits (type.encode number value) budget := by
  cases type with
  | int32 | enum | int64 | bool => exact hnumber
  | string | bytes =>
    refine ⟨hnumber, Nat.lt_succ_of_le (Nat.le_trans ?_ h)⟩
    change _ ≤ (serializeUnknownField (.lengthDelimited number value)).length
    rw [serializeUnknownField, writeStringWithSizeToArray, List.length_append,
      List.length_append]
    omega

namespace Message

variable {d : Descriptor}

/-- The strings of a message are text, and its unknown fields are such as it would read. -/
structure Fits (message : Message d) : Prop where
  verified : ∀ member : d.Member, member.val.type.verify (message.get member) = true
  unknown_fits : FitsAll message.unknownFields recursionLimit
  not_taken : ∀ wire ∈ message.unknownFields, d.takes wire = false

theorem fits_clear (d : Descriptor) : (clear d).Fits where
  verified _ := FieldType.verify_default _
  unknown_fits := trivial
  not_taken := nofun

theorem Fits.set {message : Message d} (h : message.Fits) {member : d.Member}
    {value : member.val.type.Value} (hvalue : member.val.type.verify value = true) :
    (message.set member value).Fits where
  verified other := by
    by_cases heq : other = member
    · subst heq
      simpa [Message.set] using hvalue
    · simpa [Message.set, Function.update_of_ne heq] using h.verified other
  unknown_fits := h.unknown_fits
  not_taken := h.not_taken

theorem Fits.mergeFrom {message source : Message d} (h : message.Fits) (hsource : source.Fits) :
    (message.mergeFrom source).Fits where
  verified member := by
    change member.val.type.verify (if _ then _ else _) = true
    split
    · exact hsource.verified member
    · exact h.verified member
  unknown_fits := fitsAll_append.mpr ⟨h.unknown_fits, hsource.unknown_fits⟩
  not_taken wire hwire := (List.mem_append.mp hwire).elim (h.not_taken wire) (hsource.not_taken wire)

theorem Fits.verified_absorb {message : Message d} (h : message.Fits) {fields : UnknownFieldSet}
    (hverifies : fields.all d.verifies = true) (member : d.Member) :
    member.val.type.verify ((message.absorb fields).get member) = true := by
  change member.val.type.verify (LastWins.last _ _ _) = true
  obtain hlast | ⟨wire, hwire, htake⟩ := LastWins.last_mem member.val.take
    (message.get member) fields
  · rw [hlast]
    exact h.verified member
  · exact Descriptor.verifies_iff.mp (List.all_eq_true.mp hverifies wire hwire) _
      member.property _ htake

/-- To read fields keeps what fits. -/
theorem Fits.absorb {message : Message d} (h : message.Fits) {fields : UnknownFieldSet}
    (hfields : FitsAll fields recursionLimit) (hverifies : fields.all d.verifies = true) :
    (message.absorb fields).Fits where
  verified := h.verified_absorb hverifies
  unknown_fits := by
    refine fitsAll_append.mpr ⟨h.unknown_fits, fitsAll_iff.mpr fun wire hwire => ?_⟩
    exact fitsAll_iff.mp hfields wire (List.mem_filter.mp hwire).1
  not_taken wire hwire := by
    rcases List.mem_append.mp hwire with hwire | hwire
    · exact h.not_taken wire hwire
    · simpa using (List.mem_filter.mp hwire).2

/-- **What a parser returns**: the fields that the bytes spell, absorbed. -/
theorem parseFromCodedStream_eq_some_iff {bytes : List CChar} {message : Message d} :
    parseFromCodedStream d (Unread.ofBytes bytes) = some message ↔
      ∃ fields, Spells recursionLimit bytes fields ∧ fields.all d.verifies = true ∧
        (clear d).absorb fields = message := by
  rw [parseFromCodedStream_eq, Option.bind_eq_some_iff]
  refine exists_congr fun fields => ?_
  rw [WireFormat.parseFromCodedStream_eq_some_iff, foldlM_interpret]
  cases fields.all d.verifies <;> simp

/-- **What `ParseFromArray` accepts**: the wire format, with text in the strings; a field has
the last value there was for it, and the fields of no class are kept in their order. -/
theorem parseFromArray_iff_absorb {data : SizedArray} {message : Message d} :
    parseFromArray d data = some message ↔
      ∃ fields, Spells recursionLimit data.val fields ∧ fields.all d.verifies = true ∧
        (∀ member : d.Member, message.get member =
          LastWins.last member.val.take member.val.type.default fields) ∧
        message.unknownFields = fields.filter (!d.takes ·) := by
  rw [parseFromArray_eq_parseFromCodedStream, parseFromCodedStream_eq_some_iff]
  refine exists_congr fun fields => and_congr Iff.rfl (and_congr Iff.rfl ?_)
  constructor
  · rintro rfl
    exact ⟨fun _ => rfl, List.nil_append _⟩
  · rintro ⟨hget, hunknown⟩
    refine Message.ext (funext fun member => (hget member).symm) ?_
    exact (List.nil_append _).trans hunknown.symm

theorem fits_of_parseFromCodedStream {bytes : List CChar} {message : Message d}
    (h : parseFromCodedStream d (Unread.ofBytes bytes) = some message) : message.Fits := by
  obtain ⟨fields, hspells, hverifies, rfl⟩ := parseFromCodedStream_eq_some_iff.mp h
  exact (fits_clear d).absorb (fitsAll_of_spells hspells) hverifies

/-- The messages that a program makes: new ones, with text set as strings, parsed ones,
and merged ones. -/
inductive Built : Message d → Prop
  | new : Built (clear d)
  | set {message : Message d} (h : Built message) (member : d.Member)
      {value : member.val.type.Value} (hvalue : member.val.type.verify value = true) :
      Built (message.set member value)
  | parsed {data : SizedArray} {message : Message d} (h : parseFromArray d data = some message) :
      Built message
  | received {chunks : List (List CChar)} {message : Message d}
      (h : parseFromZeroCopyStream d chunks = some message) : Built message
  | mergeFrom {message source : Message d} (h : Built message) (hsource : Built source) :
      Built (message.mergeFrom source)
  | copyFrom {message source : Message d} (h : Built message) (hsource : Built source) :
      Built (message.copyFrom source)

/-- **Every message that is made fits.** -/
theorem Built.fits {message : Message d} (h : Built message) : message.Fits := by
  induction h with
  | new => exact fits_clear d
  | set _ member hvalue ih => exact ih.set hvalue
  | parsed h =>
    rw [parseFromArray_eq_parseFromCodedStream] at h
    exact fits_of_parseFromCodedStream h
  | received h =>
    rw [parseFromZeroCopyStream_eq] at h
    exact fits_of_parseFromCodedStream h
  | mergeFrom _ _ ih ihsource => exact ih.mergeFrom ihsource
  | copyFrom _ _ _ ihsource => exact (fits_clear d).mergeFrom ihsource

/-! ## There and back -/

theorem verifies_of_mem_records {message : Message d} (h : message.Fits) {wire : UnknownField}
    (hwire : wire ∈ message.records) : d.verifies wire = true := by
  rcases List.mem_append.mp hwire with hwire | hwire
  · obtain ⟨member, -, -, rfl⟩ := mem_values.mp hwire
    rw [Descriptor.verifies_of_take (Field.take_record _ _)]
    exact h.verified member
  · exact Descriptor.verifies_of_not_takes (h.not_taken wire hwire)

/-- What a message that fits writes are fields of the wire. -/
theorem Fits.spells {message : Message d} (h : message.Fits)
    (hsize : message.byteSizeLong ≤ intMax) :
    Spells recursionLimit message.serializeWithCachedSizesToArray message.records := by
  rw [serializeWithCachedSizesToArray_eq]
  rw [← length_serializeWithCachedSizesToArray, serializeWithCachedSizesToArray_eq] at hsize
  refine spells_serialize (fitsAll_iff.mpr fun wire hwire => ?_)
  have hlength := Nat.le_trans (length_serialize_le_of_mem hwire) hsize
  rcases List.mem_append.mp hwire with hwire | hwire
  · obtain ⟨member, -, -, rfl⟩ := mem_values.mp hwire
    exact FieldType.fits_encode _ member.val.validNumber hlength _
  · exact fitsAll_iff.mp h.unknown_fits wire hwire

/-- **Behind any message, one that fits is merged into it.** -/
theorem parseFromCodedStream_append_serialize {bytes : List CChar} {message source : Message d}
    (h : parseFromCodedStream d (Unread.ofBytes bytes) = some message) (hsource : source.Fits)
    (hsize : source.byteSizeLong ≤ intMax) :
    parseFromCodedStream d
        (Unread.ofBytes (bytes ++ source.serializeWithCachedSizesToArray)) =
      some (message.mergeFrom source) := by
  obtain ⟨fields, hspells, hverifies, rfl⟩ := parseFromCodedStream_eq_some_iff.mp h
  refine parseFromCodedStream_eq_some_iff.mpr
    ⟨fields ++ source.records, hspells.append (hsource.spells hsize), ?_, ?_⟩
  · rw [List.all_append, hverifies, Bool.true_and, List.all_eq_true]
    exact fun wire hwire => verifies_of_mem_records hsource hwire
  · rw [← absorb_records hsource.not_taken]
    refine Message.ext (funext fun member => ?_) ?_
    · exact LastWins.last_append _ _ _ _
    · simp [absorb, List.filter_append]

theorem parseFromCodedStream_serialize {message : Message d} (h : message.Fits)
    (hsize : message.byteSizeLong ≤ intMax) :
    parseFromCodedStream d (Unread.ofBytes message.serializeWithCachedSizesToArray) =
      some message := by
  have hempty : parseFromCodedStream d (Unread.ofBytes []) = some (clear d) :=
    parseFromCodedStream_eq_some_iff.mpr ⟨[], .nil _, rfl, by simp [absorb]⟩
  have happend := parseFromCodedStream_append_serialize hempty h hsize
  rwa [clear_mergeFrom] at happend

/-- **The messages that come back** from what they are written as are those that fit. -/
theorem parseFromArray_serializeToString_iff (message : Message d) :
    (∃ data : SizedArray, message.serializeToString = some data.val ∧
      parseFromArray d data = some message) ↔
      message.byteSizeLong ≤ intMax ∧ message.Fits := by
  simp only [serializeToString_eq_some_iff, parseFromArray_eq_parseFromCodedStream]
  constructor
  · rintro ⟨data, ⟨hsize, -⟩, h⟩
    exact ⟨hsize, fits_of_parseFromCodedStream h⟩
  · rintro ⟨hsize, h⟩
    have hlength : message.serializeWithCachedSizesToArray.length ≤ intMax := by
      rwa [length_serializeWithCachedSizesToArray]
    exact ⟨⟨_, hlength⟩, ⟨hsize, rfl⟩, parseFromCodedStream_serialize h hsize⟩

/-- **Messages sent one behind the other** are received as one that is merged from them,
in whatever pieces they arrive. -/
theorem Built.parse_of_flatten {message source : Message d} (h : Built message)
    (hsource : Built source) {first second : List CChar}
    (hfirst : message.serializeToString = some first)
    (hsecond : source.serializeToString = some second) {chunks : List (List CChar)}
    (hchunks : chunks.flatten = first ++ second)
    (hlength : (first ++ second).length ≤ intMax) :
    parseFromZeroCopyStream d chunks = some (message.mergeFrom source) := by
  obtain ⟨hsize, rfl⟩ := serializeToString_eq_some_iff.mp hfirst
  obtain ⟨hsize', rfl⟩ := serializeToString_eq_some_iff.mp hsecond
  rw [parseFromZeroCopyStream_eq, hchunks, List.take_of_length_le hlength]
  exact parseFromCodedStream_append_serialize (parseFromCodedStream_serialize h.fits hsize)
    hsource.fits hsize'

/-- Two messages, in pieces that are cut elsewhere. -/
theorem Built.parse_of_flatten_pieces :
    parseFromZeroCopyStream GameMessage.HeartResponse [[8, 1, 16], [5, 8], [2]] =
      some ((((clear GameMessage.HeartResponse).set ⟨.ofNat 1 .int32, by decide⟩ (1 : BitVec 32)).set
        ⟨.ofNat 2 .int64, by decide⟩ (5 : BitVec 64)).mergeFrom
        ((clear GameMessage.HeartResponse).set ⟨.ofNat 1 .int32, by decide⟩ (2 : BitVec 32))) :=
  Built.parse_of_flatten (.set (.set .new _ rfl) _ rfl) (.set .new _ rfl)
    (show _ = some [8, 1, 16, 5] from rfl) (show _ = some [8, 2] from rfl) rfl (by decide)

end Message

end SurvivalGame
