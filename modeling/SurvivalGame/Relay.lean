import SurvivalGame.MessageRoundTrip

/-! # Messages that pass through another class

A class with fewer fields keeps the others as unknown fields.  When it reads a message and
writes it again, the fields change their order and the ones that it knows lose all but
their last value; but the class that has all the fields reads the same from it
(`parseFromArray_relay`).  So a message may be looked into with a class that has its first
field only (`parseFromArray_peek`), or pass through a program that was built before a
field was added.
-/
namespace SurvivalGame

open WireFormat

namespace Descriptor

/-- All fields of the one class are fields of the other. -/
def Sub (d' d : Descriptor) : Prop := ∀ field ∈ d'.fields, field ∈ d.fields

instance (d' d : Descriptor) : Decidable (Sub d' d) :=
  inferInstanceAs (Decidable (∀ field ∈ d'.fields, field ∈ d.fields))

variable {d' d : Descriptor}

theorem Sub.takes (h : Sub d' d) {wire : UnknownField} (htakes : d.takes wire = false) :
    d'.takes wire = false :=
  takes_eq_false_iff.mpr fun field hfield => takes_eq_false_iff.mp htakes field (h field hfield)

/-- A field that the smaller class takes is none for the fields that only the other has. -/
theorem Sub.take_eq_none (h : Sub d' d) {field : Field} (hfield : field ∈ d.fields)
    (hnot : field ∉ d'.fields) {wire : UnknownField} (htakes : d'.takes wire = true) :
    field.take wire = none := by
  rw [Descriptor.takes, List.any_eq_true] at htakes
  obtain ⟨other, hother, hsome⟩ := htakes
  obtain ⟨value, hvalue⟩ := Option.isSome_iff_exists.mp hsome
  have hne : (⟨other, h other hother⟩ : d.Member) ≠ ⟨field, hfield⟩ :=
    fun heq => hnot (Subtype.mk.inj heq ▸ hother)
  exact take_eq_none_of_ne hne hvalue

theorem Sub.verifies (h : Sub d' d) {wire : UnknownField} (hverifies : d.verifies wire = true) :
    d'.verifies wire = true :=
  verifies_iff.mpr fun field hfield => verifies_iff.mp hverifies field (h field hfield)

/-- What the larger class keeps, the smaller one does. -/
theorem Sub.filter_takes (h : Sub d' d) (fields : UnknownFieldSet) :
    (fields.filter (!d'.takes ·)).filter (!d.takes ·) = fields.filter (!d.takes ·) := by
  rw [List.filter_filter]
  refine List.filter_congr fun wire _ => ?_
  cases htakes : d.takes wire with
  | true => rfl
  | false => simp [h.takes htakes]

end Descriptor

namespace Message

variable {d' d : Descriptor} {fields : UnknownFieldSet}

/-- The last value of a field is the same among the fields that were read and among those
that are written again. -/
theorem last_records_absorb (h : d'.Sub d) {field : Field} (hfield : field ∈ d.fields) :
    LastWins.last field.take field.type.default ((clear d').absorb fields).records =
      LastWins.last field.take field.type.default fields := by
  rw [records, LastWins.last_append]
  by_cases hmem : field ∈ d'.fields
  · -- the smaller class writes it, and has none of it among its unknown fields
    have hvalues := last_values ((clear d').absorb fields) ⟨field, hmem⟩ field.type.default
      d'.fields.attach
    have hget : ((clear d').absorb fields).get ⟨field, hmem⟩ =
        LastWins.last field.take field.type.default fields := rfl
    rw [hget] at hvalues
    rw [LastWins.last_eq_of_forall_none, hvalues]
    · split
      · rfl
      · next hset =>
        have hfalse : field.type.isSet
            (LastWins.last field.take field.type.default fields) = false :=
          Bool.eq_false_iff.mpr fun htrue => hset ⟨List.mem_attach _ _, htrue⟩
        exact (FieldType.isSet_eq_false_iff.mp hfalse).symm
    · intro wire hwire
      have hnot : (!d'.takes wire) = true := (List.mem_filter.mp hwire).2
      exact Descriptor.takes_eq_false_iff.mp (by simpa using hnot) field hmem
  · -- the smaller class has kept it
    rw [LastWins.last_eq_of_forall_none (x := field.type.default)
      fun wire hwire => h.take_eq_none hfield hmem (takes_of_mem_values hwire)]
    exact LastWins.last_filter _ _ fun wire _ hwire =>
      h.take_eq_none hfield hmem (by simpa using hwire)

/-- The fields of no class are kept in their order. -/
theorem filter_records_absorb (h : d'.Sub d) :
    ((clear d').absorb fields).records.filter (!d.takes ·) = fields.filter (!d.takes ·) := by
  have hvalues : (((clear d').absorb fields).values d'.fields.attach).filter (!d.takes ·) = [] := by
    rw [List.filter_eq_nil_iff]
    intro wire hwire htakes
    have := h.takes (by simpa using htakes)
    rw [takes_of_mem_values hwire] at this
    cases this
  rw [records, List.filter_append, hvalues, List.nil_append]
  exact h.filter_takes fields

/-- Strings are text in the one exactly if they are in the other. -/
theorem all_verifies_records_absorb (h : d'.Sub d) (hverifies : fields.all d'.verifies = true) :
    ((clear d').absorb fields).records.all d.verifies = fields.all d.verifies := by
  rw [Bool.eq_iff_iff, List.all_eq_true, List.all_eq_true]
  constructor
  · intro hall wire hwire
    cases htakes : d'.takes wire with
    | false =>
      refine hall wire (List.mem_append_right _ (List.mem_filter.mpr ⟨hwire, ?_⟩))
      rw [htakes]
      rfl
    | true =>
      rw [Descriptor.verifies_iff]
      intro field hfield value hvalue
      by_cases hmem : field ∈ d'.fields
      · exact Descriptor.verifies_iff.mp (List.all_eq_true.mp hverifies wire hwire) field hmem
          value hvalue
      · rw [h.take_eq_none hfield hmem htakes] at hvalue
        cases hvalue
  · intro hall wire hwire
    rcases List.mem_append.mp hwire with hwire | hwire
    · obtain ⟨member, -, hset, rfl⟩ := mem_values.mp hwire
      have hverified := (fits_clear d').verified_absorb hverifies member
      generalize ((clear d').absorb fields).get member = value at hverified ⊢
      let other : d.Member := ⟨member.val, h _ member.property⟩
      have htake : other.val.take (member.val.record value) = some value := Field.take_record _ _
      rwa [Descriptor.verifies_of_take htake]
    · exact hall wire (List.mem_filter.mp hwire).1

theorem parseFromCodedStream_relay (h : d'.Sub d) {bytes : List CChar} {message : Message d'}
    (hparse : parseFromCodedStream d' (Unread.ofBytes bytes) = some message)
    (hsize : message.byteSizeLong ≤ intMax) :
    parseFromCodedStream d (Unread.ofBytes message.serializeWithCachedSizesToArray) =
      parseFromCodedStream d (Unread.ofBytes bytes) := by
  have hfits := fits_of_parseFromCodedStream hparse
  obtain ⟨fields, hspells, hverifies, rfl⟩ := parseFromCodedStream_eq_some_iff.mp hparse
  have habsorb : (clear d).absorb ((clear d').absorb fields).records =
      (clear d).absorb fields :=
    Message.ext (funext fun member => last_records_absorb h member.property)
      (congrArg ([] ++ ·) (filter_records_absorb h))
  rw [parseFromCodedStream_eq, parseFromCodedStream_eq,
    WireFormat.parseFromCodedStream_eq_some_iff.mpr (hfits.spells hsize),
    WireFormat.parseFromCodedStream_eq_some_iff.mpr hspells, Option.bind_some, Option.bind_some,
    foldlM_interpret, foldlM_interpret, all_verifies_records_absorb h hverifies, habsorb]

/-- **A class with fewer fields passes messages on**: what it reads and writes again is,
for the class with all the fields, what was sent. -/
theorem parseFromArray_relay (h : d'.Sub d) {data again : SizedArray} {message : Message d'}
    (hparse : parseFromArray d' data = some message)
    (hagain : message.serializeToString = some again.val) :
    parseFromArray d again = parseFromArray d data := by
  obtain ⟨hsize, heq⟩ := serializeToString_eq_some_iff.mp hagain
  rw [parseFromArray_eq_parseFromCodedStream] at hparse ⊢
  rw [parseFromArray_eq_parseFromCodedStream, ← heq]
  exact parseFromCodedStream_relay h hparse hsize

/-- What comes before the field that the smaller class knows is behind it afterwards. -/
theorem parseFromArray_relay_heart :
    parseFromArray GameMessage.HeartResponse ⟨[8, 1, 16, 7], by decide⟩ =
      parseFromArray GameMessage.HeartResponse ⟨[16, 7, 8, 2, 8, 1], by decide⟩ :=
  parseFromArray_relay (show GameMessage.HeartRequest.Sub _ by decide)
    (show _ = some _ from rfl) rfl

/-- **A class with fewer fields looks into messages**: it reads whatever the class with all
the fields reads, with the same values, and has what the other does not know among what it
does not know itself. -/
theorem parseFromArray_peek (h : d'.Sub d) {data : SizedArray} {message : Message d}
    (hparse : parseFromArray d data = some message) :
    ∃ peek : Message d', parseFromArray d' data = some peek ∧
      (∀ member : d'.Member, peek.get member = message.get ⟨member.val, h _ member.property⟩) ∧
      peek.unknownFields.filter (!d.takes ·) = message.unknownFields := by
  rw [parseFromArray_eq_parseFromCodedStream] at hparse ⊢
  obtain ⟨fields, hspells, hverifies, rfl⟩ := parseFromCodedStream_eq_some_iff.mp hparse
  refine ⟨(clear d').absorb fields, parseFromCodedStream_eq_some_iff.mpr
    ⟨fields, hspells, ?_, rfl⟩, fun _ => rfl, h.filter_takes fields⟩
  rw [List.all_eq_true] at hverifies ⊢
  exact fun wire hwire => h.verifies (hverifies wire hwire)

/-- The id of a message, whatever else there is in it. -/
theorem parseFromArray_peek_heart :
    ∃ peek : Message GameMessage.HeartRequest,
      parseFromArray GameMessage.HeartRequest ⟨[16, 7, 8, 1], by decide⟩ = some peek ∧
      peek.get ⟨.ofNat 1 .int32, by decide⟩ = (1 : BitVec 32) ∧
      peek.unknownFields.filter (!GameMessage.HeartResponse.takes ·) = [] :=
  have h := parseFromArray_peek (show GameMessage.HeartRequest.Sub _ by decide)
    (show parseFromArray GameMessage.HeartResponse ⟨[16, 7, 8, 1], _⟩ = some _ from rfl)
  h.imp fun _ hpeek => ⟨hpeek.1, hpeek.2.1 _, hpeek.2.2⟩

end Message

end SurvivalGame
