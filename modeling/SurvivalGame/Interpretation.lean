import SurvivalGame.GeneratedMessage
import SurvivalGame.WireGrammar

/-! # Parsing a message is interpreting its fields

A class reads its own fields itself and gives the others to `SkipField`.  It could as well
have all of them skipped, as an `UnknownFieldSet` is parsed, and then go through them:
`interpret` takes one field into a message, and parsing is a fold of it
(`parseFromCodedStream_eq`).  So what is accepted is the wire format with one more
condition, on strings.
-/
namespace SurvivalGame

/-! ## A field of a class among the fields of the wire -/

namespace FieldType

/-- The value that a field on the wire has for a class. -/
def decode : (type : FieldType) → UnknownField → Option type.Value
  | int32, .varint _ value | enum, .varint _ value => some (value.setWidth 32 : BitVec 32)
  | int64, .varint _ value => some (value : BitVec 64)
  | bool, .varint _ value => some (value != 0 : Bool)
  | string, .lengthDelimited _ value | bytes, .lengthDelimited _ value =>
    some (value : List CChar)
  | _, _ => none

theorem decode_eq_none {type : FieldType} {field : UnknownField}
    (h : field.wireType ≠ type.wireType) : type.decode field = none := by
  cases type <;> cases field <;> first | rfl | exact absurd rfl h

theorem isSome_decode {type : FieldType} {field : UnknownField}
    (h : field.wireType = type.wireType) : ∃ value, type.decode field = some value := by
  cases type <;> cases field <;> first | exact ⟨_, rfl⟩ | cases h

end FieldType

namespace Message

variable {d : Descriptor}

/-- One field more. -/
def addUnknown (message : Message d) (field : UnknownField) : Message d :=
  { message with unknownFields := message.unknownFields ++ [field] }

/-- A field of the wire, taken into a message. -/
def interpret (message : Message d) (field : UnknownField) : Option (Message d) :=
  match d.find? field.number with
  | some member =>
    match member.val.type.decode field with
    | some value =>
      if member.val.type.verify value then some (message.set member value) else none
    | none => some (message.addUnknown field)
  | none => some (message.addUnknown field)

section Interpret

variable {message : Message d} {field : UnknownField}

theorem interpret_of_decode {member : d.Member} {value : member.val.type.Value}
    (hfind : d.find? field.number = some member)
    (hvalue : member.val.type.decode field = some value) :
    message.interpret field =
      if member.val.type.verify value then some (message.set member value) else none := by
  rw [interpret, hfind]
  simp only [hvalue]

theorem interpret_of_decode_eq_none {member : d.Member}
    (hfind : d.find? field.number = some member)
    (hvalue : member.val.type.decode field = none) :
    message.interpret field = some (message.addUnknown field) := by
  rw [interpret, hfind]
  simp only [hvalue]

theorem interpret_of_find?_eq_none (hfind : d.find? field.number = none) :
    message.interpret field = some (message.addUnknown field) := by
  rw [interpret, hfind]

end Interpret

end Message

theorem Descriptor.number_of_find? {d : Descriptor} {number : BitVec 32} {member : d.Member}
    (h : d.find? number = some member) : member.val.number = number := by
  rw [find?] at h
  simpa using List.find?_some h

/-- The fields of a class differ in their numbers. -/
theorem Descriptor.member_ext {d : Descriptor} {a b : d.Member}
    (h : a.val.number = b.val.number) : a = b :=
  Subtype.ext (List.inj_on_of_nodup_map d.nodup a.property b.property h)

/-- A field is found by its number. -/
theorem Descriptor.find?_number {d : Descriptor} (member : d.Member) :
    d.find? member.val.number = some member := by
  cases h : d.find? member.val.number with
  | none =>
    rw [find?, List.find?_eq_none] at h
    exact absurd (beq_self_eq_true _) (h member (List.mem_attach _ _))
  | some found => rw [member_ext (number_of_find? h)]

/-! ## Numbers and tags -/

theorem Field.validNumber (field : Field) : WireFormat.ValidNumber field.number := by
  have hle := field.le_fifteen
  refine ⟨fun h => ?_, by omega⟩
  have hone := field.one_le
  rw [h] at hone
  cases hone

theorem Field.toNat_tag (field : Field) :
    field.tag.toNat = 8 * field.number.toNat + field.type.wireType.value.toNat :=
  toNat_makeTag field.validNumber.2 _

/-- The tag of a field is one byte. -/
theorem Field.toNat_tag_lt (field : Field) : field.tag.toNat < 128 := by
  have hle := field.le_fifteen
  have hlt := field.type.wireType.value_lt
  rw [field.toNat_tag]
  omega

/-- The comparison of the low bytes decides the wire type. -/
theorem Field.setWidth_eq_tag_iff {field : Field} {tag : CUInt} (hlt : tag.toNat < 128)
    (hnumber : field.number = getTagFieldNumber tag) :
    tag.setWidth 8 = field.tag.setWidth 8 ↔ getTagWireType tag = some field.type.wireType := by
  have htag := field.toNat_tag_lt
  rw [getTagWireType_eq_some_iff, ← BitVec.toNat_inj, BitVec.toNat_setWidth,
    BitVec.toNat_setWidth, Nat.mod_eq_of_lt (by omega), Nat.mod_eq_of_lt (by omega),
    field.toNat_tag, hnumber, toNat_getTagFieldNumber]
  omega

/-! ## One field -/

section OneField

open InputStream WireFormat

variable {d : Descriptor}

/-- What follows the tag of a class's field is read by the class as it is read when the
field is skipped. -/
theorem read_eq_readField (skip : Unread → Option (UnknownFieldSet × Unread)) {field : Field}
    (u : Unread) :
    field.type.read u = (readField skip u field.tag).bind fun p =>
      (field.type.decode p.1).map fun value => (value, p.2) := by
  rw [readField, Field.tag, getTagFieldNumber_makeTag field.validNumber.2,
    getTagWireType_makeTag field.validNumber.2, if_neg field.validNumber.1]
  cases field.type with
  | int32 | enum =>
    change u.readVarint 32 = ((u.readVarint 64).map _).bind _
    rw [u.readVarint_eq_setWidth, Option.bind_map, Option.map_eq_bind]
    rfl
  | int64 =>
    change u.readVarint 64 = ((u.readVarint 64).map _).bind _
    rw [Option.bind_map]
    exact (Option.bind_fun_some _).symm
  | bool =>
    change (u.readVarint 64).map _ = ((u.readVarint 64).map _).bind _
    rw [Option.bind_map, Option.map_eq_bind]
    rfl
  | string | bytes =>
    change ((readVarint32 u).bind fun p => readString p.2 p.1) =
      ((readVarint32 u).bind fun p => (readString p.2 p.1).map _).bind _
    rw [Option.bind_assoc]
    congr 1
    funext p
    rw [Option.bind_map]
    exact (Option.bind_fun_some _).symm

/-- Fields with a number that no class has are left to `SkipField`. -/
theorem find?_eq_none_of_le {tag : CUInt} (h : 128 ≤ tag.toNat) :
    d.find? (getTagFieldNumber tag) = none := by
  cases hfind : d.find? (getTagFieldNumber tag) with
  | none => rfl
  | some member =>
    have hle := member.val.le_fifteen
    rw [Descriptor.number_of_find? hfind, toNat_getTagFieldNumber] at hle
    omega

theorem handleUnusual_eq (u : Unread) (tag : CUInt) (message : Message d) :
    message.handleUnusual u tag =
      (readField (skipMessage recursionLimit · []) u tag).map fun p => (message.addUnknown p.1, p.2) := by
  rw [Message.handleUnusual, skipField_eq_collect, TokenLoop.collect, Option.map_map]
  rfl

/-- **A turn of the loop** reads a field as it would be skipped, and interprets it. -/
theorem mergeField_eq {tag : CUInt} (h : tag ≠ 0#32) (u : Unread) (message : Message d) :
    Message.mergeField u (tag, decide (tag - 1 < 127#32)) message =
      TokenLoop.applying (readField (skipMessage recursionLimit · [])) Message.interpret u tag
        message := by
  have hknown : tag - 1 < 127#32 ↔ tag.toNat < 128 := by
    have hpos : tag.toNat ≠ 0 := fun h0 => h (BitVec.eq_of_toNat_eq h0)
    rw [BitVec.lt_def, BitVec.toNat_sub_of_le (by rw [BitVec.le_def]; simp; omega)]
    simp
    omega
  have hswitch : (if decide (tag - 1 < 127#32) then d.find? (getTagFieldNumber tag) else none) =
      d.find? (getTagFieldNumber tag) := by
    by_cases hlt : tag.toNat < 128
    · rw [if_pos (decide_eq_true (hknown.mpr hlt))]
    · rw [find?_eq_none_of_le (Nat.le_of_not_lt hlt), ite_self]
  -- what is read has the number and the wire type of the tag
  have hread {p : UnknownField × Unread}
      (hp : readField (skipMessage recursionLimit · []) u tag = some p) :
      p.1.number = getTagFieldNumber tag ∧ getTagWireType tag = some p.1.wireType := by
    obtain ⟨hnumber, htag, -⟩ := spellsValue_of_readField hp
    rw [← htag, UnknownField.tag, getTagFieldNumber_makeTag hnumber.2,
      getTagWireType_makeTag hnumber.2]
    exact ⟨rfl, rfl⟩
  rw [Message.mergeField, TokenLoop.applying]
  simp only [hswitch]
  cases hfind : d.find? (getTagFieldNumber tag) with
  | none =>
    simp only
    rw [handleUnusual_eq, Option.map_eq_bind]
    refine Option.bind_congr fun p hp => ?_
    rw [Message.interpret_of_find?_eq_none ((hread hp).1 ▸ hfind)]
    rfl
  | some member =>
    have hnumber := Descriptor.number_of_find? hfind
    have hlt : tag.toNat < 128 := by
      by_contra hle
      rw [find?_eq_none_of_le (Nat.le_of_not_lt hle)] at hfind
      cases hfind
    simp only
    split
    · next htype =>
      rw [Field.setWidth_eq_tag_iff hlt hnumber] at htype
      have htag : member.val.tag = tag := by
        rw [Field.tag, hnumber, makeTag_getTagFieldNumber htype]
      rw [read_eq_readField (skipMessage recursionLimit · []), htag, Option.bind_eq_bind,
        Option.bind_assoc]
      refine Option.bind_congr fun p hp => ?_
      obtain ⟨hpnumber, hptype⟩ := hread hp
      have hwire : p.1.wireType = member.val.type.wireType :=
        Option.some.inj (hptype.symm.trans htype)
      obtain ⟨value, hvalue⟩ := FieldType.isSome_decode hwire
      rw [Message.interpret_of_decode (hpnumber ▸ hfind) hvalue, hvalue, Option.map_some,
        Option.bind_some]
      split <;> rfl
    · next htype =>
      rw [Field.setWidth_eq_tag_iff hlt hnumber] at htype
      rw [handleUnusual_eq, Option.map_eq_bind]
      refine Option.bind_congr fun p hp => ?_
      obtain ⟨hpnumber, hptype⟩ := hread hp
      have hvalue : member.val.type.decode p.1 = none :=
        FieldType.decode_eq_none fun heq => htype (heq ▸ hptype)
      rw [Message.interpret_of_decode_eq_none (hpnumber ▸ hfind) hvalue]
      rfl

end OneField

/-! ## The loop -/

section Loop

open InputStream WireFormat

variable {d : Descriptor}

/-- The two differ at most in the tag that was read last. -/
def SameBytes (u v : Unread) : Prop := ∃ tag, v = { u with lastTag := tag }

theorem SameBytes.refl (u : Unread) : SameBytes u u := ⟨u.lastTag, rfl⟩

theorem readRaw_lastTag (u : Unread) (size : Nat) (tag : CUInt) :
    Unread.readRaw { u with lastTag := tag } size =
      (u.readRaw size).map fun p => (p.1, { p.2 with lastTag := tag }) := by
  rw [Unread.readRaw, Unread.readRaw]
  split <;> rfl

theorem readVarint_lastTag (w : Nat) (u : Unread) (tag : CUInt) :
    Unread.readVarint w { u with lastTag := tag } =
      (u.readVarint w).map fun p => (p.1, { p.2 with lastTag := tag }) := by
  rw [Unread.readVarint, Unread.readVarint, Option.map_map]
  rfl

/-- A field is read the same, but for the tag that was read last. -/
theorem readField_sameBytes {u v : Unread} (h : SameBytes u v) (tag : CUInt) :
    Option.Rel (fun p q => p.1 = q.1 ∧ SameBytes p.2 q.2)
      (readField (skipMessage recursionLimit · []) u tag)
      (readField (skipMessage recursionLimit · []) v tag) := by
  obtain ⟨t, rfl⟩ := h
  have hmap {α : Type} (f : α → UnknownField) (x : Option (α × Unread)) :
      Option.Rel (fun p q => p.1 = q.1 ∧ SameBytes p.2 q.2) (x.map fun p => (f p.1, p.2))
        ((x.map fun p => (p.1, { p.2 with lastTag := t })).map fun p => (f p.1, p.2)) := by
    cases x with
    | none => exact .none
    | some p => exact .some ⟨rfl, t, rfl⟩
  rw [readField, readField]
  split
  · exact .none
  · cases getTagWireType tag with
    | none => exact .none
    | some type =>
      cases type with
      | varint =>
        change Option.Rel _ ((u.readVarint 64).map _) ((Unread.readVarint 64 _).map _)
        rw [readVarint_lastTag 64 u t]
        exact hmap (.varint _) _
      | fixed64 =>
        change Option.Rel _ (((u.readRaw 8).map _).map _) (((Unread.readRaw _ 8).map _).map _)
        rw [readRaw_lastTag u 8 t, Option.map_map, Option.map_map]
        exact hmap (fun bytes => .fixed64 _ (readLittleEndian64FromArray bytes)) _
      | fixed32 =>
        change Option.Rel _ (((u.readRaw 4).map _).map _) (((Unread.readRaw _ 4).map _).map _)
        rw [readRaw_lastTag u 4 t, Option.map_map, Option.map_map]
        exact hmap (fun bytes => .fixed32 _ (readLittleEndian32FromArray bytes)) _
      | lengthDelimited =>
        change Option.Rel _ ((u.readVarint 32).bind _) ((Unread.readVarint 32 _).bind _)
        rw [readVarint_lastTag 32 u t]
        cases u.readVarint 32 with
        | none => exact .none
        | some p =>
          change Option.Rel _ ((if _ then none else p.2.readRaw _).map _)
            ((if _ then none else Unread.readRaw { p.2 with lastTag := t } _).map _)
          split
          · exact .none
          · rw [readRaw_lastTag p.2 _ t]
            exact hmap (.lengthDelimited _) _
      | startGroup =>
        -- a group is read the same, up to the tag that ends it
        change Option.Rel _ ((if _ then some _ else none).bind _)
          ((if _ then some _ else none).bind _)
        split
        · simp only [Option.bind_some]
          rw [skipMessage_lastTag recursionLimit { u with recursionBudget := u.recursionBudget - 1 } t]
          generalize skipMessage recursionLimit { u with recursionBudget := _ } [] = skipped
          cases skipped with
          | none => exact .none
          | some p =>
            simp only [Option.bind_some]
            split
            · exact .some ⟨rfl, .refl _⟩
            · exact .none
        · exact .none
      | endGroup => exact .none

/-- What `SkipField` reads is not the end of the input, and it leaves the budget as it was. -/
theorem readField_keeps {u : Unread} (hlimit : u.recursionBudget ≤ recursionLimit) {tag : CUInt}
    {p : UnknownField × Unread} (h : readField (skipMessage recursionLimit · []) u tag = some p) :
    p.2.legitimateMessageEnd = u.legitimateMessageEnd ∧
      p.2.recursionBudget = u.recursionBudget := by
  obtain ⟨hnumber, -, ⟨bytes, -, -, hp⟩ | ⟨number, fields, v, w, hfield, hv, hskip, hlast, hp⟩⟩ :=
    spellsValue_of_readField h
  · rw [hp]
    exact ⟨rfl, rfl⟩
  · obtain ⟨budget, hbudget, rfl⟩ := exists_of_incrementRecursionDepth hv
    obtain ⟨q, gs, y, -, -, -, hyb, hyl, -, rfl⟩ := spells_of_skipMessage (by simp; omega) hskip
    rw [hfield] at hnumber
    have hend : (readTag y).1 ≠ 0 := by
      change (readTag y).2.lastTag ≠ 0
      rw [hlast]
      exact ValidNumber.tag_ne_zero hnumber .endGroup
    obtain ⟨e, -, -, hyu⟩ := exists_spellsTag hend
    have hw : (readTag y).2.recursionBudget = budget := by rw [hyu]; exact hyb
    rw [hp, decrementRecursionDepth_of_lt (by omega), hyu]
    exact ⟨hyl, hbudget ▸ congrArg (· + 1) hyb⟩

/-- The loop of a class, with the tag that was read last kept. -/
def interpretLoop (turns : Nat) (u : Unread) (message : Message d) :
    Option (Message d × Unread) :=
  TokenLoop.run readTag (· == 0)
    (TokenLoop.applying (readField (skipMessage recursionLimit · [])) Message.interpret) turns u message

theorem mergePartialFromCodedStream_rel (u : Unread) (message : Message d) :
    Option.Rel (fun p q => p.1 = q.1 ∧ SameBytes p.2 q.2)
      (message.mergePartialFromCodedStream u) (interpretLoop (bytesLeft u + 1) u message) := by
  refine TokenLoop.run_rel (R := SameBytes) (T := fun p tag => p = (tag, decide (tag - 1 < 127#32)))
    ?_ ?_ ?_ _ (.refl u) message
  · rintro u v ⟨t, rfl⟩
    rw [readTag_lastTag, ite_self]
    exact ⟨rfl, u.readTagNoLastTag.1, rfl⟩
  · rintro p tag rfl
    rfl
  · rintro u v p tag x h rfl hlast
    have htag : tag ≠ 0#32 := by
      rintro rfl
      cases hlast
    rw [mergeField_eq htag, TokenLoop.applying, TokenLoop.applying]
    have hrel := readField_sameBytes h tag
    generalize readField _ u tag = a, readField _ v tag = b at hrel
    cases hrel with
    | none => exact .none
    | @some p q hpq =>
      simp only [Option.bind_some]
      rw [← hpq.1]
      cases x.interpret p.1 with
      | none => exact .none
      | some y => exact .some ⟨rfl, hpq.2⟩

/-- The end of the input has not been read yet. -/
def Underway (u : Unread) : Prop :=
  u.legitimateMessageEnd = false ∧ u.recursionBudget ≤ recursionLimit

theorem underway_ofBytes (bytes : List CChar) : Underway (.ofBytes bytes) := ⟨rfl, Nat.le_refl _⟩

theorem Underway.readTag {u : Unread} (h : Underway u) (hlast : ((readTag u).1 == 0) = false) :
    Underway (readTag u).2 := by
  have htag : (InputStream.readTag u).1 ≠ 0 := fun h => by simp [h] at hlast
  obtain ⟨t, -, -, hu⟩ := exists_spellsTag htag
  rw [hu]
  exact h

theorem Underway.applying {u : Unread} (h : Underway u) {tag : CUInt} {message : Message d}
    {p : Message d × Unread}
    (hp : TokenLoop.applying (readField (skipMessage recursionLimit · [])) Message.interpret u tag
      message = some p) : Underway p.2 := by
  obtain ⟨q, hq, hp⟩ := Option.bind_eq_some_iff.mp hp
  obtain ⟨y, -, rfl⟩ := Option.map_eq_some_iff.mp hp
  obtain ⟨hlegit, hbudget⟩ := readField_keeps h.2 hq
  exact ⟨hlegit.trans h.1, hbudget ▸ h.2⟩

/-- At the end of a group a class fails, and so does the parser of a set of fields. -/
theorem interpretLoop_bind (turns : Nat) {u : Unread} (h : Underway u) (message : Message d) :
    ((interpretLoop turns u message).bind fun p =>
        if consumedEntireMessage p.2 then some p.1 else none) =
      (TokenLoop.run readTag endsMessage
        (TokenLoop.applying (readField (skipMessage recursionLimit · [])) Message.interpret) turns u
        message).bind fun p => if consumedEntireMessage p.2 then some p.1 else none := by
  refine TokenLoop.run_bind_eq_run_bind (I := Underway) ?_ (fun _ => Underway.readTag)
    (fun _ _ _ _ hu => hu.applying) ?_ ?_ turns h message
  · intro tag htag
    rw [endsMessage, htag, Bool.true_or]
  · intro u tag x hlast hends
    rw [endsMessage, hlast, Bool.false_or, beq_iff_eq] at hends
    rw [TokenLoop.applying, readField]
    simp [hends]
  · rintro u x ⟨hlegit, -⟩
    have hfalse : consumedEntireMessage u = false := hlegit
    exact if_neg (by rw [hfalse]; exact Bool.false_ne_true)

/-- A message that may end has been read to its end. -/
theorem bytes_eq_nil_of_mergePartialFromCodedStream {u : Unread} (hu : Underway u)
    {message : Message d} {p : Message d × Unread}
    (hp : message.mergePartialFromCodedStream u = some p)
    (hend : consumedEntireMessage p.2 = true) : p.2.bytes = [] := by
  have hrel := mergePartialFromCodedStream_rel u message
  rw [hp] at hrel
  generalize hq : interpretLoop _ _ message = loop at hrel
  cases hrel with
  | @some _ q hpq =>
    obtain ⟨-, t, hsame⟩ := hpq
    have hlast : consumedEntireMessage q.2 = true → q.2.bytes = [] := by
      refine TokenLoop.of_run (P := fun u => consumedEntireMessage u = true → u.bytes = [])
        (fun _ => Underway.readTag) (fun _ _ _ _ hu => hu.applying) (fun u h _ hend => ?_)
        hu hq
      exact (bytes_eq_nil_of_readTag h.1 hend).2
    rw [hsame] at hlast
    exact hlast hend

/-- **Parsing a message** is parsing its fields and interpreting them. -/
theorem parseFromCodedStream_eq (bytes : List CChar) :
    Message.parseFromCodedStream d (Unread.ofBytes bytes) =
      (parseFromCodedStream (Unread.ofBytes bytes)).bind
        (List.foldlM Message.interpret (Message.clear d)) := by
  have hcheck : Message.parseFromCodedStream d (Unread.ofBytes bytes) =
      (interpretLoop (bytesLeft (Unread.ofBytes bytes) + 1) (Unread.ofBytes bytes)
        (Message.clear d)).bind fun p => if consumedEntireMessage p.2 then some p.1 else none := by
    have hrel := mergePartialFromCodedStream_rel (Unread.ofBytes bytes) (Message.clear d)
    rw [Message.parseFromCodedStream]
    generalize Message.mergePartialFromCodedStream (Unread.ofBytes bytes) (Message.clear d) = a,
      interpretLoop _ _ _ = b at hrel ⊢
    cases hrel with
    | none => rfl
    | @some p q hpq =>
      obtain ⟨p, u⟩ := p
      obtain ⟨q, v⟩ := q
      obtain ⟨rfl, t, rfl⟩ := hpq
      rfl
  rw [hcheck, interpretLoop_bind _ (underway_ofBytes bytes), TokenLoop.run_bind_foldlM,
    parseFromCodedStream, maxDepth, skipMessage, skipField_eq_collect, TokenLoop.loop]
  simp only [Option.bind_eq_bind, Option.bind_assoc]
  congr 1
  funext p
  rw [Option.bind_map]
  cases hend : consumedEntireMessage p.2 with
  | true => simp [hend]
  | false => simp [hend]

end Loop

/-! ## Any input stream -/

section Hom

open InputStream WireFormat

variable {σ τ : Type} [InputStream σ] [InputStream τ] {f : σ → τ} {d : Descriptor}

theorem FieldType.read_map (hf : InputStream.Hom f) (type : FieldType) (s : σ) :
    (type.read s).map (Prod.map id f) = type.read (f s) := by
  have hbytes : (readBytes s).map (Prod.map id f) = readBytes (f s) := by
    simp only [readBytes, ← hf.readVarint32, Option.bind_eq_bind, Option.map_bind,
      Option.bind_map]
    congr 1
    funext p
    exact hf.readString p.2 p.1
  cases type with
  | int32 | enum => exact hf.readVarint32 s
  | int64 => exact hf.readVarint64 s
  | bool =>
    simp only [read, ← hf.readVarint64, Option.map_map]
    rfl
  | string | bytes => exact hbytes

theorem Message.handleUnusual_map (hf : InputStream.Hom f) (s : σ) (tag : CUInt)
    (message : Message d) :
    (message.handleUnusual s tag).map (Prod.map id f) = message.handleUnusual (f s) tag := by
  rw [handleUnusual, handleUnusual, skipField_eq_collect, skipField_eq_collect,
    TokenLoop.collect, TokenLoop.collect, ← readField_map hf fun s => skipMessage_map hf _ s [],
    Option.map_map, Option.map_map, Option.map_map, Option.map_map]
  rfl

theorem Message.mergeField_map (hf : InputStream.Hom f) (s : σ) (p : CUInt × Bool)
    (message : Message d) :
    (message.mergeField s p).map (Prod.map id f) = message.mergeField (f s) p := by
  rw [mergeField, mergeField]
  split
  · split
    · simp only [← FieldType.read_map hf, Option.bind_eq_bind, Option.map_bind, Option.bind_map]
      congr 1
      funext q
      simp only [Function.comp_apply, Prod.map_fst, Prod.map_snd, id_eq]
      split <;> rfl
    · exact handleUnusual_map hf s _ message
  · exact handleUnusual_map hf s _ message

theorem Message.mergePartialFromCodedStream_map (hf : InputStream.Hom f) (s : σ)
    (message : Message d) :
    Option.Rel (fun p q => p.1 = q.1 ∧ Behind f 0 p.2 q.2)
      (message.mergePartialFromCodedStream s) (message.mergePartialFromCodedStream (f s)) := by
  rw [mergePartialFromCodedStream, mergePartialFromCodedStream, TokenLoop.loop, TokenLoop.loop,
    hf.bytesLeft]
  refine TokenLoop.run_map (fun s => ?_) (fun s p message => mergeField_map hf s p message) _ s _
  obtain ⟨htag, hbehind⟩ := hf.readTagWithCutoffNoLastTag s 127 (by decide)
  refine ⟨htag, ?_⟩
  cases hlast : (readTagWithCutoffNoLastTag s 127).1.1 == 0 with
  | true =>
    rw [beq_iff_eq.mp hlast] at hbehind
    exact hbehind
  | false => exact hbehind.eq_of_ne_zero (beq_eq_false_iff_ne.mp hlast)

theorem Message.parseFromCodedStream_map (hf : InputStream.Hom f) (s : σ) :
    parseFromCodedStream d s = parseFromCodedStream d (f s) := by
  have hrel := mergePartialFromCodedStream_map hf s (clear d)
  rw [parseFromCodedStream, parseFromCodedStream]
  generalize mergePartialFromCodedStream s (clear d) = x,
    mergePartialFromCodedStream (f s) (clear d) = y at hrel
  cases hrel with
  | none => rfl
  | @some p q hpq =>
    have hconsumed := hf.consumedEntireMessage_of_behind hpq.2
    simp only [Option.bind_eq_bind, Option.bind_some, hconsumed, hpq.1]

end Hom

/-! ## What is accepted -/

section Accepted

variable {d : Descriptor}

/-- **A stream is parsed as the bytes that it consists of**, however they are cut into
buffers, up to `INT_MAX` of them. -/
theorem parseFromZeroCopyStream_eq (chunks : List (List CChar)) :
    Message.parseFromZeroCopyStream d chunks =
      Message.parseFromCodedStream d (Unread.ofBytes (chunks.flatten.take intMax)) := by
  rw [Message.parseFromZeroCopyStream,
    Message.parseFromCodedStream_map CodedInputStream.hom_unread,
    CodedInputStream.unread_ofStream,
    ← Message.parseFromCodedStream_map (Unread.hom_withLimit _ _)]

theorem parseFromArray_eq_parseFromCodedStream (data : SizedArray) :
    Message.parseFromArray d data = Message.parseFromCodedStream d (Unread.ofBytes data.val) := by
  rw [Message.parseFromArray, Message.parseFromCodedStream_map CodedInputStream.hom_unread,
    CodedInputStream.unread_ofArray,
    ← Message.parseFromCodedStream_map (Unread.hom_withLimit _ _)]

/-- **However the bytes are cut into buffers**, a message is parsed from a stream as from an
array of the same bytes. -/
theorem parseFromZeroCopyStream_eq_parseFromArray (chunks : List (List CChar)) :
    Message.parseFromZeroCopyStream d chunks =
      Message.parseFromArray d ⟨chunks.flatten.take intMax, List.length_take_le _ _⟩ := by
  rw [parseFromZeroCopyStream_eq, parseFromArray_eq_parseFromCodedStream]

end Accepted

end SurvivalGame
