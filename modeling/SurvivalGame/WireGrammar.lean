import SurvivalGame.Skipping

/-! # The wire format

Which byte strings spell a sequence of fields, said without a parser (`Spells`): every
field behind a tag that names its number and its wire type, numbers in base 128 of at
most ten bytes and cut to the bits their type has, lengths that are no negative `int`,
and groups between two tags of one number, nested no deeper than a budget.

`UnknownFieldSet::ParseFromArray` accepts these byte strings and no others, and returns
the fields they spell (`parseFromArray_eq_some_iff`).
-/
namespace SurvivalGame

namespace UnknownField

/-- The field number. -/
def number : UnknownField → BitVec 32
  | varint number _ => number
  | fixed32 number _ => number
  | fixed64 number _ => number
  | lengthDelimited number _ => number
  | group number _ => number

/-- The wire type of the tag in front. -/
def wireType : UnknownField → WireType
  | varint .. => .varint
  | fixed32 .. => .fixed32
  | fixed64 .. => .fixed64
  | lengthDelimited .. => .lengthDelimited
  | group .. => .startGroup

/-- The tag in front of the field. -/
def tag (field : UnknownField) : CUInt := makeTag field.number field.wireType

end UnknownField

namespace WireFormat

open InputStream

/-! ## The grammar -/

/-- Field numbers are positive and fit into a tag. -/
def ValidNumber (number : BitVec 32) : Prop := number ≠ 0 ∧ number.toNat < 2 ^ 29

/-- The bytes are one number. -/
def SpellsNumber (p : List CChar) (n : Nat) : Prop := Base128.decode 10 p = some (n, [])

/-- The bytes are one number, cut to 32 bits: a tag or a length. -/
def SpellsTag (p : List CChar) (tag : CUInt) : Prop :=
  ∃ n, SpellsNumber p n ∧ BitVec.ofNat 32 n = tag

/-- The bytes are what follows the tag of a field that is no group. -/
def SpellsValue (p : List CChar) : UnknownField → Prop
  | .varint _ value => ∃ n, SpellsNumber p n ∧ BitVec.ofNat 64 n = value
  | .fixed32 _ value => p.length = 4 ∧ readLittleEndian32FromArray p = value
  | .fixed64 _ value => p.length = 8 ∧ readLittleEndian64FromArray p = value
  | .lengthDelimited _ value =>
    ∃ l length, SpellsTag l length ∧ p = l ++ value ∧ value.length = length.toNat ∧
      value.length < 2 ^ 31
  | .group .. => False

/-- The bytes are a sequence of fields, with groups nested to a budget. -/
inductive Spells : Nat → List CChar → UnknownFieldSet → Prop
  | nil (budget : Nat) : Spells budget [] []
  | scalar {budget : Nat} {t p s : List CChar} {field : UnknownField} {fields : UnknownFieldSet}
      (hnumber : ValidNumber field.number) (htag : SpellsTag t field.tag)
      (hvalue : SpellsValue p field) (hrest : Spells budget s fields) :
      Spells budget (t ++ (p ++ s)) (field :: fields)
  | group {budget : Nat} {t p e s : List CChar} {number : BitVec 32}
      {fields rest : UnknownFieldSet} (hnumber : ValidNumber number)
      (hstart : SpellsTag t (makeTag number .startGroup)) (hfields : Spells budget p fields)
      (hend : SpellsTag e (makeTag number .endGroup)) (hrest : Spells (budget + 1) s rest) :
      Spells (budget + 1) (t ++ (p ++ (e ++ s))) (.group number fields :: rest)

/-- Sequences of fields are put behind each other. -/
theorem Spells.append {budget : Nat} {s t : List CChar} {fields fields' : UnknownFieldSet}
    (h : Spells budget s fields) (h' : Spells budget t fields') :
    Spells budget (s ++ t) (fields ++ fields') := by
  induction h with
  | nil => exact h'
  | scalar hnumber htag hvalue _ ih =>
    simp only [List.append_assoc, List.cons_append]
    exact .scalar hnumber htag hvalue (ih h')
  | group hnumber hstart hfields hend _ _ ih =>
    simp only [List.append_assoc, List.cons_append]
    exact .group hnumber hstart hfields hend (ih h')

/-! ## Tags -/

theorem ValidNumber.tag_ne_zero {number : BitVec 32} (h : ValidNumber number) (type : WireType) :
    makeTag number type ≠ 0#32 := by
  intro h0
  have hzero : (makeTag number type).toNat = 0 := congrArg BitVec.toNat h0
  have hpos : number.toNat ≠ 0 := fun hn => h.1 (BitVec.eq_of_toNat_eq hn)
  rw [toNat_makeTag h.2] at hzero
  omega

theorem ValidNumber.endsMessage_tag {number : BitVec 32} (h : ValidNumber number)
    {type : WireType} (htype : type ≠ .endGroup) : endsMessage (makeTag number type) = false := by
  rw [endsMessage, getTagWireType_makeTag h.2]
  simp [h.tag_ne_zero, htype]

theorem endsMessage_endGroup (number : BitVec 32) (h : number.toNat < 2 ^ 29) :
    endsMessage (makeTag number .endGroup) = true := by
  rw [endsMessage, getTagWireType_makeTag h]
  simp

theorem SpellsNumber.decode_append {p : List CChar} {n : Nat} (h : SpellsNumber p n)
    (rest : List CChar) : Base128.decode 10 (p ++ rest) = some (n, rest) :=
  Base128.decode_append h rest

theorem SpellsNumber.ne_nil {p : List CChar} {n : Nat} (h : SpellsNumber p n) : p ≠ [] := by
  rintro rfl
  cases h

theorem SpellsNumber.readVarint {p : List CChar} {n : Nat} (h : SpellsNumber p n) (w : Nat)
    {u : Unread} {rest : List CChar} (hbytes : u.bytes = p ++ rest) :
    u.readVarint w = some (BitVec.ofNat w n, { u with bytes := rest }) := by
  rw [Unread.readVarint, hbytes, h.decode_append, Option.map_some]

theorem exists_spellsNumber {w : Nat} {u u' : Unread} {value : BitVec w}
    (h : u.readVarint w = some (value, u')) :
    ∃ p n, SpellsNumber p n ∧ u.bytes = p ++ u'.bytes ∧ BitVec.ofNat w n = value ∧
      u' = { u with bytes := u'.bytes } := by
  obtain ⟨⟨n, rest⟩, hdec, hp⟩ := Option.map_eq_some_iff.mp h
  cases hp
  obtain ⟨p, hp, hnumber⟩ := Base128.exists_append_of_decode hdec
  exact ⟨p, n, hnumber, hp, rfl, rfl⟩

theorem SpellsTag.readTag {t : List CChar} {tag : CUInt} (h : SpellsTag t tag) {u : Unread}
    {rest : List CChar} (hbytes : u.bytes = t ++ rest) :
    readTag u = (tag, { u with bytes := rest, lastTag := tag }) := by
  obtain ⟨n, hnumber, rfl⟩ := h
  have hne : u.bytes ≠ [] := by
    rw [hbytes]
    exact List.append_ne_nil_of_left_ne_nil hnumber.ne_nil rest
  change (u.readTagNoLastTag.1, { u.readTagNoLastTag.2 with lastTag := u.readTagNoLastTag.1 }) = _
  rw [Unread.readTagNoLastTag_of_ne_nil hne, hnumber.readVarint 32 hbytes]
  rfl

theorem exists_spellsTag {u : Unread} (h : (readTag u).1 ≠ 0) :
    ∃ t, SpellsTag t (readTag u).1 ∧ u.bytes = t ++ (readTag u).2.bytes ∧
      (readTag u).2 = { u with bytes := (readTag u).2.bytes, lastTag := (readTag u).1 } := by
  change u.readTagNoLastTag.1 ≠ 0 at h
  change ∃ t, SpellsTag t u.readTagNoLastTag.1 ∧ u.bytes = t ++ u.readTagNoLastTag.2.bytes ∧
    ({ u.readTagNoLastTag.2 with lastTag := u.readTagNoLastTag.1 } : Unread) =
      { u with bytes := u.readTagNoLastTag.2.bytes, lastTag := u.readTagNoLastTag.1 }
  by_cases hbytes : u.bytes = []
  · rw [Unread.readTagNoLastTag_of_eq_nil hbytes] at h
    exact absurd rfl h
  · rw [Unread.readTagNoLastTag_of_ne_nil hbytes] at h ⊢
    cases hread : u.readVarint 32 with
    | none => simp [hread] at h
    | some p =>
      obtain ⟨t, n, hnumber, hp, hvalue, hu⟩ := exists_spellsNumber hread
      rw [Option.getD_some]
      refine ⟨t, ⟨n, hnumber, hvalue⟩, hp, ?_⟩
      rw [hu]

theorem readRaw_of_append {u : Unread} {p rest : List CChar} {size : Nat} (hsize : p.length = size)
    (hbytes : u.bytes = p ++ rest) : u.readRaw size = some (p, { u with bytes := rest }) := by
  subst hsize
  rw [Unread.readRaw, hbytes, if_pos (by rw [List.length_append]; omega), List.take_left,
    List.drop_left]

theorem exists_of_readRaw {u u' : Unread} {p : List CChar} {size : Nat}
    (h : u.readRaw size = some (p, u')) :
    p.length = size ∧ u.bytes = p ++ u'.bytes ∧ u' = { u with bytes := u'.bytes } := by
  rw [Unread.readRaw] at h
  split at h
  · next hle =>
    cases h
    exact ⟨List.length_take_of_le hle, (List.take_append_drop size u.bytes).symm, rfl⟩
  · cases h

@[simp] theorem lastTag_decrementRecursionDepth (u : Unread) :
    (decrementRecursionDepth u).lastTag = u.lastTag := by
  change Unread.lastTag (if _ then _ else _) = _
  split <;> rfl

/-- A length is no negative `int` exactly below `2 ^ 31`. -/
theorem slt_zero_eq_false_iff (length : CUInt) :
    length.slt 0#32 = false ↔ length.toNat < 2 ^ 31 := by
  rw [BitVec.slt_zero_eq_msb, BitVec.msb_eq_false_iff_two_mul_lt]
  omega

/-- The tag that was read last does not matter to what is read next. -/
theorem readTag_lastTag (u : Unread) (tag : CUInt) :
    readTag { u with lastTag := tag } = readTag u := by
  obtain ⟨bytes, lastTag, legitimateMessageEnd, recursionBudget, behind, missing⟩ := u
  change (Prod.mk _ _ : CUInt × Unread) = Prod.mk _ _
  cases bytes with
  | nil => rfl
  | cons b bytes =>
    simp only [Unread.readTagNoLastTag, Unread.readVarint]
    cases Base128.decode 10 (b :: bytes) <;> rfl

/-! ## One field -/

/-- What is spelled is read. -/
theorem readField_of_spellsValue {skip : Unread → Option (UnknownFieldSet × Unread)}
    {field : UnknownField} (hnumber : ValidNumber field.number) {p rest : List CChar}
    (hvalue : SpellsValue p field) {u : Unread} (hbytes : u.bytes = p ++ rest) :
    readField skip u field.tag = some (field, { u with bytes := rest }) := by
  rw [readField, UnknownField.tag, getTagFieldNumber_makeTag hnumber.2,
    getTagWireType_makeTag hnumber.2, if_neg hnumber.1]
  cases field with
  | varint number value =>
    obtain ⟨n, hn, rfl⟩ := hvalue
    change (u.readVarint 64).map _ = _
    rw [hn.readVarint 64 hbytes]
    rfl
  | fixed32 number value =>
    obtain ⟨hlength, rfl⟩ := hvalue
    change ((u.readRaw 4).map _).map _ = _
    rw [readRaw_of_append hlength hbytes]
    rfl
  | fixed64 number value =>
    obtain ⟨hlength, rfl⟩ := hvalue
    change ((u.readRaw 8).map _).map _ = _
    rw [readRaw_of_append hlength hbytes]
    rfl
  | lengthDelimited number value =>
    obtain ⟨l, length, ⟨n, hn, rfl⟩, rfl, hlength, hlt⟩ := hvalue
    rw [List.append_assoc] at hbytes
    change (u.readVarint 32).bind (fun q => Option.map
      (fun r => (UnknownField.lengthDelimited number r.1, r.2))
      (if q.1.slt 0#32 then none else q.2.readRaw q.1.toNat)) = _
    have hpos := (slt_zero_eq_false_iff (BitVec.ofNat 32 n)).mpr (hlength ▸ hlt)
    rw [hn.readVarint 32 hbytes, Option.bind_some, hpos, if_neg Bool.false_ne_true,
      readRaw_of_append hlength rfl]
    rfl
  | group number fields => exact absurd hvalue id

/-- A group is read by skipping to its end. -/
theorem readField_startGroup {skip : Unread → Option (UnknownFieldSet × Unread)}
    {number : BitVec 32} (hnumber : ValidNumber number) (u : Unread) :
    readField skip u (makeTag number .startGroup) =
      (incrementRecursionDepth u).bind fun v => (skip v).bind fun p =>
        if lastTagWas (decrementRecursionDepth p.2) (makeTag number .endGroup) then
          some (.group number p.1, decrementRecursionDepth p.2)
        else none := by
  rw [readField, getTagFieldNumber_makeTag hnumber.2, getTagWireType_makeTag hnumber.2,
    if_neg hnumber.1]

theorem incrementRecursionDepth_of_pos {u : Unread} (h : 0 < u.recursionBudget) :
    incrementRecursionDepth u = some { u with recursionBudget := u.recursionBudget - 1 } :=
  if_pos h

theorem decrementRecursionDepth_of_lt {u : Unread} (h : u.recursionBudget < recursionLimit) :
    decrementRecursionDepth u = { u with recursionBudget := u.recursionBudget + 1 } :=
  if_pos h

/-- What is read is spelled: the bytes that were taken, or the fields of a group. -/
theorem spellsValue_of_readField {skip : Unread → Option (UnknownFieldSet × Unread)}
    {u u' : Unread} {tag : CUInt} {field : UnknownField}
    (h : readField skip u tag = some (field, u')) :
    ValidNumber field.number ∧ field.tag = tag ∧
      ((∃ p, SpellsValue p field ∧ u.bytes = p ++ u'.bytes ∧ u' = { u with bytes := u'.bytes }) ∨
        ∃ number fields v w, field = .group number fields ∧
          incrementRecursionDepth u = some v ∧ skip v = some (fields, w) ∧
          w.lastTag = makeTag number .endGroup ∧ u' = decrementRecursionDepth w) := by
  rw [readField] at h
  split at h
  · cases h
  · next hnumber =>
    have hvalid : ValidNumber (getTagFieldNumber tag) := ⟨hnumber, getTagFieldNumber_lt tag⟩
    split at h
    · next htype =>
      obtain ⟨q, hq, hp⟩ := Option.map_eq_some_iff.mp h
      obtain ⟨p, n, hn, hbytes, hvalue, hu⟩ := exists_spellsNumber hq
      cases hp
      exact ⟨hvalid, makeTag_getTagFieldNumber htype, .inl ⟨p, ⟨n, hn, hvalue⟩, hbytes, hu⟩⟩
    · next htype =>
      obtain ⟨q, hq, hp⟩ := Option.map_eq_some_iff.mp h
      obtain ⟨r, hr, rfl⟩ := Option.map_eq_some_iff.mp hq
      obtain ⟨hlength, hbytes, hu⟩ := exists_of_readRaw hr
      cases hp
      exact ⟨hvalid, makeTag_getTagFieldNumber htype, .inl ⟨r.1, ⟨hlength, rfl⟩, hbytes, hu⟩⟩
    · next htype =>
      obtain ⟨q, hq, hp⟩ := Option.bind_eq_some_iff.mp h
      obtain ⟨r, hr, hp⟩ := Option.map_eq_some_iff.mp hp
      obtain ⟨l, n, hn, hbytes, hlength, hu⟩ := exists_spellsNumber hq
      change (if q.1.slt 0#32 then none else q.2.readRaw q.1.toNat) = _ at hr
      split at hr
      · cases hr
      · next hpos =>
        obtain ⟨hsize, hbytes', hu'⟩ := exists_of_readRaw hr
        have hlt := (slt_zero_eq_false_iff q.1).mp (Bool.eq_false_iff.mpr hpos)
        cases hp
        refine ⟨hvalid, makeTag_getTagFieldNumber htype, .inl ⟨l ++ r.1, ?_, ?_, ?_⟩⟩
        · exact ⟨l, q.1, ⟨n, hn, hlength⟩, rfl, hsize, hsize ▸ hlt⟩
        · rw [hbytes, hbytes', List.append_assoc]
        · rw [hu', hu]
    · next htype =>
      obtain ⟨v, hv, hp⟩ := Option.bind_eq_some_iff.mp h
      obtain ⟨q, hq, hp⟩ := Option.bind_eq_some_iff.mp hp
      split at hp
      · next hlast =>
        cases hp
        refine ⟨hvalid, makeTag_getTagFieldNumber htype, .inr ⟨_, q.1, v, q.2, rfl, hv, hq, ?_, rfl⟩⟩
        rw [← lastTag_decrementRecursionDepth]
        exact eq_of_beq hlast
      · cases hp
    · next htype =>
      obtain ⟨q, hq, hp⟩ := Option.map_eq_some_iff.mp h
      obtain ⟨r, hr, rfl⟩ := Option.map_eq_some_iff.mp hq
      obtain ⟨hlength, hbytes, hu⟩ := exists_of_readRaw hr
      cases hp
      exact ⟨hvalid, makeTag_getTagFieldNumber htype, .inl ⟨r.1, ⟨hlength, rfl⟩, hbytes, hu⟩⟩
    · cases h

/-! ## Sequences of fields -/

theorem skipMessage_lastTag (depth : Nat) (u : Unread) (tag : CUInt)
    (unknown_fields : UnknownFieldSet) :
    skipMessage depth { u with lastTag := tag } unknown_fields =
      skipMessage depth u unknown_fields := by
  cases depth with
  | zero => rfl
  | succ depth => rw [skipMessage_eq, skipMessage_eq, readTag_lastTag]

/-- **A sequence of fields is skipped** whatever stands behind it, when the stream's budget
and the depth are enough for its groups. -/
theorem skipMessage_of_spells {budget : Nat} {p : List CChar} {fields : UnknownFieldSet}
    (h : Spells budget p fields) {depth : Nat} (hdepth : budget < depth) {u : Unread}
    (hbudget : u.recursionBudget = budget) (hlimit : budget ≤ recursionLimit)
    {rest : List CChar} (hbytes : u.bytes = p ++ rest) (unknown_fields : UnknownFieldSet) :
    skipMessage depth u unknown_fields =
      skipMessage depth { u with bytes := rest } (unknown_fields ++ fields) := by
  obtain ⟨depth, rfl⟩ := Nat.exists_eq_add_of_lt (Nat.lt_of_le_of_lt (Nat.zero_le _) hdepth)
  rw [Nat.zero_add] at hdepth ⊢
  induction h generalizing u unknown_fields rest depth with
  | nil =>
    rw [List.nil_append] at hbytes
    rw [← hbytes, List.append_nil]
  | @scalar _ t p s field fields hnumber htag hvalue _ ih =>
    rw [List.append_assoc, List.append_assoc] at hbytes
    have hends : endsMessage field.tag = false := by
      refine hnumber.endsMessage_tag ?_
      cases field <;> simp [UnknownField.wireType]
    rw [skipMessage_eq, htag.readTag hbytes, if_neg (by rw [hends]; exact Bool.false_ne_true),
      readField_of_spellsValue hnumber hvalue rfl, Option.bind_some]
    refine (ih (u := { u with bytes := s ++ rest, lastTag := field.tag }) hbudget hlimit rfl _
      depth hdepth).trans ?_
    rw [List.append_assoc, List.singleton_append]
    exact skipMessage_lastTag (depth + 1) { u with bytes := rest } field.tag _
  | @group budget t p e s number fields fields' hnumber hstart _ hend _ ihfields ihrest =>
    simp only [List.append_assoc] at hbytes
    obtain ⟨depth, rfl⟩ := Nat.exists_eq_add_of_lt (show 0 < depth by omega)
    have hends : endsMessage (makeTag number .startGroup) = false :=
      hnumber.endsMessage_tag (by decide)
    have hgroup : readField (skipMessage (0 + depth + 1) · [])
        { u with bytes := p ++ (e ++ (s ++ rest)), lastTag := makeTag number .startGroup }
        (makeTag number .startGroup) =
        some (.group number fields,
          { u with bytes := s ++ rest, lastTag := makeTag number .endGroup }) := by
      rw [readField_startGroup hnumber, incrementRecursionDepth_of_pos (hbudget ▸ Nat.succ_pos _),
        Option.bind_some, ihfields (by simp [hbudget]) (by omega) rfl _ _ (by omega),
        skipMessage_eq, hend.readTag rfl, if_pos (endsMessage_endGroup number hnumber.2),
        Option.bind_some, decrementRecursionDepth_of_lt (by simp only; omega)]
      have hrestored : u.recursionBudget - 1 + 1 = u.recursionBudget := by omega
      simp only [hrestored, List.nil_append]
      exact if_pos (beq_self_eq_true _)
    rw [skipMessage_eq, hstart.readTag hbytes, if_neg (by rw [hends]; exact Bool.false_ne_true),
      hgroup, Option.bind_some]
    refine (ihrest (u := { u with bytes := s ++ rest, lastTag := makeTag number .endGroup })
      hbudget hlimit rfl _ _ hdepth).trans ?_
    rw [List.append_assoc, List.singleton_append]
    exact skipMessage_lastTag _ { u with bytes := rest } (makeTag number .endGroup) _

/-- Only the end of the input is a legitimate end. -/
theorem legitimateMessageEnd_readTag {u : Unread} (h : u.bytes ≠ []) :
    (readTag u).2.legitimateMessageEnd = u.legitimateMessageEnd := by
  change u.readTagNoLastTag.2.legitimateMessageEnd = _
  rw [Unread.readTagNoLastTag_of_ne_nil h, Unread.readVarint]
  cases Base128.decode 10 u.bytes <;> rfl

/-- A message ends at the end of the input. -/
theorem bytes_eq_nil_of_readTag {u : Unread} (hlegit : u.legitimateMessageEnd = false)
    (hend : (readTag u).2.legitimateMessageEnd = true) :
    u.bytes = [] ∧ (readTag u).2.bytes = [] := by
  have hnil : u.bytes = [] := by
    by_contra hne
    rw [legitimateMessageEnd_readTag hne, hlegit] at hend
    cases hend
  have hle := length_readTag_le u
  rw [hnil] at hle
  exact ⟨hnil, List.length_eq_zero_iff.mp (Nat.le_zero.mp hle)⟩

theorem exists_of_incrementRecursionDepth {u v : Unread}
    (h : incrementRecursionDepth u = some v) :
    ∃ budget, u.recursionBudget = budget + 1 ∧ v = { u with recursionBudget := budget } := by
  change (if 0 < u.recursionBudget then _ else _) = _ at h
  split at h
  · next hpos =>
    cases h
    exact ⟨u.recursionBudget - 1, by omega, rfl⟩
  · cases h

/-- **What was skipped is a sequence of fields**, up to where a tag ends the message. -/
theorem spells_of_skipMessage {depth : Nat} {u u' : Unread}
    (hlimit : u.recursionBudget ≤ recursionLimit) {unknown_fields fields' : UnknownFieldSet}
    (h : skipMessage depth u unknown_fields = some (fields', u')) :
    ∃ p fields v, fields' = unknown_fields ++ fields ∧ Spells u.recursionBudget p fields ∧
      u.bytes = p ++ v.bytes ∧ v.recursionBudget = u.recursionBudget ∧
      v.legitimateMessageEnd = u.legitimateMessageEnd ∧ endsMessage (readTag v).1 ∧
      u' = (readTag v).2 := by
  induction depth generalizing u unknown_fields fields' u' with
  | zero => cases h
  | succ depth ihdepth =>
    induction hlength : u.bytes.length using Nat.strongRecOn generalizing u unknown_fields with
    | ind length ih =>
      rw [skipMessage_eq] at h
      split at h
      · next hends =>
        cases h
        exact ⟨[], [], u, (List.append_nil _).symm, .nil _, rfl, rfl, rfl, hends, rfl⟩
      · next hends =>
        obtain ⟨⟨field, u₂⟩, hfield, hrest⟩ := Option.bind_eq_some_iff.mp h
        have hends := Bool.eq_false_iff.mpr hends
        have htag := ne_zero_of_not_endsMessage hends
        obtain ⟨t, ht, hbytes, hu⟩ := exists_spellsTag htag
        have hlt := length_readTag_lt htag
        have hle := length_le_of_readField (fun u p h => length_le_of_skipMessage h) hfield
        obtain ⟨hnumber, htagof, hread⟩ := spellsValue_of_readField hfield
        rcases hread with ⟨p, hvalue, hp, hu₂⟩ | ⟨number, gs, v, w, rfl, hv, hskip, hlast, rfl⟩
        · have hbudget : u₂.recursionBudget = u.recursionBudget := by rw [hu₂, hu]
          have hlegit : u₂.legitimateMessageEnd = u.legitimateMessageEnd := by rw [hu₂, hu]
          obtain ⟨q, fields, x, rfl, hq, hx, hxb, hxl, hxe, rfl⟩ :=
            ih u₂.bytes.length (by simp only at hle ⊢; omega) (hbudget ▸ hlimit) hrest rfl
          refine ⟨t ++ (p ++ q), field :: fields, x, by simp, ?_, ?_, ?_, ?_, hxe, rfl⟩
          · exact .scalar hnumber (htagof ▸ ht) hvalue (hbudget ▸ hq)
          · rw [hbytes, hp, hx]
            simp
          · rw [hxb, hbudget]
          · rw [hxl, hlegit]
        · obtain ⟨budget, hb, rfl⟩ := exists_of_incrementRecursionDepth hv
          have hbudget : u.recursionBudget = budget + 1 := by rw [hu] at hb; exact hb
          obtain ⟨q, fields, y, hgs, hq, hy, hyb, hyl, -, rfl⟩ :=
            ihdepth (by simp only; omega) hskip
          rw [List.nil_append] at hgs
          obtain rfl := hgs
          have hend : (readTag y).1 ≠ 0 := by
            change (readTag y).2.lastTag ≠ 0
            rw [hlast]
            exact hnumber.tag_ne_zero .endGroup
          obtain ⟨e, he, hye, hyu⟩ := exists_spellsTag hend
          have hw : (readTag y).2.recursionBudget = budget := by rw [hyu]; exact hyb
          have hwl : (readTag y).2.legitimateMessageEnd = u.legitimateMessageEnd := by
            rw [hyu, hu] at *
            exact hyl
          rw [decrementRecursionDepth_of_lt (by omega)] at hle hrest
          obtain ⟨r, fields', x, rfl, hr, hx, hxb, hxl, hxe, rfl⟩ :=
            ih _ (by simp only at hle ⊢; omega) (by simp only; omega) hrest rfl
          refine ⟨t ++ (q ++ (e ++ r)), .group number gs :: fields', x, by simp, ?_, ?_, ?_, ?_,
            hxe, rfl⟩
          · rw [hbudget]
            rw [hw] at hr
            have hstart : SpellsTag t (makeTag number .startGroup) := by
              rw [← htagof] at ht
              exact ht
            have hstop : SpellsTag e (makeTag number .endGroup) := by
              rw [← hlast]
              exact he
            exact .group hnumber hstart hq hstop hr
          · simp only at hx hy
            rw [hbytes, hy, hye, hx]
            simp
          · rw [hxb, hw, hbudget]
          · rw [hxl, hwl]

/-- Where the message may end, nothing is left. -/
theorem bytes_eq_nil_of_skipMessage {depth : Nat} {u : Unread}
    (hlimit : u.recursionBudget ≤ recursionLimit) (hlegit : u.legitimateMessageEnd = false)
    {p : UnknownFieldSet × Unread} (h : skipMessage depth u [] = some p)
    (hend : p.2.legitimateMessageEnd = true) : p.2.bytes = [] := by
  obtain ⟨-, -, v, -, -, -, -, hv, -, hp⟩ := spells_of_skipMessage hlimit h
  rw [hp] at hend ⊢
  exact (bytes_eq_nil_of_readTag (hv.trans hlegit) hend).2

/-! ## What is accepted -/

/-- **Parsing is reading the grammar**: an input is accepted exactly when its bytes spell
a sequence of fields, and then these are the fields. -/
theorem parseFromCodedStream_eq_some_iff {bytes : List CChar} {fields : UnknownFieldSet} :
    parseFromCodedStream (Unread.ofBytes bytes) = some fields ↔
      Spells recursionLimit bytes fields := by
  rw [parseFromCodedStream]
  constructor
  · intro h
    obtain ⟨⟨other, u⟩, hskip, hend⟩ := Option.bind_eq_some_iff.mp h
    obtain ⟨p, fields', v, hother, hspells, hbytes, -, hlegit, -, hu⟩ :=
      spells_of_skipMessage (Nat.le_refl _) hskip
    simp only at hend
    split at hend
    · next hconsumed =>
      cases hend
      rw [hu] at hconsumed
      have hv := (bytes_eq_nil_of_readTag hlegit hconsumed).1
      have hp : bytes = p := by simpa [hv, Unread.ofBytes] using hbytes
      rw [hp, hother, List.nil_append]
      exact hspells
    · cases hend
  · intro h
    have hskip := skipMessage_of_spells h (Nat.lt_succ_self recursionLimit)
      (u := Unread.ofBytes bytes) rfl (Nat.le_refl _) (List.append_nil bytes).symm []
    rw [maxDepth, hskip]
    rfl

/-- **`UnknownFieldSet::ParseFromArray` accepts the wire format** and nothing else. -/
theorem parseFromArray_eq_some_iff (data : SizedArray) (fields : UnknownFieldSet) :
    parseFromArray data = some fields ↔ Spells recursionLimit data.val fields := by
  rw [parseFromArray_eq, parseFromCodedStream_eq_some_iff]

/-- A byte string spells one sequence of fields at most. -/
theorem Spells.unique {bytes : List CChar} {fields fields' : UnknownFieldSet}
    (h : Spells recursionLimit bytes fields) (h' : Spells recursionLimit bytes fields') :
    fields = fields' := by
  rw [← parseFromCodedStream_eq_some_iff] at h h'
  exact Option.some.inj (h.symm.trans h')

end WireFormat

end SurvivalGame
