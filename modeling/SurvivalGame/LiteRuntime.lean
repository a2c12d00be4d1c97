import SurvivalGame.BufferedOutput

/-! # Skipping without keeping

The lite runtime has no `UnknownFieldSet`.  Its `WireFormatLite::SkipField` comes in two
kinds: one throws a field away, and jumps over a string in the input without reading it
(so does `WireFormat::SkipField` without a set), and one copies the field to an output
while it reads it.  They are called by the methods of `FieldSkipper` and of
`CodedOutputStreamFieldSkipper`.

Both accept what `WireFormat::SkipField` accepts.  The one leaves the same unread at the end
of a group or of a message, though not in the same buffers, if the input jumps as its
interface says (`FieldSkipper.skipMessage_unread`); the other writes what the set would be
written as (`CodedOutputStreamFieldSkipper.skipMessage_sink`).
-/
namespace SurvivalGame

open InputStream

/-! ## Throwing fields away -/

namespace FieldSkipper

section

variable {σ : Type} [InputStream σ] (skip : σ → CUInt → Option σ)

/-- `WireFormatLite::SkipField`, and `WireFormat::SkipField` with `unknown_fields` `NULL`;
`skip` is the `Skip` of the stream. -/
def skipField (skipMessage : σ → Option σ) (input : σ) (tag : CUInt) : Option σ :=
  let number := getTagFieldNumber tag
  if number = 0 then none
  else
    match getTagWireType tag with
    | some .varint => (readVarint64 input).map Prod.snd
    | some .fixed64 => (readLittleEndian64 input).map Prod.snd
    | some .lengthDelimited => do
      let (length, input) ← readVarint32 input
      skip input length
    | some .startGroup => do
      let input ← incrementRecursionDepth input
      let input ← skipMessage input
      let input := decrementRecursionDepth input
      if lastTagWas input (makeTag number .endGroup) then some input else none
    | some .endGroup => none
    | some .fixed32 => (readLittleEndian32 input).map Prod.snd
    | none => none

/-- A turn of `WireFormatLite::SkipMessage`, which has nothing to work on. -/
def skipTurn (skipMessage : σ → Option σ) (input : σ) (tag : CUInt) (_ : Unit) :
    Option (Unit × σ) :=
  (skipField skip skipMessage input tag).map fun input => ((), input)

/-- `WireFormatLite::SkipMessage`, calling itself for groups to a depth. -/
def skipMessage : Nat → σ → Option σ
  | 0, _ => none
  | depth + 1, input =>
    (TokenLoop.loop bytesLeft readTag WireFormat.endsMessage (skipTurn skip (skipMessage depth))
      input ()).map Prod.snd

end

/-! ### Of the bytes -/

/-- To throw a field away is to read it and to forget it. -/
theorem skipField_eq {skip : Unread → Option (UnknownFieldSet × Unread)}
    {skip' : Unread → Option Unread} (hskip : ∀ u, skip' u = (skip u).map Prod.snd) (u : Unread)
    (tag : CUInt) :
    skipField Unread.skip skip' u tag = (WireFormat.readField skip u tag).map Prod.snd := by
  rw [skipField, WireFormat.readField]
  simp only
  split
  · rfl
  · cases getTagWireType tag with
    | none => rfl
    | some type =>
      cases type with
      | varint | fixed64 | fixed32 =>
        simp only [Option.map_map]
        rfl
      | lengthDelimited =>
        simp only [Option.bind_eq_bind, Option.map_bind]
        congr 1
        funext p
        change (if _ then none else (p.2.readRaw _).map Prod.snd) =
          ((if _ then none else p.2.readRaw _).map _).map Prod.snd
        rw [Option.map_map, apply_ite (Option.map _)]
        rfl
      | startGroup =>
        simp only [Option.bind_eq_bind, Option.map_bind, hskip, Option.bind_map]
        congr 1
        funext v
        simp only [Function.comp_apply, Option.map_bind]
        congr 1
        funext p
        split <;> rfl
      | endGroup => rfl

theorem skipMessage_eq (depth : Nat) (u : Unread) :
    skipMessage Unread.skip depth u = (WireFormat.skipMessage depth u []).map Prod.snd := by
  induction depth generalizing u with
  | zero => rfl
  | succ depth ih =>
    have hturn : ∀ (u : Unread) tag fields,
        (WireFormat.skipField (fun u => WireFormat.skipMessage depth u []) u tag fields).map
          (Prod.map (fun _ => ()) id) = skipTurn Unread.skip (skipMessage Unread.skip depth) u tag
            () := by
      intro u tag fields
      rw [WireFormat.skipField_eq_collect, TokenLoop.collect, skipTurn, skipField_eq ih,
        Option.map_map, Option.map_map]
      rfl
    rw [skipMessage, WireFormat.skipMessage, TokenLoop.loop, TokenLoop.loop,
      ← TokenLoop.run_map_value hturn _ u [], Option.map_map]
    rfl

/-! ### Of any input -/

section Hom

open WireFormat (SameEnd)

variable {σ τ : Type} [InputStream σ] [InputStream τ] {f : σ → τ}
  {skip : σ → CUInt → Option σ} {skip' : τ → CUInt → Option τ}

theorem skipField_map (hf : InputStream.Hom f)
    (hjump : ∀ s count, (skip s count).map f = skip' (f s) count) {skipMessage : σ → Option σ}
    {skipMessage' : τ → Option τ}
    (hskip : ∀ s, Option.Rel (SameEnd f) (skipMessage s) (skipMessage' (f s))) (s : σ)
    (tag : CUInt) :
    (skipField skip skipMessage s tag).map f = skipField skip' skipMessage' (f s) tag := by
  rw [skipField, skipField]
  simp only
  split
  · rfl
  · cases getTagWireType tag with
    | none => rfl
    | some type =>
      cases type with
      | varint => simp [← hf.readVarint64, Option.map_map, Function.comp_def]
      | fixed64 => simp [← hf.readLittleEndian64, Option.map_map, Function.comp_def]
      | fixed32 => simp [← hf.readLittleEndian32, Option.map_map, Function.comp_def]
      | lengthDelimited =>
        simp [← hf.readVarint32, ← hjump, Option.map_bind, Option.bind_map]
      | startGroup =>
        simp only [← hf.incrementRecursionDepth, Option.bind_eq_bind, Option.map_bind,
          Option.bind_map]
        congr 1
        funext input
        have hrel := hskip input
        simp only [Function.comp_apply]
        generalize skipMessage input = x, skipMessage' (f input) = y at hrel ⊢
        cases hrel with
        | none => rfl
        | @some rest rest' hend =>
          rw [Option.bind_some, Option.bind_some]
          rcases hend.eq_or (makeTag_endGroup_ne_zero (getTagFieldNumber_lt tag)) with
            heq | ⟨hno, hno'⟩
          · rw [heq, ← hf.decrementRecursionDepth, hf.lastTagWas]
            split <;> rfl
          · rw [if_neg hno, if_neg hno']
            rfl
      | endGroup => rfl

theorem skipMessage_map (hf : InputStream.Hom f)
    (hjump : ∀ s count, (skip s count).map f = skip' (f s) count) (depth : Nat) (s : σ) :
    Option.Rel (SameEnd f) (skipMessage skip depth s) (skipMessage skip' depth (f s)) := by
  induction depth generalizing s with
  | zero => exact .none
  | succ depth ih =>
    have hturn : ∀ s tag x, (skipTurn skip (skipMessage skip depth) s tag x).map (Prod.map id f) =
        skipTurn skip' (skipMessage skip' depth) (f s) tag x := by
      intro s tag x
      rw [skipTurn, skipTurn, ← skipField_map hf hjump ih, Option.map_map, Option.map_map]
      rfl
    have hrun := TokenLoop.run_map (WireFormat.readTag_sameEnd hf) hturn (bytesLeft s + 1) s ()
    rw [skipMessage, skipMessage, TokenLoop.loop, TokenLoop.loop, hf.bytesLeft]
    generalize TokenLoop.run _ _ _ _ s () = x, TokenLoop.run _ _ _ _ (f s) () = y at hrun ⊢
    cases hrun with
    | none => exact .none
    | some hpq => exact .some hpq.2

end Hom

/-- What two ways to skip, from one stream, leave alike.  Behind the end of a group, and
where the message ends, the same is unread; behind a tag that cannot be read, or is zero, one
of the two may have passed over more bytes than the other. -/
structure LeaveAlike (s s₁ s₂ : CodedInputStream) : Prop where
  lastTag : s₁.lastTag = s₂.lastTag
  legitimateMessageEnd : s₁.legitimateMessageEnd = s₂.legitimateMessageEnd
  unread_of_group : s₁.lastTag ≠ 0 → s₁.unread = s₂.unread
  unread_of_message : s.recursionBudget ≤ recursionLimit → s.legitimateMessageEnd = false →
    s₁.legitimateMessageEnd = true → s₁.unread = s₂.unread

/-- **Throwing fields away is keeping them and forgetting them**, for every kind of input
whose `Skip` does what its interface says. -/
theorem skipMessage_unread (skipInput : CodedInputStream.InputSkip) (depth : Nat)
    (s : CodedInputStream) :
    Option.Rel (fun s₁ p => LeaveAlike s s₁ p.2)
      (skipMessage (CodedInputStream.skip skipInput) depth s)
      (WireFormat.skipMessage depth s []) := by
  have hlite := skipMessage_map CodedInputStream.hom_unread
    (CodedInputStream.skip_unread skipInput) depth s
  have hset := WireFormat.skipMessage_map CodedInputStream.hom_unread depth s []
  rw [skipMessage_eq] at hlite
  generalize skipMessage (CodedInputStream.skip skipInput) depth s = x at hlite ⊢
  generalize WireFormat.skipMessage depth s [] = y at hset ⊢
  generalize hbytes : WireFormat.skipMessage depth s.unread [] = z at hlite hset
  cases hset with
  | none =>
    cases hlite
    exact .none
  | @some p q hpq =>
    cases hlite with
    | @some s₁ _ hend =>
      have hlegit := CodedInputStream.hom_unread.consumedEntireMessage_of_behind hend.2
      have hlegit' := CodedInputStream.hom_unread.consumedEntireMessage_of_behind hpq.2.2
      have hlast : s₁.lastTag = p.2.lastTag := hend.1.symm.trans hpq.2.1
      refine .some ⟨hlast, hlegit.symm.trans hlegit', fun hne => ?_,
        fun hlimit hfalse htrue => ?_⟩
      · have hne' : p.2.lastTag ≠ 0 := by rwa [← hlast]
        rw [← hend.2.eq_of_ne_zero hne, hpq.2.2.eq_of_ne_zero hne']
      · have hnil : q.2.bytes = [] := WireFormat.bytes_eq_nil_of_skipMessage hlimit hfalse hbytes
          (hlegit.trans htrue)
        rw [← hend.2.eq_of_bytes_eq_nil hnil, hpq.2.2.eq_of_bytes_eq_nil hnil]

/-- An array in blocks of three bytes, and a string that ends inside one of them. -/
theorem skipMessage_unread_blocks :
    Option.Rel (fun s₁ p => LeaveAlike (.ofStream [[18, 4, 97], [97, 97, 97], [8, 1]]) s₁ p.2)
      (skipMessage (CodedInputStream.skip (CodedInputStream.arrayInputSkip 2)) WireFormat.maxDepth
        (.ofStream [[18, 4, 97], [97, 97, 97], [8, 1]]))
      (WireFormat.skipMessage WireFormat.maxDepth (.ofStream [[18, 4, 97], [97, 97, 97], [8, 1]])
        []) :=
  skipMessage_unread (CodedInputStream.arrayInputSkip 2) WireFormat.maxDepth _

end FieldSkipper

/-! ## Copying fields -/

namespace CodedOutputStreamFieldSkipper

variable {σ : Type} [InputStream σ]

/-- `WireFormatLite::SkipField` with an output. -/
def skipField (skipMessage : σ → CodedOutputStream → Option (CodedOutputStream × σ)) (input : σ)
    (tag : CUInt) (output : CodedOutputStream) : Option (CodedOutputStream × σ) :=
  let number := getTagFieldNumber tag
  if number = 0 then none
  else
    match getTagWireType tag with
    | some .varint => do
      let (value, input) ← readVarint64 input
      some ((output.writeVarint32 tag).writeVarint64 value, input)
    | some .fixed64 => do
      let (value, input) ← readLittleEndian64 input
      some ((output.writeVarint32 tag).writeLittleEndian64 value, input)
    | some .lengthDelimited => do
      let (length, input) ← readVarint32 input
      let output := (output.writeVarint32 tag).writeVarint32 length
      let (temp, input) ← readString input length
      some (output.writeRaw temp, input)
    | some .startGroup => do
      let output := output.writeVarint32 tag
      let input ← incrementRecursionDepth input
      let (output, input) ← skipMessage input output
      let input := decrementRecursionDepth input
      if lastTagWas input (makeTag number .endGroup) then some (output, input) else none
    | some .endGroup => none
    | some .fixed32 => do
      let (value, input) ← readLittleEndian32 input
      some ((output.writeVarint32 tag).writeLittleEndian32 value, input)
    | none => none

/-- What `SkipMessage` writes before it returns: the tag that it read last, if that ends a
group. -/
def finish (input : σ) (output : CodedOutputStream) : CodedOutputStream :=
  if getTagWireType (lastTag input) = some .endGroup then output.writeVarint32 (lastTag input)
  else output

/-- `WireFormatLite::SkipMessage` with an output, calling itself for groups to a depth. -/
def skipMessage : Nat → σ → CodedOutputStream → Option (CodedOutputStream × σ)
  | 0, _, _ => none
  | depth + 1, input, output =>
    (TokenLoop.loop bytesLeft readTag WireFormat.endsMessage (skipField (skipMessage depth))
      input output).map fun p => (finish p.2 p.1, p.2)

/-! ### From a stream -/

/-- A string is as long as it was said to be. -/
theorem length_of_readString {s : CodedInputStream} {length : CUInt}
    {p : List CChar × CodedInputStream} (h : s.readString length = some p) :
    p.1.length = length.toNat := by
  have hread := CodedInputStream.readString_unread s length
  rw [h, Option.map_some] at hread
  split at hread
  · cases hread
  · rw [Unread.readRaw] at hread
    split at hread
    · next hle =>
      have hvalue := congrArg Prod.fst (Option.some.inj hread)
      rw [show p.1 = _ from hvalue, List.length_take, Nat.min_eq_left hle]
    · cases hread

/-- To copy a field is to read it and to write it. -/
theorem skipField_eq {skip : CodedInputStream → Option (UnknownFieldSet × CodedInputStream)}
    {skip' : CodedInputStream → CodedOutputStream → Option (CodedOutputStream × CodedInputStream)}
    (hskip : ∀ s output, skip' s output = (skip s).map fun p =>
      (finish p.2 (WireFormat.serializeUnknownFields output p.1), p.2))
    (s : CodedInputStream) (tag : CUInt) (output : CodedOutputStream) :
    skipField skip' s tag output = (WireFormat.readField skip s tag).map fun p =>
      (WireFormat.writeUnknownField output p.1, p.2) := by
  rw [skipField, WireFormat.readField]
  simp only
  split
  · rfl
  · cases htype : getTagWireType tag with
    | none => rfl
    | some type =>
      have htag := makeTag_getTagFieldNumber htype
      cases type with
      | varint | fixed64 | fixed32 =>
        simp [Option.map_eq_bind, Option.bind_assoc, WireFormat.writeUnknownField, htag]
      | lengthDelimited =>
        simp only [Option.bind_eq_bind, Option.map_bind]
        congr 1
        funext p
        simp only [Function.comp_apply, Option.map_eq_bind, Option.bind_assoc]
        refine Option.bind_congr fun q hq => ?_
        have hlength : BitVec.ofNat 32 q.1.length = p.1 := by
          rw [length_of_readString hq, BitVec.ofNat_toNat, BitVec.setWidth_eq]
        simp only [Option.bind_some, WireFormat.writeUnknownField, htag, hlength]
      | startGroup =>
        simp only [Option.bind_eq_bind, Option.map_bind, hskip, Option.bind_map]
        congr 1
        funext input
        simp only [Function.comp_apply, Option.map_bind]
        congr 1
        funext p
        split
        · next hlast =>
          have hend : p.2.lastTag = makeTag (getTagFieldNumber tag) .endGroup :=
            (lastTag_decrementRecursionDepth p.2).symm.trans (beq_iff_eq.mp hlast)
          have hfinish : ∀ output, finish p.2 output =
              output.writeVarint32 (makeTag (getTagFieldNumber tag) .endGroup) := by
            intro output
            have hgroup := getTagWireType_makeTag (getTagFieldNumber_lt tag) .endGroup
            rw [finish, show lastTag p.2 = _ from hend, if_pos hgroup]
          rw [Option.map_some, WireFormat.writeUnknownField, htag, hfinish]
        · rfl
      | endGroup => rfl

theorem foldlM_writeUnknownField (output : CodedOutputStream) (fields : UnknownFieldSet) :
    fields.foldlM (fun output field => some (WireFormat.writeUnknownField output field)) output =
      some (WireFormat.serializeUnknownFields output fields) := by
  induction fields generalizing output with
  | nil =>
    rw [WireFormat.serializeUnknownFields]
    rfl
  | cons field fields ih =>
    rw [WireFormat.serializeUnknownFields]
    exact ih (WireFormat.writeUnknownField output field)

/-- **Copying fields is keeping them and writing them**, one after the other. -/
theorem skipMessage_eq (depth : Nat) (s : CodedInputStream) (output : CodedOutputStream) :
    skipMessage depth s output = (WireFormat.skipMessage depth s []).map fun p =>
      (finish p.2 (WireFormat.serializeUnknownFields output p.1), p.2) := by
  induction depth generalizing s output with
  | zero => rfl
  | succ depth ih =>
    have hturn : skipField (skipMessage depth) =
        TokenLoop.applying (WireFormat.readField fun s : CodedInputStream =>
          WireFormat.skipMessage depth s [])
          fun output field => some (WireFormat.writeUnknownField output field) := by
      funext s tag output
      rw [skipField_eq ih, TokenLoop.applying, Option.map_eq_bind]
      rfl
    rw [skipMessage, WireFormat.skipMessage, hturn, WireFormat.skipField_eq_collect,
      TokenLoop.loop, TokenLoop.loop, TokenLoop.run_bind_foldlM, Option.map_bind,
      Option.map_eq_bind]
    congr 1
    funext p
    simp only [Function.comp_apply, foldlM_writeUnknownField, Option.map_some]

end CodedOutputStreamFieldSkipper

end SurvivalGame
