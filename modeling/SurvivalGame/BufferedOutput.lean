import SurvivalGame.OutputBuffers

/-! # Whichever way it is written

What a function of `CodedOutputStream` does to the stream is to put bytes into it
(`CodedOutputStream.Writes`), the same bytes whether the buffer was large enough to write
them directly or not; and it keeps count of them.  One lemma for each function says which
bytes: those that its `ToArray` twin writes.
-/
namespace SurvivalGame

namespace CodedOutputStream

/-- What the stream holds and has room for. -/
def sink (output : CodedOutputStream) : Sink CChar where
  written := output.written
  room := output.bufferSize + output.next.sum
  failed := output.hadError

/-- `total_bytes_` counts the buffers that were taken. -/
def Counted (output : CodedOutputStream) : Prop :=
  output.totalBytes = BitVec.ofNat 32 (output.written.length + output.bufferSize)

theorem ofNat_add_sub (m n : Nat) :
    BitVec.ofNat 32 (m + n) - BitVec.ofNat 32 n = BitVec.ofNat 32 m := by
  rw [BitVec.ofNat_add, BitVec.add_sub_cancel]

/-- A difference of counts, when an `int` can hold it. -/
theorem toInt_ofNat_add_sub (m : Nat) {n : Nat} (h : n ≤ intMax) :
    (BitVec.ofNat 32 (m + n) - BitVec.ofNat 32 m).toInt = n := by
  rw [Nat.add_comm, ofNat_add_sub]
  exact toInt_ofNat_of_lt (Nat.lt_of_le_pred (by decide) h)

theorem Counted.byteCount_eq {output : CodedOutputStream} (h : output.Counted) :
    output.byteCount = BitVec.ofNat 32 output.written.length := by
  rw [byteCount, h, ofNat_add_sub]

/-- The bytes were put into the stream, and counted. -/
structure Writes (output output' : CodedOutputStream) (data : List CChar) : Prop where
  sink_eq : output'.sink = output.sink.put data
  counted : output.Counted → output'.Counted

theorem Writes.refl (output : CodedOutputStream) : Writes output output [] where
  sink_eq := output.sink.put_nil.symm
  counted h := h

theorem Writes.trans {a b c : CodedOutputStream} {data data' : List CChar}
    (h : Writes a b data) (h' : Writes b c data') : Writes a c (data ++ data') where
  sink_eq := by rw [h'.sink_eq, h.sink_eq, Sink.put_put]
  counted hc := h'.counted (h.counted hc)

theorem writes_putRaw {output : CodedOutputStream} {data : List CChar}
    (h : data.length ≤ output.bufferSize) : Writes output (output.putRaw data) data where
  sink_eq := by
    rw [Sink.put_of_le (Nat.le_trans h (Nat.le_add_right _ _))]
    refine Sink.ext rfl ?_ rfl
    change output.bufferSize - data.length + output.next.sum =
      output.bufferSize + output.next.sum - data.length
    omega
  counted hc := by
    have hsum : (output.written ++ data).length + (output.bufferSize - data.length) =
        output.written.length + output.bufferSize := by
      rw [List.length_append]
      omega
    change output.totalBytes = BitVec.ofNat 32
      ((output.written ++ data).length + (output.bufferSize - data.length))
    rw [hc, hsum]

/-- What a turn of the loop does when another buffer comes. -/
theorem writes_refresh {output output' : CodedOutputStream} {data : List CChar}
    (hlt : output.bufferSize < data.length)
    (h : refresh (output.putRaw (data.take output.bufferSize)) = (true, output')) :
    Writes output output' (data.take output.bufferSize) := by
  have hlength : (data.take output.bufferSize).length = output.bufferSize := by
    rw [List.length_take]
    omega
  have hput := writes_putRaw (Nat.le_of_eq hlength)
  rw [refresh] at h
  cases hnext : output.next with
  | nil =>
    rw [show (output.putRaw _).next = [] from hnext] at h
    cases h
  | cons size next =>
    rw [show (output.putRaw _).next = size :: next from hnext] at h
    cases h
    constructor
    · rw [← hput.sink_eq]
      refine Sink.ext rfl ?_ rfl
      change size + next.sum = output.bufferSize - _ + output.next.sum
      rw [hlength, Nat.sub_self, Nat.zero_add, hnext, List.sum_cons]
    · intro hc
      have hfull := hput.counted hc
      simp only [Counted, putRaw, hlength, Nat.sub_self, Nat.add_zero] at hfull ⊢
      rw [hfull, BitVec.ofNat_add]

/-- What a turn of the loop does when none comes. -/
theorem writes_refresh_nil {output output' : CodedOutputStream} {data : List CChar}
    (hlt : output.bufferSize < data.length)
    (h : refresh (output.putRaw (data.take output.bufferSize)) = (false, output')) :
    Writes output output' data := by
  have hlength : (data.take output.bufferSize).length = output.bufferSize := by
    rw [List.length_take]
    omega
  rw [refresh] at h
  cases hnext : output.next with
  | cons size next =>
    rw [show (output.putRaw _).next = size :: next from hnext] at h
    cases h
  | nil =>
    rw [show (output.putRaw _).next = [] from hnext] at h
    cases h
    constructor
    · apply Sink.ext <;> simp [sink, putRaw, hnext]
      · omega
      · exact .inr hlt
    · intro hc
      simp only [Counted, putRaw, List.length_append, hlength, Nat.add_zero] at hc ⊢
      exact hc

theorem writes_writeRawLoop {turns : Nat} {output : CodedOutputStream} {data : List CChar}
    (h : output.next.length < turns) : Writes output (writeRawLoop turns output data) data := by
  induction turns generalizing output data with
  | zero => exact absurd h (Nat.not_lt_zero _)
  | succ turns ih =>
    rw [writeRawLoop]
    split
    · next hlt =>
      split
      · next output' hrefresh =>
        have hturn := writes_refresh hlt hrefresh
        have hnext : output'.next.length < turns := by
          rw [refresh] at hrefresh
          split at hrefresh
          · next size next hnext =>
            cases hrefresh
            rw [show output.next = size :: next from hnext, List.length_cons] at h
            exact Nat.lt_of_succ_lt_succ h
          · cases hrefresh
        have hrest : Writes output' (writeRawLoop turns output' (data.drop output.bufferSize))
            (data.drop output.bufferSize) := ih hnext
        have hall := hturn.trans hrest
        rwa [List.take_append_drop] at hall
      · next output' hrefresh => exact writes_refresh_nil hlt hrefresh
    · next hle => exact writes_putRaw (Nat.not_lt.mp hle)

theorem writes_writeRaw (output : CodedOutputStream) (data : List CChar) :
    Writes output (output.writeRaw data) data :=
  writes_writeRawLoop (Nat.lt_succ_self _)

/-- **The direct way and the way through `WriteRaw`** write the same. -/
theorem writes_ite {output : CodedOutputStream} {data : List CChar} {n : Nat}
    (h : data.length ≤ n) : Writes output
      (if n ≤ output.bufferSize then output.putRaw data else output.writeRaw data) data := by
  split
  · next hle => exact writes_putRaw (Nat.le_trans h hle)
  · exact writes_writeRaw output data

theorem writes_writeVarint32 (output : CodedOutputStream) (value : CUInt) :
    Writes output (output.writeVarint32 value) (writeVarint32ToArray value) := by
  refine writes_ite ?_
  rw [writeVarint32ToArray_eq]
  exact Base128.length_encode_le 5 _

theorem writes_writeVarint64 (output : CodedOutputStream) (value : BitVec 64) :
    Writes output (output.writeVarint64 value) (writeVarint64ToArray value) := by
  refine writes_ite ?_
  rw [writeVarint64ToArray_eq]
  exact Base128.length_encode_le 10 _

theorem writes_writeLittleEndian32 (output : CodedOutputStream) (value : BitVec 32) :
    Writes output (output.writeLittleEndian32 value) (writeLittleEndian32ToArray value) :=
  writes_ite (Nat.le_refl 4)

theorem writes_writeLittleEndian64 (output : CodedOutputStream) (value : BitVec 64) :
    Writes output (output.writeLittleEndian64 value) (writeLittleEndian64ToArray value) :=
  writes_ite (Nat.le_refl 8)

theorem writes_writeString (output : CodedOutputStream) (value : List CChar) :
    Writes output ((output.writeVarint32 (BitVec.ofNat 32 value.length)).writeRaw value)
      (writeStringWithSizeToArray value) :=
  (writes_writeVarint32 output _).trans (writes_writeRaw _ value)

end CodedOutputStream

open CodedOutputStream

/-! ## Fields and messages -/

namespace WireFormat

mutual

theorem writes_writeUnknownField (output : CodedOutputStream) (field : UnknownField) :
    Writes output (writeUnknownField output field) (serializeUnknownField field) := by
  cases field with
  | varint number value =>
    rw [writeUnknownField, serializeUnknownField]
    exact (writes_writeVarint32 output _).trans (writes_writeVarint64 _ value)
  | fixed32 number value =>
    rw [writeUnknownField, serializeUnknownField]
    exact (writes_writeVarint32 output _).trans (writes_writeLittleEndian32 _ value)
  | fixed64 number value =>
    rw [writeUnknownField, serializeUnknownField]
    exact (writes_writeVarint32 output _).trans (writes_writeLittleEndian64 _ value)
  | lengthDelimited number value =>
    rw [writeUnknownField, serializeUnknownField]
    exact (writes_writeVarint32 output _).trans (writes_writeString _ value)
  | group number fields =>
    rw [writeUnknownField, serializeUnknownField]
    exact ((writes_writeVarint32 output _).trans (writes_serializeUnknownFields _ fields)).trans
      (writes_writeVarint32 _ _)

theorem writes_serializeUnknownFields (output : CodedOutputStream) (fields : UnknownFieldSet) :
    Writes output (serializeUnknownFields output fields)
      (serializeUnknownFieldsToArray fields) := by
  cases fields with
  | nil =>
    rw [serializeUnknownFields, serialize_nil]
    exact .refl output
  | cons field fields =>
    rw [serializeUnknownFields, serialize_cons]
    exact (writes_writeUnknownField output field).trans (writes_serializeUnknownFields _ fields)

end

end WireFormat

theorem FieldType.writes_writeNoTag (type : FieldType) (output : CodedOutputStream)
    (value : type.Value) :
    Writes output (type.writeNoTag output value) (type.writeNoTagToArray value) := by
  cases type with
  | int32 | enum | int64 => exact writes_writeVarint64 output _
  | bool => exact writes_writeVarint32 output _
  | string | bytes => exact writes_writeString output value

theorem Field.writes_write (field : Field) (output : CodedOutputStream)
    (value : field.type.Value) :
    Writes output (field.write output value) (field.writeToArray value) := by
  rw [write, writeToArray]
  split
  · exact (writes_writeVarint32 output field.tag).trans (field.type.writes_writeNoTag _ value)
  · exact .refl output

namespace Message

variable {d : Descriptor}

theorem writes_serializeWithCachedSizes (message : Message d) (output : CodedOutputStream) :
    Writes output (message.serializeWithCachedSizes output)
      message.serializeWithCachedSizesToArray := by
  have hfields (members : List d.Member) (output : CodedOutputStream) : Writes output
      (members.foldl (fun output field => field.val.write output (message.get field)) output)
      (members.flatMap fun field => field.val.writeToArray (message.get field)) := by
    induction members generalizing output with
    | nil => exact .refl output
    | cons member members ih => exact (member.val.writes_write output _).trans (ih _)
  exact (hfields d.fields.attach output).trans (WireFormat.writes_serializeUnknownFields _ _)

/-- **A stream receives a message** whole or as far as it has room, in whichever way it is
written, and no size is ever found inconsistent. -/
theorem serializeToCodedStream_eq (message : Message d) {output : CodedOutputStream}
    (hcounted : output.Counted) (herror : output.hadError = false) :
    ∃ output', message.serializeToCodedStream output = some
        (decide (message.byteSizeLong ≤ intMax ∧ message.byteSizeLong ≤ output.sink.room),
          output') ∧
      output'.Counted ∧
      output'.sink = if intMax < message.byteSizeLong then output.sink
        else output.sink.put message.serializeWithCachedSizesToArray := by
  have hlength := message.length_serializeWithCachedSizesToArray
  rw [serializeToCodedStream]
  by_cases hmax : intMax < message.byteSizeLong
  · refine ⟨output, ?_, hcounted, (if_pos hmax).symm⟩
    rw [if_pos hmax, decide_eq_false fun h => Nat.not_lt.mpr h.1 hmax]
  · rw [if_neg hmax, if_neg hmax]
    have hle := Nat.not_lt.mp hmax
    by_cases hdirect : output.hasDirectBuffer message.byteSizeLong = true
    · rw [if_pos hdirect, if_pos hlength]
      have hbuffer : message.byteSizeLong ≤ output.bufferSize := by
        rw [hasDirectBuffer, Bool.and_eq_true, decide_eq_true_eq] at hdirect
        exact hdirect.1
      have hwrites := writes_putRaw (Nat.le_trans (Nat.le_of_eq hlength) hbuffer)
      refine ⟨_, ?_, hwrites.counted hcounted, hwrites.sink_eq⟩
      rw [decide_eq_true ⟨hle, Nat.le_trans hbuffer (Nat.le_add_right _ _)⟩]
    · rw [if_neg hdirect]
      dsimp only
      have hwrites := message.writes_serializeWithCachedSizes output
      have hcounted' := hwrites.counted hcounted
      have hfailed : (message.serializeWithCachedSizes output).hadError = false ↔
          message.byteSizeLong ≤ output.sink.room := by
        rw [← hlength, ← Sink.failed_put_eq_false herror, ← hwrites.sink_eq]
        rfl
      refine ⟨_, ?_, hcounted', hwrites.sink_eq⟩
      by_cases hroom : message.byteSizeLong ≤ output.sink.room
      · have hwritten : (message.serializeWithCachedSizes output).written =
            output.written ++ message.serializeWithCachedSizesToArray := by
          rw [← hlength] at hroom
          exact congrArg Sink.written (hwrites.sink_eq.trans (Sink.put_of_le hroom))
        rw [hfailed.mpr hroom, if_neg Bool.false_ne_true, hcounted'.byteCount_eq,
          hcounted.byteCount_eq, hwritten, List.length_append, hlength,
          toInt_ofNat_add_sub _ hle, if_pos rfl, decide_eq_true ⟨hle, hroom⟩]
      · rw [if_pos (by rwa [← Bool.not_eq_false, hfailed]),
          decide_eq_false fun h => hroom h.2]

end Message

namespace CodedOutputStream

theorem counted_ofZeroCopyStream (sizes : List Nat) : (ofZeroCopyStream sizes).Counted := by
  cases sizes with
  | nil => rfl
  | cons size sizes =>
    change 0#32 + BitVec.ofNat 32 size = BitVec.ofNat 32 (0 + size)
    rw [BitVec.zero_add, Nat.zero_add]

theorem sink_ofZeroCopyStream (sizes : List Nat) :
    (ofZeroCopyStream sizes).sink = ⟨[], sizes.sum, false⟩ := by
  cases sizes <;> rfl

@[simp] theorem written_trim (output : CodedOutputStream) :
    output.trim.written = output.written := by
  rw [trim]
  split <;> rfl

theorem Counted.totalBytes_trim {output : CodedOutputStream} (h : output.Counted) :
    output.trim.totalBytes = BitVec.ofNat 32 output.written.length := by
  rw [trim]
  split
  · exact h.byteCount_eq
  · next hempty => rw [h, Nat.eq_zero_of_not_pos hempty, Nat.add_zero]

end CodedOutputStream

namespace Message

variable {d : Descriptor}

theorem exists_serializeToZeroCopyStream (message : Message d) (sizes : List Nat) :
    ∃ output, message.serializeToZeroCopyStream sizes = some
        (decide (message.byteSizeLong ≤ intMax ∧ message.byteSizeLong ≤ sizes.sum), output) ∧
      output.written = (if intMax < message.byteSizeLong then []
        else message.serializeWithCachedSizesToArray.take sizes.sum) ∧
      output.totalBytes = BitVec.ofNat 32 output.written.length := by
  obtain ⟨output, heq, hcounted, hsink⟩ := message.serializeToCodedStream_eq
    (counted_ofZeroCopyStream sizes) (congrArg Sink.failed (sink_ofZeroCopyStream sizes))
  rw [sink_ofZeroCopyStream] at heq hsink
  refine ⟨output.trim, ?_, ?_, ?_⟩
  · rw [serializeToZeroCopyStream, heq]
    rfl
  · have hwritten := congrArg Sink.written hsink
    rw [written_trim]
    refine hwritten.trans ?_
    split <;> rfl
  · rw [written_trim]
    exact hcounted.totalBytes_trim

/-- **Buffers do not matter**: whatever their sizes, a message is written if they have room
for it together, and else as far as they have; what is left of the last is given back, so
that the stream counts what it holds, even if `total_bytes_` has wrapped around in between.
No size is ever found inconsistent. -/
theorem serializeToZeroCopyStream_eq (message : Message d) (sizes : List Nat) :
    (message.serializeToZeroCopyStream sizes).map
        (fun p => (p.1, p.2.written, p.2.totalBytes.toInt)) =
      if intMax < message.byteSizeLong then some (false, [], 0)
      else some (decide (message.byteSizeLong ≤ sizes.sum),
        message.serializeWithCachedSizesToArray.take sizes.sum,
        ((min sizes.sum message.byteSizeLong : Nat) : Int)) := by
  obtain ⟨output, heq, hwritten, htotal⟩ := message.exists_serializeToZeroCopyStream sizes
  rw [heq, Option.map_some, htotal, hwritten]
  split
  · next hmax =>
    rw [decide_eq_false fun h => Nat.not_lt.mpr h.1 hmax]
    rfl
  · next hmax =>
    have hle := Nat.not_lt.mp hmax
    have hlt : min sizes.sum message.byteSizeLong < 2 ^ 31 :=
      Nat.lt_of_le_pred (by decide) (Nat.le_trans (Nat.min_le_right _ _) hle)
    rw [List.length_take, length_serializeWithCachedSizesToArray, toInt_ofNat_of_lt hlt]
    simp [hle]

/-- **From buffers into chunks**: a message that a program makes, once it has been written
to a stream, is read from any other stream that returns the same bytes. -/
theorem Built.parse_written {message : Message d} (h : Built message) {sizes : List Nat}
    {output : CodedOutputStream}
    (hwrite : message.serializeToZeroCopyStream sizes = some (true, output))
    {chunks : List (List CChar)} (hchunks : chunks.flatten = output.written) :
    parseFromZeroCopyStream d chunks = some message := by
  obtain ⟨output', heq, hwritten, -⟩ := message.exists_serializeToZeroCopyStream sizes
  obtain ⟨hok, rfl⟩ := Prod.mk.inj (Option.some.inj (hwrite.symm.trans heq))
  obtain ⟨hmax, hroom⟩ := of_decide_eq_true hok.symm
  have hlength := message.length_serializeWithCachedSizesToArray
  rw [if_neg (Nat.not_lt.mpr hmax), List.take_of_length_le (hlength.trans_le hroom)] at hwritten
  rw [parseFromZeroCopyStream_eq, hchunks, hwritten,
    List.take_of_length_le (hlength.trans_le hmax)]
  exact parseFromCodedStream_serialize h.fits hmax

/-- A message whose number lies across the buffers and across the chunks. -/
theorem Built.parse_written_across :
    parseFromZeroCopyStream GameMessage.HeartRequest [[8], [], [233, 7]] =
      some ((clear GameMessage.HeartRequest).set ⟨.ofNat 1 .int32, by decide⟩ (1001 : BitVec 32)) :=
  Built.parse_written (.set .new _ rfl)
    (show serializeToZeroCopyStream _ [2, 0, 4] =
      some (true, ⟨[8, 233, 7], false, 0, 3, false, []⟩) from rfl) rfl

end Message

end SurvivalGame
