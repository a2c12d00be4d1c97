import SurvivalGame.MessageRoundTrip

/-! # Messages in a stream

A message does not say where it ends.  `ParseFromBoundedZeroCopyStream` is told: it
pushes a limit, and gives back what it has got of the bytes behind it.  So it parses the
bytes up to the limit as an array of them, and the stream goes on right behind them
(`parseFromBoundedZeroCopyStream_eq`).  Messages that are written one behind the other
are then read one by one, by somebody who knows their sizes
(`Built.parse_messages`).
-/
namespace SurvivalGame

namespace CodedInputStream

variable {s : CodedInputStream}

/-! ## What is ahead -/

/-- With input left before the limit, all of the last buffer is before it. -/
theorem afterLimit_of_lt (h : s.totalBytesRead < s.currentLimit) :
    s.afterLimit = [] ∧ s.overflow = [] := by
  have hlimit := s.limit_le
  have hlength := s.length_afterLimit
  constructor
  · exact List.length_eq_zero_iff.mp (by omega)
  · by_contra hne
    have := s.total_of_overflow hne
    omega

theorem unread_bytes_append_behind (s : CodedInputStream) :
    s.unread.bytes ++ s.unread.behind = s.ahead := by
  rcases Nat.lt_or_ge s.totalBytesRead s.currentLimit with hlt | hle
  · obtain ⟨hafter, hoverflow⟩ := afterLimit_of_lt hlt
    simp [unread, ahead, hafter, hoverflow]
  · simp [unread, ahead, Nat.sub_eq_zero_of_le hle]

/-- The stream is at a position of its input. -/
def Located (s : CodedInputStream) (position : Nat) : Prop :=
  s.totalBytesRead = position + (s.buffer.length + s.afterLimit.length)

/-- **What is unread** is what is ahead up to the limit. -/
theorem Located.bytes_eq {position : Nat} (h : s.Located position) :
    s.unread.bytes = s.ahead.take (s.currentLimit - position) := by
  have hlength := s.length_afterLimit
  rw [Located] at h
  rcases Nat.lt_or_ge s.totalBytesRead s.currentLimit with hlt | hle
  · obtain ⟨hafter, hoverflow⟩ := afterLimit_of_lt hlt
    have hroom : s.currentLimit - position =
        s.buffer.length + (s.currentLimit - s.totalBytesRead) := by
      rw [hafter, List.length_nil] at h
      omega
    rw [ahead, hafter, hoverflow, hroom, List.nil_append, List.nil_append,
      List.take_length_add_append]
    rfl
  · have hroom : s.currentLimit - position = s.buffer.length := by omega
    rw [ahead, hroom, List.take_left, unread, Nat.sub_eq_zero_of_le hle, List.take_zero,
      List.append_nil]

theorem Located.behind_eq {position : Nat} (h : s.Located position) :
    s.unread.behind = s.ahead.drop (s.currentLimit - position) := by
  have happend := s.unread_bytes_append_behind
  rw [h.bytes_eq] at happend
  nth_rewrite 2 [← List.take_append_drop (s.currentLimit - position) s.ahead] at happend
  exact List.append_cancel_left happend

theorem Located.missing_eq {position : Nat} (h : s.Located position) : s.missing =
    if s.currentLimit = intMax then none
    else some (s.currentLimit - (position + s.ahead.length)) := by
  have hahead : s.totalBytesRead + s.overflow.length + s.input.flatten.length =
      position + s.ahead.length := by
    rw [h, ahead]
    simp only [List.length_append]
    omega
  rw [missing, hahead]

/-- A refill does not move the stream. -/
theorem located_of_refresh {s' : CodedInputStream} (h : s.refresh = some s') :
    s'.Located s.totalBytesRead := by
  rw [refresh] at h
  split at h
  · cases h
  · split at h
    · cases h
    · cases h
      rw [Located, ← List.length_append, append_recomputeBufferLimits]

theorem located_ofStream (input : List (List CChar)) : (ofStream input).Located 0 := by
  rw [ofStream]
  generalize hs : CodedInputStream.mk .. = s
  have hzero : s.totalBytesRead = 0 := by rw [← hs]
  cases hrefresh : s.refresh with
  | none => rw [← hs]; rfl
  | some s' => exact hzero ▸ located_of_refresh hrefresh

theorem ahead_ofStream (input : List (List CChar)) : (ofStream input).ahead = input.flatten := by
  rw [← unread_bytes_append_behind, unread_ofStream]
  exact List.take_append_drop _ _

/-! ## Limits -/

theorem currentLimit_of_missing (h : s.unread.missing = none) : s.currentLimit = intMax := by
  change s.missing = none at h
  rw [missing] at h
  split at h
  · assumption
  · cases h

/-- **To push a limit** is to put an end to what is unread. -/
theorem Located.unread_pushLimit {position : Nat} (h : s.Located position) (byteLimit : Nat)
    (hlt : position + byteLimit < s.currentLimit) :
    (s.pushLimit byteLimit).unread = { s.unread with
      bytes := s.ahead.take byteLimit
      behind := s.ahead.drop byteLimit
      missing := some (byteLimit - s.ahead.length) } := by
  have hposition : s.currentPosition = position := by
    rw [currentPosition, h]
    omega
  have hlimit := s.limit_le
  have hnew : (s.currentPosition + byteLimit).toNat = position + byteLimit := by
    rw [hposition]
    rfl
  have hcond : 0 ≤ (byteLimit : Int) ∧ (byteLimit : Int) ≤ intMax - s.currentPosition ∧
      (byteLimit : Int) < s.currentLimit - s.currentPosition := by
    rw [hposition]
    omega
  have hpush : (s.pushLimit byteLimit).Located position ∧
      (s.pushLimit byteLimit).ahead = s.ahead ∧
      (s.pushLimit byteLimit).currentLimit = position + byteLimit := by
    rw [pushLimit, dif_pos hcond]
    refine ⟨?_, ?_, hnew⟩
    · rw [Located, ← List.length_append, append_recomputeBufferLimits, List.length_append]
      exact h
    · rw [ahead, ← List.append_assoc, append_recomputeBufferLimits, List.append_assoc]
      rfl
  obtain ⟨hlocated, hahead, hcurrent⟩ := hpush
  have hbytes := hlocated.bytes_eq
  have hbehind := hlocated.behind_eq
  have hmissing := hlocated.missing_eq
  rw [hahead, hcurrent, Nat.add_sub_cancel_left] at hbytes hbehind
  rw [hahead, hcurrent, if_neg (by omega), Nat.add_sub_add_left] at hmissing
  refine Unread.ext hbytes ?_ ?_ ?_ hbehind hmissing
  all_goals
    rw [pushLimit, dif_pos hcond]
    rfl

/-- A limit that a stream does not have is not the one to stop at. -/
theorem bytesUntilLimit_eq_zero_iff (h : s.unread.bytes = []) :
    s.bytesUntilLimit = 0 ↔ s.unread.missing = some 0 := by
  obtain ⟨hbuffer, hinput⟩ := List.append_eq_nil_iff.mp h
  have hlength := s.length_afterLimit
  change _ ↔ s.missing = some 0
  rw [bytesUntilLimit, missing, currentPosition, hbuffer, List.length_nil]
  split
  · simp
  · rw [Option.some_inj]
    rcases Nat.lt_or_ge s.totalBytesRead s.currentLimit with hlt | hle
    · obtain ⟨-, hoverflow⟩ := afterLimit_of_lt hlt
      have hnil : s.input.flatten = [] :=
        (List.take_eq_nil_iff.mp hinput).resolve_left (by omega)
      rw [hoverflow, hnil, List.length_nil]
      omega
    · omega

/-- The stream goes on where it was given back. -/
theorem flatten_backUpInputToCurrentPosition (s : CodedInputStream) :
    s.backUpInputToCurrentPosition.flatten = s.ahead := by
  have hahead : s.ahead = s.buffer ++ s.afterLimit ++ s.overflow ++ s.input.flatten := by
    rw [ahead, List.append_assoc, List.append_assoc]
  rw [backUpInputToCurrentPosition, hahead]
  split
  · exact List.flatten_cons
  · next hnil => rw [List.length_eq_zero_iff.mp (Nat.eq_zero_of_not_pos hnil), List.nil_append]

end CodedInputStream

namespace Message

open InputStream

variable {d : Descriptor}

/-! ## One message -/

/-- A message up to a limit is read as its bytes are, and where it may end all of them have
been read. -/
theorem mergePartialFromCodedStream_upToLimit {s : CodedInputStream} {bytes behind : List CChar}
    {missing : Option Nat} (hs : s.unread = (Unread.ofBytes bytes).withLimit behind missing) :
    Option.Rel (fun p q => p.1 = q.1 ∧ consumedEntireMessage p.2 = consumedEntireMessage q.2 ∧
        (consumedEntireMessage q.2 = true → p.2.unread = q.2.withLimit behind missing ∧
          p.2.unread.bytes = []))
      ((clear d).mergePartialFromCodedStream s)
      ((clear d).mergePartialFromCodedStream (Unread.ofBytes bytes)) := by
  have hstream := mergePartialFromCodedStream_map CodedInputStream.hom_unread s (clear d)
  have hlimit := mergePartialFromCodedStream_map (Unread.hom_withLimit behind missing)
    (Unread.ofBytes bytes) (clear d)
  have hunderway : Underway ((Unread.ofBytes bytes).withLimit behind missing) :=
    underway_ofBytes bytes
  rw [hs] at hstream
  generalize (clear d).mergePartialFromCodedStream s = a,
    (clear d).mergePartialFromCodedStream (Unread.ofBytes bytes) = b at hstream hlimit ⊢
  generalize hr : (clear d).mergePartialFromCodedStream
    ((Unread.ofBytes bytes).withLimit behind missing) = c at hstream hlimit
  cases hstream with
  | none =>
    cases hlimit
    exact .none
  | @some p r hpr =>
    cases hlimit with
    | @some q _ hqr =>
      have hp := CodedInputStream.hom_unread.consumedEntireMessage_of_behind hpr.2
      have hq := (Unread.hom_withLimit behind missing).consumedEntireMessage_of_behind hqr.2
      refine .some ⟨hpr.1.trans hqr.1.symm, hp.symm.trans hq, fun hend => ?_⟩
      have hnil : r.2.bytes = [] :=
        bytes_eq_nil_of_mergePartialFromCodedStream hunderway hr (hq.trans hend)
      have hunread := hpr.2.eq_of_bytes_eq_nil hnil
      exact ⟨hunread.symm.trans (hqr.2.eq_of_bytes_eq_nil hnil), hunread ▸ hnil⟩

/-- What is made of a message up to a limit: it is read to its end, and then the limit
must have been reached. -/
theorem parseUpToLimit {s : CodedInputStream} {bytes behind : List CChar} {missing : Option Nat}
    (hs : s.unread = (Unread.ofBytes bytes).withLimit behind missing) :
    (((clear d).mergePartialFromCodedStream s).bind fun p =>
        if consumedEntireMessage p.2 ∧ p.2.bytesUntilLimit = 0 then
          some (p.1, p.2.backUpInputToCurrentPosition.flatten)
        else none) =
      if missing = some 0 then
        (parseFromCodedStream d (Unread.ofBytes bytes)).map fun message => (message, behind)
      else none := by
  have hmerge := mergePartialFromCodedStream_upToLimit (d := d) hs
  rw [parseFromCodedStream]
  generalize (clear d).mergePartialFromCodedStream s = a,
    (clear d).mergePartialFromCodedStream (Unread.ofBytes bytes) = b at hmerge ⊢
  cases hmerge with
  | none => simp
  | @some p q hpq =>
    obtain ⟨hmessage, hconsumed, hended⟩ := hpq
    simp only [Option.bind_eq_bind, Option.bind_some, hconsumed]
    by_cases hend : consumedEntireMessage q.2 = true
    · obtain ⟨hunread, hbytes⟩ := hended hend
      have hmissing : p.2.unread.missing = missing := by rw [hunread]; rfl
      have hbehind : p.2.ahead = behind := by
        rw [← p.2.unread_bytes_append_behind, hbytes, hunread]
        rfl
      have hstop := CodedInputStream.bytesUntilLimit_eq_zero_iff hbytes
      rw [hmissing] at hstop
      rw [CodedInputStream.flatten_backUpInputToCurrentPosition, hbehind, if_pos hend]
      simp only [hend, true_and, hstop, Option.map_some, hmessage]
    · simp [hend]

/-- A bound that is no limit is never reached; up to any other the stream is cut. -/
theorem parseFromBoundedZeroCopyStream_cut (chunks : List (List CChar)) (size : Int) :
    (parseFromBoundedZeroCopyStream d chunks size).map (Prod.map id List.flatten) =
      if 0 ≤ size ∧ size < intMax ∧ size ≤ chunks.flatten.length then
        (parseFromCodedStream d (Unread.ofBytes (chunks.flatten.take size.toNat))).map
          fun message => (message, chunks.flatten.drop size.toNat)
      else none := by
  have hparse : (parseFromBoundedZeroCopyStream d chunks size).map (Prod.map id List.flatten) =
      ((clear d).mergePartialFromCodedStream
        ((CodedInputStream.ofStream chunks).pushLimit size)).bind fun p =>
          if consumedEntireMessage p.2 ∧ p.2.bytesUntilLimit = 0 then
            some (p.1, p.2.backUpInputToCurrentPosition.flatten)
          else none := by
    rw [parseFromBoundedZeroCopyStream]
    simp only [Option.bind_eq_bind, Option.map_bind]
    congr 1
    funext p
    simp only [Function.comp_apply]
    split <;> rfl
  have hlocated := CodedInputStream.located_ofStream chunks
  have hunread := CodedInputStream.unread_ofStream chunks
  have hlimit : (CodedInputStream.ofStream chunks).currentLimit = intMax :=
    CodedInputStream.currentLimit_of_missing (by rw [hunread]; rfl)
  rw [hparse]
  by_cases hsize : 0 ≤ size ∧ size < intMax
  · obtain ⟨n, rfl⟩ := Int.eq_ofNat_of_zero_le hsize.1
    have hpush := hlocated.unread_pushLimit n (by omega)
    rw [CodedInputStream.ahead_ofStream, hunread] at hpush
    rw [parseUpToLimit (hpush.trans rfl : _ = (Unread.ofBytes _).withLimit _ _)]
    by_cases hle : n ≤ chunks.flatten.length
    · rw [if_pos (by rw [Nat.sub_eq_zero_of_le hle]), if_pos ⟨hsize.1, hsize.2, by omega⟩]
      rfl
    · have hmissing : some (n - chunks.flatten.length) ≠ some 0 := by
        rw [Ne, Option.some_inj]
        omega
      rw [if_neg hmissing, if_neg (by omega)]
  · have hpush : (CodedInputStream.ofStream chunks).pushLimit size =
        CodedInputStream.ofStream chunks := by
      have hposition : (CodedInputStream.ofStream chunks).currentPosition = 0 := by
        rw [CodedInputStream.currentPosition, hlocated]
        omega
      rw [CodedInputStream.pushLimit, dif_neg]
      rintro ⟨hpos, -, hlt⟩
      rw [hlimit, hposition, Int.sub_zero] at hlt
      exact hsize ⟨hpos, hlt⟩
    rw [hpush, parseUpToLimit hunread, if_neg nofun, if_neg fun h => hsize ⟨h.1, h.2.1⟩]

/-- **A bounded message** is parsed as an array of its bytes, and the stream goes on behind
them.  With `INT_MAX` for a bound there is no limit, and no message. -/
theorem parseFromBoundedZeroCopyStream_eq (chunks : List (List CChar)) (size : Int) :
    (parseFromBoundedZeroCopyStream d chunks size).map (Prod.map id List.flatten) =
      if h : 0 ≤ size ∧ size < intMax ∧ size ≤ chunks.flatten.length then
        (parseFromArray d ⟨chunks.flatten.take size.toNat, by rw [List.length_take]; omega⟩).map
          fun message => (message, chunks.flatten.drop size.toNat)
      else none := by
  rw [parseFromBoundedZeroCopyStream_cut]
  split
  · rw [parseFromArray_eq_parseFromCodedStream]
  · rfl

/-! ## Message after message -/

/-- Messages of known sizes, read from a stream one after the other. -/
def parseMessages (d : Descriptor) :
    List Int → List (List CChar) → Option (List (Message d) × List (List CChar))
  | [], chunks => some ([], chunks)
  | size :: sizes, chunks => do
    let (message, chunks) ← parseFromBoundedZeroCopyStream d chunks size
    let (messages, chunks) ← parseMessages d sizes chunks
    some (message :: messages, chunks)

/-- The next message of a stream. -/
theorem Fits.parse_bounded {message : Message d} (h : message.Fits)
    (hsize : message.byteSizeLong < intMax) {rest : List CChar} {chunks : List (List CChar)}
    (hchunks : chunks.flatten = message.serializeWithCachedSizesToArray ++ rest) :
    ∃ chunks', parseFromBoundedZeroCopyStream d chunks message.byteSizeLong =
      some (message, chunks') ∧ chunks'.flatten = rest := by
  have hlength := message.length_serializeWithCachedSizesToArray
  have hparse := parseFromBoundedZeroCopyStream_cut (d := d) chunks message.byteSizeLong
  have hle : (message.byteSizeLong : Int) ≤ chunks.flatten.length := by
    rw [hchunks, List.length_append]
    omega
  rw [if_pos ⟨Int.natCast_nonneg _, by omega, hle⟩, Int.toNat_natCast, hchunks,
    List.take_left' hlength, List.drop_left' hlength,
    parseFromCodedStream_serialize h (Nat.le_of_lt hsize), Option.map_some] at hparse
  obtain ⟨⟨m, chunks'⟩, hp, heq⟩ := Option.map_eq_some_iff.mp hparse
  obtain ⟨rfl, hrest⟩ := Prod.mk.inj heq
  exact ⟨chunks', hp, hrest⟩

/-- **Messages that are written one behind the other** are read one by one, whatever the
buffers, and the stream goes on behind the last. -/
theorem Built.parse_messages {messages : List (Message d)} (h : ∀ message ∈ messages, Built message)
    (hsize : ∀ message ∈ messages, message.byteSizeLong < intMax) {rest : List CChar}
    {chunks : List (List CChar)}
    (hchunks : chunks.flatten = messages.flatMap serializeWithCachedSizesToArray ++ rest) :
    ∃ chunks', parseMessages d (messages.map fun message => (message.byteSizeLong : Int)) chunks =
      some (messages, chunks') ∧ chunks'.flatten = rest := by
  induction messages generalizing chunks with
  | nil => exact ⟨chunks, rfl, hchunks⟩
  | cons message messages ih =>
    rw [List.forall_mem_cons] at h hsize
    rw [List.flatMap_cons, List.append_assoc] at hchunks
    obtain ⟨chunks₁, hfirst, hchunks₁⟩ := h.1.fits.parse_bounded hsize.1 hchunks
    obtain ⟨chunks', hrest, hchunks'⟩ := ih h.2 hsize.2 hchunks₁
    refine ⟨chunks', ?_, hchunks'⟩
    rw [List.map_cons, parseMessages, hfirst]
    simp only [Option.bind_eq_bind, Option.bind_some, hrest]

/-- Two messages, a buffer that has the end of one and the beginning of the other, and a
byte behind them. -/
theorem Built.parse_messages_pair :
    ∃ chunks', parseMessages GameMessage.HeartRequest [2, 3] [[8], [5, 8, 233], [], [7, 1]] =
      some ([(clear _).set ⟨.ofNat 1 .int32, by decide⟩ (5 : BitVec 32),
        (clear _).set ⟨.ofNat 1 .int32, by decide⟩ (1001 : BitVec 32)], chunks') ∧
      chunks'.flatten = [1] :=
  Built.parse_messages
    (show ∀ message ∈ [(clear GameMessage.HeartRequest).set ⟨.ofNat 1 .int32, by decide⟩
        (5 : BitVec 32), (clear GameMessage.HeartRequest).set ⟨.ofNat 1 .int32, by decide⟩
        (1001 : BitVec 32)], Built message by
      simp only [List.forall_mem_cons]
      exact ⟨.set .new _ rfl, .set .new _ rfl, nofun⟩)
    (by decide)
    (show [[8], [5, 8, 233], [], [7, 1]].flatten = _ ++ [1] from rfl)
end Message

end SurvivalGame
