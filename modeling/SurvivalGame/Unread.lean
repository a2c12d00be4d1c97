import SurvivalGame.FromArray

/-! # What is still unread

A parser calls the operations of `InputStream` and no others.  `CodedInputStream` has
them, with its buffer and its refills; `Unread` has them as well and is nothing but
the bytes that are left, with the flags a parser asks for.

`CodedInputStream.unread` forgets the buffers.  A refill does not change what is
unread, and fails only when that is nothing (`unread_of_refresh_some`,
`unread_bytes_of_refresh_none`).
-/
namespace SurvivalGame

/-- The operations of `CodedInputStream` that the parsers call.  `bytesLeft` is not one
of them; it bounds the parsers' loops.  A parser fails with a read that fails, and the
stream is not looked at again; a tag that cannot be read is zero and has a stream behind
it. -/
class InputStream (σ : Type) where
  bytesLeft : σ → Nat
  readTag : σ → CUInt × σ
  readTagWithCutoffNoLastTag : σ → CUInt → (CUInt × Bool) × σ
  readVarint32 : σ → Option (CUInt × σ)
  readVarint64 : σ → Option (BitVec 64 × σ)
  readLittleEndian32 : σ → Option (BitVec 32 × σ)
  readLittleEndian64 : σ → Option (BitVec 64 × σ)
  readString : σ → CUInt → Option (List CChar × σ)
  lastTag : σ → CUInt
  consumedEntireMessage : σ → Bool
  incrementRecursionDepth : σ → Option σ
  decrementRecursionDepth : σ → σ
  lastTag_readTag : ∀ s, lastTag (readTag s).2 = (readTag s).1
  lastTag_decrementRecursionDepth : ∀ s, lastTag (decrementRecursionDepth s) = lastTag s

namespace InputStream

section Hom

variable {σ τ : Type} [InputStream σ] [InputStream τ] {h : σ → τ}

/-- How two streams stand behind a tag that was read from both.  A tag that cannot be read
is still in front of the second, while the first may have passed bytes of it. -/
def Behind (h : σ → τ) (tag : CUInt) (s : σ) (t : τ) : Prop :=
  t = h s ∨ tag = 0 ∧ consumedEntireMessage t = consumedEntireMessage s ∧ 0 < bytesLeft t

theorem Behind.eq_of_ne_zero {tag : CUInt} {s : σ} {t : τ} (hb : Behind h tag s t)
    (htag : tag ≠ 0) : t = h s :=
  hb.resolve_right fun hzero => htag hzero.1

/-- The same tag is read from both. -/
structure SameTag (h : σ → τ) (p : CUInt × σ) (q : CUInt × τ) : Prop where
  tag : q.1 = p.1
  behind : Behind h p.1 p.2 q.2

theorem SameTag.of_map {p : CUInt × σ} {q : CUInt × τ} (heq : Prod.map id h p = q) :
    SameTag h p q := by
  subst heq
  exact ⟨rfl, .inl rfl⟩

end Hom

/-- A map between two kinds of stream that every operation commutes with, as far as can be
seen behind a tag that cannot be read.  No parser has field numbers above 15, so that the
cutoff is one byte. -/
structure Hom {σ τ : Type} [InputStream σ] [InputStream τ] (h : σ → τ) : Prop where
  bytesLeft : ∀ s, bytesLeft (h s) = bytesLeft s
  readTag : ∀ s, SameTag h (readTag s) (readTag (h s))
  readTagWithCutoffNoLastTag : ∀ s cutoff, cutoff < 0x80#32 →
    (readTagWithCutoffNoLastTag (h s) cutoff).1 = (readTagWithCutoffNoLastTag s cutoff).1 ∧
      Behind h (readTagWithCutoffNoLastTag s cutoff).1.1 (readTagWithCutoffNoLastTag s cutoff).2
        (readTagWithCutoffNoLastTag (h s) cutoff).2
  readVarint32 : ∀ s, (readVarint32 s).map (Prod.map id h) = readVarint32 (h s)
  readVarint64 : ∀ s, (readVarint64 s).map (Prod.map id h) = readVarint64 (h s)
  readLittleEndian32 : ∀ s,
    (readLittleEndian32 s).map (Prod.map id h) = readLittleEndian32 (h s)
  readLittleEndian64 : ∀ s,
    (readLittleEndian64 s).map (Prod.map id h) = readLittleEndian64 (h s)
  readString : ∀ s size, (readString s size).map (Prod.map id h) = readString (h s) size
  lastTag : ∀ s, lastTag (h s) = lastTag s
  consumedEntireMessage : ∀ s, consumedEntireMessage (h s) = consumedEntireMessage s
  incrementRecursionDepth : ∀ s,
    (incrementRecursionDepth s).map h = incrementRecursionDepth (h s)
  decrementRecursionDepth : ∀ s, h (decrementRecursionDepth s) = decrementRecursionDepth (h s)

/-- `CodedInputStream::LastTagWas`. -/
def lastTagWas {σ : Type} [InputStream σ] (input : σ) (expected : CUInt) : Bool :=
  lastTag input == expected

section Hom

variable {σ τ : Type} [InputStream σ] [InputStream τ] {h : σ → τ}

theorem Hom.lastTagWas (hf : Hom h) (s : σ) (expected : CUInt) :
    InputStream.lastTagWas (h s) expected = InputStream.lastTagWas s expected := by
  rw [InputStream.lastTagWas, InputStream.lastTagWas, hf.lastTag]

/-- Where a message may end is seen by both. -/
theorem Hom.consumedEntireMessage_of_behind (hf : Hom h) {tag : CUInt} {s : σ} {t : τ}
    (hb : Behind h tag s t) :
    InputStream.consumedEntireMessage t = InputStream.consumedEntireMessage s := by
  rcases hb with rfl | ⟨-, hconsumed, -⟩
  · exact hf.consumedEntireMessage s
  · exact hconsumed

end Hom

end InputStream

/-- The bytes that are left of an input.  No operation asks for those behind the limit,
or how many are missing before it, if there is one. -/
@[ext] structure Unread where
  bytes : List CChar
  lastTag : CUInt
  legitimateMessageEnd : Bool
  recursionBudget : Nat
  behind : List CChar
  missing : Option Nat
deriving DecidableEq

namespace Unread

/-- An input that nothing has been read of. -/
def ofBytes (bytes : List CChar) : Unread := ⟨bytes, 0, false, recursionLimit, [], none⟩

/-- Bytes up to a limit, in an input that may go on behind it or end before it. -/
def withLimit (u : Unread) (behind : List CChar) (missing : Option Nat) : Unread :=
  { u with behind := behind, missing := missing }

/-- A number of at most ten bytes, cut to what its type holds. -/
def readVarint (w : Nat) (u : Unread) : Option (BitVec w × Unread) :=
  (Base128.decode 10 u.bytes).map fun p => (BitVec.ofNat w p.1, { u with bytes := p.2 })

def readRaw (u : Unread) (size : Nat) : Option (List CChar × Unread) :=
  if size ≤ u.bytes.length then
    some (u.bytes.take size, { u with bytes := u.bytes.drop size })
  else none

/-- The bytes that are jumped over are those that would be read. -/
def skip (u : Unread) (count : CUInt) : Option Unread :=
  if count.slt 0#32 then none else (u.readRaw count.toNat).map Prod.snd

theorem readRaw_append {u v : Unread} {front : List CChar} {size : Nat}
    (h : u = { v with bytes := front ++ v.bytes }) (hle : front.length ≤ size) :
    u.readRaw size = (v.readRaw (size - front.length)).map fun p => (front ++ p.1, p.2) := by
  subst h
  by_cases hsize : size - front.length ≤ v.bytes.length
  · rw [readRaw, readRaw, if_pos hsize, if_pos (by rw [List.length_append]; omega)]
    simp [List.take_append, List.drop_append, List.take_of_length_le hle, List.drop_eq_nil_of_le hle]
  · rw [readRaw, readRaw, if_neg hsize, if_neg (by rw [List.length_append]; omega)]
    rfl

/-- At the end of the input there is no tag, and a message may end; a tag that cannot be
read ends it where it may not end.  What is left of such a tag does not matter to any
parser; here it is all of it. -/
def readTagNoLastTag (u : Unread) : CUInt × Unread :=
  match u.bytes with
  | [] => (0, { u with legitimateMessageEnd := true })
  | _ :: _ => (u.readVarint 32).getD (0, u)

/-- A 32-bit number is a 64-bit one cut. -/
theorem readVarint_eq_setWidth (u : Unread) :
    u.readVarint 32 = (u.readVarint 64).map fun p => (p.1.setWidth 32, p.2) := by
  rw [readVarint, readVarint, Option.map_map]
  congr 1
  funext p
  have hwidth : BitVec.ofNat 32 p.1 = (BitVec.ofNat 64 p.1).setWidth 32 :=
    BitVec.eq_of_toNat_eq (by
      rw [BitVec.toNat_ofNat, BitVec.toNat_setWidth, BitVec.toNat_ofNat,
        Nat.mod_mod_of_dvd _ (by decide)])
  rw [hwidth]
  rfl

theorem readTagNoLastTag_of_eq_nil {u : Unread} (h : u.bytes = []) :
    u.readTagNoLastTag = (0, { u with legitimateMessageEnd := true }) := by
  obtain ⟨bytes, lastTag, legitimateMessageEnd, recursionBudget, behind, missing⟩ := u
  cases h
  rfl

theorem readTagNoLastTag_of_ne_nil {u : Unread} (h : u.bytes ≠ []) :
    u.readTagNoLastTag = (u.readVarint 32).getD (0, u) := by
  obtain ⟨b, bytes, hbytes⟩ := List.exists_cons_of_ne_nil h
  rw [readTagNoLastTag, hbytes]

instance : InputStream Unread where
  bytesLeft u := u.bytes.length
  readTag u :=
    let p := u.readTagNoLastTag
    (p.1, { p.2 with lastTag := p.1 })
  readTagWithCutoffNoLastTag u cutoff :=
    let p := u.readTagNoLastTag
    ((p.1, decide (p.1 - 1 < cutoff)), p.2)
  readVarint32 u := u.readVarint 32
  readVarint64 u := u.readVarint 64
  readLittleEndian32 u := (u.readRaw 4).map fun p => (readLittleEndian32FromArray p.1, p.2)
  readLittleEndian64 u := (u.readRaw 8).map fun p => (readLittleEndian64FromArray p.1, p.2)
  readString u size := if size.slt 0#32 then none else u.readRaw size.toNat
  lastTag := lastTag
  consumedEntireMessage u := u.legitimateMessageEnd
  incrementRecursionDepth u :=
    if 0 < u.recursionBudget then some { u with recursionBudget := u.recursionBudget - 1 }
    else none
  decrementRecursionDepth u :=
    if u.recursionBudget < recursionLimit then
      { u with recursionBudget := u.recursionBudget + 1 }
    else u
  lastTag_readTag _ := rfl
  lastTag_decrementRecursionDepth u := by split <;> rfl

end Unread

/-- Where nothing is left there is no tag that could not be read. -/
theorem InputStream.Behind.eq_of_bytes_eq_nil {σ : Type} [InputStream σ] {h : σ → Unread}
    {tag : CUInt} {s : σ} {u : Unread} (hb : Behind h tag s u) (hu : u.bytes = []) : u = h s := by
  refine hb.resolve_right fun hcorrupt => ?_
  have hpos : 0 < u.bytes.length := hcorrupt.2.2
  rw [hu] at hpos
  exact Nat.lt_irrefl 0 hpos

namespace CodedInputStream

/-- All the bytes that have not been read. -/
def ahead (s : CodedInputStream) : List CChar :=
  s.buffer ++ (s.afterLimit ++ (s.overflow ++ s.input.flatten))

/-- How many bytes the input has too few for the limit; `INT_MAX` is none. -/
def missing (s : CodedInputStream) : Option Nat :=
  if s.currentLimit = intMax then none
  else some (s.currentLimit - (s.totalBytesRead + s.overflow.length + s.input.flatten.length))

/-- The bytes of the buffer and of the input behind it, as far as the limit allows. -/
def unread (s : CodedInputStream) : Unread where
  bytes := s.buffer ++ s.input.flatten.take (s.currentLimit - s.totalBytesRead)
  lastTag := s.lastTag
  legitimateMessageEnd := s.legitimateMessageEnd
  recursionBudget := s.recursionBudget
  behind := s.afterLimit ++ (s.overflow ++
    s.input.flatten.drop (s.currentLimit - s.totalBytesRead))
  missing := s.missing

instance : InputStream CodedInputStream where
  bytesLeft s := s.unread.bytes.length
  readTag := readTag
  readTagWithCutoffNoLastTag := readTagWithCutoffNoLastTag
  readVarint32 s := s.readVarint32.toOption
  readVarint64 s := s.readVarint64.toOption
  readLittleEndian32 := readLittleEndian32
  readLittleEndian64 := readLittleEndian64
  readString := readString
  lastTag := lastTag
  consumedEntireMessage s := s.legitimateMessageEnd
  incrementRecursionDepth := incrementRecursionDepth
  decrementRecursionDepth := decrementRecursionDepth
  lastTag_readTag _ := rfl
  lastTag_decrementRecursionDepth s := by
    rw [decrementRecursionDepth]
    split <;> rfl

/-! ## Refilling the buffer -/

theorem nextNonEmpty_none {input : List (List CChar)} (h : nextNonEmpty input = none) :
    input.flatten = [] := by
  induction input with
  | nil => rfl
  | cons chunk input ih =>
    cases chunk with
    | nil => exact ih h
    | cons b chunk => cases h

theorem nextNonEmpty_some {input rest : List (List CChar)} {chunk : List CChar}
    (h : nextNonEmpty input = some (chunk, rest)) :
    chunk ≠ [] ∧ input.flatten = chunk ++ rest.flatten := by
  induction input with
  | nil => cases h
  | cons head input ih =>
    cases head with
    | nil => exact ih h
    | cons b head =>
      cases h
      exact ⟨List.cons_ne_nil _ _, rfl⟩

theorem limit_le_of_atLimit {s : CodedInputStream} (h : s.AtLimit) :
    s.currentLimit ≤ s.totalBytesRead := by
  have hlength := s.length_afterLimit
  rcases h with hafter | hoverflow | heq
  · have := List.length_pos_of_ne_nil hafter
    omega
  · rw [s.total_of_overflow hoverflow]
    exact s.limit_le
  · exact Nat.le_of_eq heq.symm

/-- A refresh fails when nothing is left. -/
theorem unread_bytes_of_refresh_none {s : CodedInputStream} (hempty : s.buffer = [])
    (h : s.refresh = none) : s.unread.bytes = [] := by
  rw [unread, hempty, List.nil_append]
  rw [refresh] at h
  split at h
  · next hstop => rw [Nat.sub_eq_zero_of_le (limit_le_of_atLimit hstop), List.take_zero]
  · split at h
    · next hnone => rw [nextNonEmpty_none hnone, List.take_nil]
    · cases h

/-- A refresh moves bytes and loses none. -/
theorem unread_of_refresh_some {s s' : CodedInputStream} (hempty : s.buffer = [])
    (h : s.refresh = some s') : s'.unread = s.unread ∧ s'.buffer ≠ [] := by
  rw [refresh] at h
  split at h
  · cases h
  · next hstop =>
    have hle := total_le_of_not_atLimit hstop
    have hlimit := s.limit_le
    obtain ⟨hafter, hoverflow, hne⟩ : s.afterLimit = [] ∧ s.overflow = [] ∧
        s.totalBytesRead ≠ s.currentLimit := by simpa [AtLimit] using hstop
    split at h
    · cases h
    · next chunk rest hsome =>
      obtain ⟨hchunk, hflatten⟩ := nextNonEmpty_some hsome
      simp only [recomputeBufferLimits_eq hle, List.splitAt_eq] at h
      cases h
      -- the room before the limit is part of the room before `INT_MAX`
      have hbuffer : (chunk.take (intMax - s.totalBytesRead)).take
          (s.currentLimit - s.totalBytesRead) = chunk.take (s.currentLimit - s.totalBytesRead) := by
        rw [List.take_take, Nat.min_eq_left (by omega)]
      have hbehind : (chunk.take (intMax - s.totalBytesRead)).drop
          (s.currentLimit - s.totalBytesRead) ++ chunk.drop (intMax - s.totalBytesRead) =
            chunk.drop (s.currentLimit - s.totalBytesRead) := by
        have hdrop : chunk.drop (intMax - s.totalBytesRead) =
            (chunk.drop (s.currentLimit - s.totalBytesRead)).drop
              (intMax - s.totalBytesRead - (s.currentLimit - s.totalBytesRead)) := by
          rw [List.drop_drop, Nat.add_sub_of_le (by omega)]
        rw [List.drop_take, hdrop, List.take_append_drop]
      have hroom : s.currentLimit - (s.totalBytesRead +
          (chunk.take (intMax - s.totalBytesRead)).length) =
            s.currentLimit - s.totalBytesRead - chunk.length := by
        rw [List.length_take]
        omega
      refine ⟨Unread.ext ?_ rfl rfl rfl ?_ ?_, ?_⟩
      · simp only [unread, hempty, hflatten, hbuffer, hroom, List.nil_append, List.take_append]
      · simp only [unread, hafter, hoverflow, hflatten, hroom, List.nil_append, List.drop_append,
          ← hbehind, List.append_assoc]
      · have htotal : s.totalBytesRead + (chunk.take (intMax - s.totalBytesRead)).length +
            (chunk.drop (intMax - s.totalBytesRead)).length + rest.flatten.length =
              s.totalBytesRead + 0 + (chunk.length + rest.flatten.length) := by
          rw [List.length_take, List.length_drop]
          omega
        simp only [unread, missing, hoverflow, hflatten, List.length_append, List.length_nil, htotal]
      · have hpos := List.length_pos_of_ne_nil hchunk
        have hroom : 0 < s.currentLimit - s.totalBytesRead := by omega
        simp [hchunk, Nat.ne_of_gt hroom]
        omega

/-- Filling an empty buffer. -/
theorem unread_bytes_of_fill_none {s : CodedInputStream} (h : s.fill = none) :
    s.unread.bytes = [] := by
  rw [fill] at h
  split at h
  · next hempty => exact unread_bytes_of_refresh_none hempty h
  · cases h

theorem unread_of_fill_some {s s' : CodedInputStream} (h : s.fill = some s') :
    s'.unread = s.unread ∧ s'.buffer ≠ [] := by
  rw [fill] at h
  split at h
  · next hempty => exact unread_of_refresh_some hempty h
  · next hne =>
    cases h
    exact ⟨rfl, hne⟩

/-! ## Bytes of the buffer -/

@[simp] theorem buffer_advance (s : CodedInputStream) (amount : Nat) :
    (s.advance amount).buffer = s.buffer.drop amount := rfl

@[simp] theorem missing_advance (s : CodedInputStream) (amount : Nat) :
    (s.advance amount).missing = s.missing := rfl

/-- What is read of the buffer is read of what is unread. -/
theorem unread_advance {s : CodedInputStream} {amount : Nat} (h : amount ≤ s.buffer.length) :
    (s.advance amount).unread = { s.unread with bytes := s.unread.bytes.drop amount } := by
  simp only [unread, missing_advance, buffer_advance, List.drop_append_of_le_length h]
  rfl

theorem take_unread {s : CodedInputStream} {amount : Nat} (h : amount ≤ s.buffer.length) :
    s.unread.bytes.take amount = s.buffer.take amount := by
  simp only [unread, List.take_append_of_le_length h]

theorem unread_bytes_eq_cons {s : CodedInputStream} {b : CChar} {buffer : List CChar}
    (h : s.buffer = b :: buffer) : s.unread.bytes = b :: (s.advance 1).unread.bytes := by
  simp only [unread, advance, h, List.cons_append, List.drop_succ_cons, List.drop_zero]

theorem unread_bytes_ne_nil {s : CodedInputStream} (h : s.buffer ≠ []) :
    s.unread.bytes ≠ [] := by
  simp [unread, h]

end CodedInputStream

end SurvivalGame
