import SurvivalGame.Unread

/-! # Buffers do not matter

Every operation of `CodedInputStream` commutes with forgetting its buffers
(`hom_unread`): how the bytes are cut into buffers, and which of the two paths reads a
number, cannot be told from what the operations return.  It can be told only from what a
read that fails leaves behind (`readVarint_eq_slow`), where a parser does not go on.
-/
namespace SurvivalGame

open InputStream (SameTag Behind)

namespace CodedInputStream

/-! ## Varints -/

theorem low_bits_shiftLeft (b : CChar) (k : Nat) :
    (b &&& 0x7f#8).setWidth 64 <<< k = BitVec.ofNat 64 (b.toNat % 128 * 2 ^ k) := by
  have hlow : (b &&& 0x7f#8).toNat = b.toNat % 128 := by decide +revert
  apply BitVec.eq_of_toNat_eq
  rw [BitVec.toNat_shiftLeft, BitVec.toNat_setWidth, hlow, BitVec.toNat_ofNat, Nat.shiftLeft_eq,
    Nat.mod_eq_of_lt (by omega : b.toNat % 128 < 2 ^ 64)]

/-- A group and the groups above it do not overlap. -/
theorem ofNat_or_group {a : Nat} (ha : a < 128) (m k : Nat) :
    BitVec.ofNat 64 (a * 2 ^ k) ||| BitVec.ofNat 64 (m * 2 ^ (k + 7)) =
      BitVec.ofNat 64 ((a + 128 * m) * 2 ^ k) := by
  have hor : a * 2 ^ k ||| m * 2 ^ (k + 7) = (a + 128 * m) * 2 ^ k := by
    have hm : m * 2 ^ (k + 7) = 2 ^ 7 * m * 2 ^ k := by
      rw [Nat.pow_add, Nat.mul_comm (2 ^ k), ← Nat.mul_assoc, Nat.mul_comm m]
    rw [hm, ← Nat.shiftLeft_eq, ← Nat.shiftLeft_eq, ← Nat.shiftLeft_or_distrib, Nat.or_comm,
      ← Nat.two_pow_add_eq_or_of_lt ha, Nat.shiftLeft_eq, Nat.add_comm]
  rw [← BitVec.ofNat_or, hor]

/-- What a read returns, without the buffers. -/
def forgetBuffers {α : Type} : ReadResult α → Except Unread (α × Unread)
  | .ok (value, s) => .ok (value, s.unread)
  | .error s => .error s.unread

theorem toOption_forgetBuffers {α : Type} (r : ReadResult α) :
    (forgetBuffers r).toOption = r.toOption.map (Prod.map id unread) := by
  cases r <;> rfl

/-- The slow path adds to `result` the number that is left, and passes over as many bytes
as it may when there is none. -/
theorem readVarint64Slow_unread {togo : Nat} (h : togo ≤ 10) (result : BitVec 64)
    (s : CodedInputStream) :
    forgetBuffers (readVarint64Slow togo result s) =
      ((Base128.decode togo s.unread.bytes).map fun p =>
        (result ||| BitVec.ofNat 64 (p.1 * 2 ^ (7 * (10 - togo))),
          { s.unread with bytes := p.2 })).elim
        (.error { s.unread with bytes := s.unread.bytes.drop togo }) .ok := by
  induction togo generalizing result s with
  | zero => rfl
  | succ togo ih =>
    have hpos : 7 * (10 - (togo + 1)) = 7 * (9 - togo) := by omega
    have hnext : 7 * (10 - togo) = 7 * (9 - togo) + 7 := by omega
    rw [readVarint64Slow, hpos]
    cases hfill : s.fill with
    | none =>
      have hbytes := unread_bytes_of_fill_none hfill
      have hleft : { s.unread with bytes := [] } = s.unread := by rw [← hbytes]
      simp [forgetBuffers, hbytes, hleft]
    | some s' =>
      obtain ⟨hunread, hne⟩ := unread_of_fill_some hfill
      obtain ⟨b, buffer, hbuffer⟩ := List.exists_cons_of_ne_nil hne
      have hadvance : (s'.advance 1).unread =
          { s.unread with bytes := (s'.advance 1).unread.bytes } := by
        rw [← hunread]
        rfl
      simp only [hbuffer, low_bits_shiftLeft]
      rw [← hunread, unread_bytes_eq_cons hbuffer, hunread]
      split
      · next hb =>
        rw [and_high_eq_zero_iff] at hb
        rw [Base128.decode_last hb, Nat.mod_eq_of_lt hb]
        simp only [forgetBuffers, Option.map_some, Option.elim_some, ← hadvance]
      · next hb =>
        rw [and_high_eq_zero_iff] at hb
        have hmod : b.toNat % 128 = b.toNat - 128 := by
          have := b.isLt
          omega
        rw [Base128.decode_more (by omega), ih (by omega), hadvance, hnext, hmod]
        cases Base128.decode togo (s'.advance 1).unread.bytes with
        | none => rfl
        | some p =>
          simp only [Option.map_some, Option.elim_some, BitVec.or_assoc]
          rw [ofNat_or_group (by omega)]

/-- What is left unread by a read that fails: the straight-line code has moved no pointer,
the loop has passed over ten bytes, or all there were. -/
def afterCorrupt (s : CodedInputStream) : Unread :=
  if s.VarintInBuffer then s.unread
  else { s.unread with bytes := s.unread.bytes.drop 10 }

theorem legitimateMessageEnd_afterCorrupt (s : CodedInputStream) :
    s.afterCorrupt.legitimateMessageEnd = s.legitimateMessageEnd := by
  rw [afterCorrupt]
  split <;> rfl

/-- With the question asked, decoding does not look behind the buffer. -/
theorem VarintInBuffer.decode_unread {s : CodedInputStream} (h : s.VarintInBuffer) :
    Base128.decode 10 s.unread.bytes = (Base128.decode 10 s.buffer).map fun p =>
      (p.1, ({ s with buffer := p.2 } : CodedInputStream).unread.bytes) := by
  cases hdec : Base128.decode 10 s.buffer with
  | some p => exact Base128.decode_append hdec _
  | none =>
    rw [Option.map_none, Base128.decode_eq_none_iff, take_unread (h.le_length hdec)]
    exact Base128.decode_eq_none_iff.mp hdec

/-- The fast path. -/
theorem ofFromArray_unread {s : CodedInputStream} (h : s.VarintInBuffer) (w : Nat) :
    forgetBuffers (s.ofFromArray (.ofDecode (BitVec.ofNat w) 10 s.buffer)) =
      (s.unread.readVarint w).elim (.error s.afterCorrupt) .ok := by
  rw [h.ofDecode, Unread.readVarint, h.decode_unread, afterCorrupt, if_pos h]
  cases Base128.decode 10 s.buffer <;> rfl

theorem readVarint64Fallback_unread (s : CodedInputStream) :
    forgetBuffers s.readVarint64Fallback =
      (s.unread.readVarint 64).elim (.error s.afterCorrupt) .ok := by
  rw [readVarint64Fallback]
  split
  · next h => rw [readVarint64FromArray_eq, ofFromArray_unread h]
  · next h =>
    rw [readVarint64Slow_unread (Nat.le_refl 10), Unread.readVarint, afterCorrupt, if_neg h]
    simp

/-- A number of one byte. -/
theorem readVarint_of_lt {s : CodedInputStream} {b : CChar} {buffer : List CChar}
    (hbuffer : s.buffer = b :: buffer) (hb : b.toNat < 128) (w : Nat) :
    s.unread.readVarint w = some (b.setWidth w, (s.advance 1).unread) := by
  have hwidth : BitVec.ofNat w b.toNat = b.setWidth w :=
    BitVec.eq_of_toNat_eq (by rw [BitVec.toNat_ofNat, BitVec.toNat_setWidth])
  rw [Unread.readVarint, unread_bytes_eq_cons hbuffer, Base128.decode_last hb, Option.map_some,
    hwidth]
  rfl

theorem readVarint64_unread (s : CodedInputStream) :
    forgetBuffers s.readVarint64 = (s.unread.readVarint 64).elim (.error s.afterCorrupt) .ok := by
  rw [readVarint64]
  split
  · exact readVarint64Fallback_unread s
  · next b buffer hbuffer =>
    split
    · next hb =>
      rw [lt_high_iff] at hb
      rw [readVarint_of_lt hbuffer hb]
      rfl
    · exact readVarint64Fallback_unread s

theorem readVarint32Slow_unread (s : CodedInputStream) :
    forgetBuffers s.readVarint32Slow =
      (s.unread.readVarint 32).elim (.error s.afterCorrupt) .ok := by
  have hmap (r : ReadResult (BitVec 64)) :
      forgetBuffers (r.map fun p => (p.1.setWidth 32, p.2)) =
        (forgetBuffers r).map fun p => (p.1.setWidth 32, p.2) := by
    cases r <;> rfl
  rw [readVarint32Slow, Unread.readVarint_eq_setWidth, hmap, readVarint64Fallback_unread]
  cases s.unread.readVarint 64 <;> rfl

/-- What the callers of the fallbacks pass: the byte at `buffer_`, when it is not a
number by itself. -/
theorem readVarint32FromArray_unread {s : CodedInputStream} {b : CChar} {buffer : List CChar}
    (hbuffer : s.buffer = b :: buffer) (hb : 128 ≤ b.toNat) (h : s.VarintInBuffer) :
    forgetBuffers (s.ofFromArray (readVarint32FromArray (b.setWidth 32) s.buffer)) =
      (s.unread.readVarint 32).elim (.error s.afterCorrupt) .ok := by
  rw [← ofFromArray_unread h, hbuffer, readVarint32FromArray_eq hb]

theorem readVarint32_unread (s : CodedInputStream) :
    forgetBuffers s.readVarint32 = (s.unread.readVarint 32).elim (.error s.afterCorrupt) .ok := by
  rw [readVarint32]
  split
  · next hempty =>
    have hno : ¬ s.VarintInBuffer := by simp [VarintInBuffer, hempty]
    rw [readVarint32Fallback, if_neg hno, readVarint32Slow_unread]
  · next b buffer hbuffer =>
    split
    · next hb =>
      rw [lt_high_iff] at hb
      rw [readVarint_of_lt hbuffer hb]
      rfl
    · next hb =>
      rw [lt_high_iff] at hb
      rw [readVarint32Fallback]
      split
      · next h => exact readVarint32FromArray_unread hbuffer (by omega) h
      · exact readVarint32Slow_unread s

/-- What a read returns when it succeeds. -/
theorem toOption_of_unread {α : Type} {r : ReadResult α} {x : Option (α × Unread)} {left : Unread}
    (h : forgetBuffers r = x.elim (.error left) .ok) :
    r.toOption.map (Prod.map id unread) = x := by
  rw [← toOption_forgetBuffers, h]
  cases x <;> rfl

/-- What it leaves when it does not. -/
theorem unread_of_error {α : Type} {r : ReadResult α} {x : Option (α × Unread)} {left : Unread}
    (h : forgetBuffers r = x.elim (.error left) .ok) {s' : CodedInputStream}
    (herror : r = .error s') : s'.unread = left := by
  subst herror
  cases x with
  | none => exact Except.error.inj h
  | some p => cases h

/-- **Whichever way a number is read**, straight out of the buffer, in one byte or byte by
byte across buffers, it is what `ReadVarint64Slow` reads, and 32 bits of it for a
`uint32`; or none is read.  Then `ReadVarint64Slow` has passed over ten bytes, or all there
were, and so have the others, but not when the straight-line code was used. -/
theorem readVarint_eq_slow (s : CodedInputStream) :
    s.readVarint64.toOption.map (Prod.map id unread) =
        (readVarint64Slow 10 0 s).toOption.map (Prod.map id unread) ∧
      s.readVarint32.toOption.map (Prod.map id unread) =
        (readVarint64Slow 10 0 s).toOption.map (Prod.map (BitVec.setWidth 32) unread) ∧
      (∀ s', readVarint64Slow 10 0 s = .error s' →
        s'.unread = { s.unread with bytes := s.unread.bytes.drop 10 }) ∧
      ∀ s', s.readVarint64 = .error s' ∨ s.readVarint32 = .error s' →
        s'.unread = if s.VarintInBuffer then s.unread
          else { s.unread with bytes := s.unread.bytes.drop 10 } := by
  have hslow : forgetBuffers (readVarint64Slow 10 0 s) = (s.unread.readVarint 64).elim
      (.error { s.unread with bytes := s.unread.bytes.drop 10 }) .ok := by
    rw [readVarint64Slow_unread (Nat.le_refl 10), Unread.readVarint]
    simp
  have hread := toOption_of_unread hslow
  refine ⟨?_, ?_, fun s' herror => unread_of_error hslow herror, ?_⟩
  · rw [hread, toOption_of_unread s.readVarint64_unread]
  · rw [toOption_of_unread s.readVarint32_unread, Unread.readVarint_eq_setWidth, ← hread,
      Option.map_map]
    rfl
  · rintro s' (herror | herror)
    · exact unread_of_error s.readVarint64_unread herror
    · exact unread_of_error s.readVarint32_unread herror

/-! ## Tags -/

/-- A tag that cannot be read ends no message where none ended before. -/
theorem sameTag_of_corrupt {s : CodedInputStream} {u : Unread}
    (hlegit : s.legitimateMessageEnd = u.legitimateMessageEnd) (hbytes : u.bytes ≠ []) :
    SameTag unread (0, s) (0, u) :=
  ⟨rfl, .inr ⟨rfl, hlegit.symm, List.length_pos_of_ne_nil hbytes⟩⟩

/-- At the end of the input a message may end: `INT_MAX` is reached only when that is the
limit asked for. -/
theorem readTagSlow_unread (s : CodedInputStream) :
    SameTag unread s.readTagSlow s.unread.readTagNoLastTag := by
  rw [readTagSlow]
  cases hfill : s.fill with
  | none =>
    have hafter := s.length_afterLimit
    have hlimit := s.limit_le
    rw [Unread.readTagNoLastTag_of_eq_nil (unread_bytes_of_fill_none hfill)]
    refine .of_map ?_
    simp only
    split
    · next hmax =>
      rw [decide_eq_true (by omega : s.currentLimit = intMax)]
      rfl
    · rfl
  | some s' =>
    obtain ⟨hunread, hne⟩ := unread_of_fill_some hfill
    have hread := s'.readVarint64_unread
    rw [← hunread, Unread.readTagNoLastTag_of_ne_nil (unread_bytes_ne_nil hne),
      Unread.readVarint_eq_setWidth]
    dsimp only
    cases hs : s'.readVarint64 with
    | error left =>
      have hleft := unread_of_error hread hs
      rw [hs] at hread
      cases hx : s'.unread.readVarint 64 with
      | none =>
        have hlegit := (congrArg Unread.legitimateMessageEnd hleft).trans
          s'.legitimateMessageEnd_afterCorrupt
        exact sameTag_of_corrupt hlegit (unread_bytes_ne_nil hne)
      | some p =>
        rw [hx] at hread
        cases hread
    | ok p =>
      have hvalue := toOption_of_unread hread
      rw [hs] at hvalue
      rw [← hvalue]
      exact .of_map rfl

theorem eq_zero_of_setWidth {b : CChar} : b.setWidth 32 = 0#32 → b = 0 := by
  decide +revert

theorem zero_slt_iff (b : CChar) : (0#8).slt b ↔ b ≠ 0 ∧ b.toNat < 128 := by
  decide +revert

/-- The fallback gets the byte at `buffer_`, or zero for an empty buffer. -/
theorem readTagFallback_unread {s : CodedInputStream} {first_byte_or_zero : CUInt}
    (hfirst : match s.buffer with
      | [] => first_byte_or_zero = 0
      | b :: _ => first_byte_or_zero = b.setWidth 32 ∧ (b = 0 ∨ 128 ≤ b.toNat)) :
    SameTag unread (s.readTagFallback first_byte_or_zero) s.unread.readTagNoLastTag := by
  rw [readTagFallback]
  split
  · next h =>
    cases hbuffer : s.buffer with
    | nil => simp [VarintInBuffer, hbuffer] at h
    | cons b buffer =>
      rw [hbuffer] at hfirst
      obtain ⟨rfl, hb⟩ := hfirst
      have hne : s.buffer ≠ [] := hbuffer ▸ List.cons_ne_nil b buffer
      rw [Unread.readTagNoLastTag_of_ne_nil (unread_bytes_ne_nil hne)]
      split
      · next hzero =>
        have hb0 := eq_zero_of_setWidth hzero
        rw [readVarint_of_lt hbuffer (by rw [hb0]; decide), hb0]
        exact .of_map rfl
      · next hzero =>
        have hhigh : 128 ≤ b.toNat := hb.resolve_left fun h => hzero (by rw [h]; rfl)
        -- the straight-line code leaves the tag in front of the stream, too
        rw [← toOption_of_unread (readVarint32FromArray_unread hbuffer hhigh h), hbuffer]
        refine .of_map ?_
        cases readVarint32FromArray (b.setWidth 32) (b :: buffer) <;> rfl
  · split
    · next hend =>
      obtain ⟨hempty, hlimit, -⟩ := hend
      have hstop : s.AtLimit := hlimit.imp id .inr
      have hbytes : s.unread.bytes = [] := by
        rw [unread, hempty, Nat.sub_eq_zero_of_le (limit_le_of_atLimit hstop), List.take_zero]
        rfl
      rw [Unread.readTagNoLastTag_of_eq_nil hbytes]
      exact .of_map rfl
    · exact readTagSlow_unread s

theorem readTagNoLastTag_unread (s : CodedInputStream) :
    SameTag unread s.readTagNoLastTag s.unread.readTagNoLastTag := by
  rw [readTagNoLastTag]
  split
  · next hempty => exact readTagFallback_unread (by rw [hempty])
  · next b buffer hbuffer =>
    split
    · next hb =>
      rw [lt_high_iff] at hb
      have hne : s.buffer ≠ [] := hbuffer ▸ List.cons_ne_nil b buffer
      rw [Unread.readTagNoLastTag_of_ne_nil (unread_bytes_ne_nil hne),
        readVarint_of_lt hbuffer hb]
      exact .of_map rfl
    · next hb =>
      rw [lt_high_iff] at hb
      exact readTagFallback_unread (by rw [hbuffer]; exact ⟨rfl, .inr (by omega)⟩)

/-- The second component says whether the tag is at or below the cutoff; zero never is. -/
theorem readTagWithCutoffNoLastTag_unread (s : CodedInputStream) {cutoff : CUInt}
    (hcutoff : cutoff < 0x80#32) :
    (s.unread.readTagNoLastTag.1, decide (s.unread.readTagNoLastTag.1 - 1 < cutoff)) =
        (s.readTagWithCutoffNoLastTag cutoff).1 ∧
      Behind unread (s.readTagWithCutoffNoLastTag cutoff).1.1
        (s.readTagWithCutoffNoLastTag cutoff).2 s.unread.readTagNoLastTag.2 := by
  have hno : ¬ 0x80#32 ≤ cutoff := BitVec.not_le.mpr hcutoff
  have hslow : ∀ {p : CUInt × CodedInputStream}, SameTag unread p s.unread.readTagNoLastTag →
      (s.unread.readTagNoLastTag.1, decide (s.unread.readTagNoLastTag.1 - 1 < cutoff)) =
          (p.1, decide (p.1 - 1 < cutoff)) ∧
        Behind unread p.1 p.2 s.unread.readTagNoLastTag.2 := by
    intro p h
    rw [h.tag]
    exact ⟨rfl, h.behind⟩
  rw [readTagWithCutoffNoLastTag]
  cases hbuffer : s.buffer with
  | nil => exact hslow (readTagFallback_unread (by rw [hbuffer]))
  | cons b rest =>
    simp only
    split
    · next hpos =>
      obtain ⟨hb0, hb⟩ := (zero_slt_iff b).mp hpos
      have hne : s.buffer ≠ [] := hbuffer ▸ List.cons_ne_nil b rest
      have htag : (0x7f#32 ≤ cutoff ∨ b.setWidth 32 ≤ cutoff) ↔ b.setWidth 32 - 1 < cutoff := by
        have hcut := BitVec.lt_def.mp hcutoff
        have hb0 : b.toNat ≠ 0 := fun h => hb0 (BitVec.eq_of_toNat_eq h)
        have hone : (1 : CUInt).toNat = 1 := rfl
        simp only [BitVec.le_def, BitVec.lt_def, BitVec.toNat_sub, BitVec.toNat_setWidth,
          BitVec.toNat_ofNat, hone] at hcut ⊢
        omega
      rw [Unread.readTagNoLastTag_of_ne_nil (unread_bytes_ne_nil hne),
        readVarint_of_lt hbuffer hb]
      simp only [Option.getD_some, htag, true_and]
      exact .inl rfl
    · next hpos =>
      have hb : b = 0 ∨ 128 ≤ b.toNat := by
        rw [zero_slt_iff] at hpos
        by_cases hb : b = 0
        · exact .inl hb
        · exact .inr (Nat.not_lt.mp fun h => hpos ⟨hb, h⟩)
      have hfallback : SameTag unread (s.readTagFallback (b.setWidth 32))
          s.unread.readTagNoLastTag :=
        readTagFallback_unread (by rw [hbuffer]; exact ⟨rfl, hb⟩)
      cases rest with
      | nil => exact hslow hfallback
      | cons c rest =>
        simp only [hno, false_and, if_false]
        exact hslow hfallback

/-! ## Raw bytes -/

theorem unread_eq_append (s : CodedInputStream) :
    s.unread = { (s.advance s.buffer.length).unread with
      bytes := s.buffer ++ (s.advance s.buffer.length).unread.bytes } := by
  simp only [unread, missing_advance, buffer_advance, List.drop_length, List.nil_append]
  rfl

theorem readRaw_of_le {s : CodedInputStream} {size : Nat} (h : size ≤ s.buffer.length) :
    s.unread.readRaw size = some (s.buffer.take size, (s.advance size).unread) := by
  have hbytes : size ≤ s.unread.bytes.length := by
    simp only [unread, List.length_append]
    omega
  rw [Unread.readRaw, if_pos hbytes, take_unread h, unread_advance h]

/-- The loop reads what is there, if its turns are enough: one for each byte, and one
more when it starts on an empty buffer. -/
theorem readRawLoop_unread {turns size : Nat} {out : List CChar} {s : CodedInputStream}
    (h : size < turns ∨ size ≤ turns ∧ 0 < turns ∧ s.buffer ≠ []) :
    (readRawLoop turns size out s).map (Prod.map id unread) =
      (s.unread.readRaw size).map fun p => (out ++ p.1, p.2) := by
  induction turns generalizing size out s with
  | zero => omega
  | succ turns ih =>
    rw [readRawLoop]
    split
    · next hlt =>
      have hempty : (s.advance s.buffer.length).buffer = [] := List.drop_length
      rw [Unread.readRaw_append (unread_eq_append s) (Nat.le_of_lt hlt)]
      cases hrefresh : (s.advance s.buffer.length).refresh with
      | none =>
        have hnone : ¬ size - s.buffer.length ≤ 0 := by omega
        simp [Unread.readRaw, unread_bytes_of_refresh_none hempty hrefresh, hnone]
      | some s' =>
        obtain ⟨hunread, hne⟩ := unread_of_refresh_some hempty hrefresh
        have hturns : size - s.buffer.length ≤ turns ∧ 0 < turns := by
          rcases h with h | ⟨hle, -, hbuffer⟩
          · omega
          · have := List.length_pos_of_ne_nil hbuffer
            omega
        simp only [Option.bind_eq_bind, Option.bind_some]
        rw [ih (.inr ⟨hturns.1, hturns.2, hne⟩), hunread, Option.map_map]
        congr 1
        funext p
        simp [List.append_assoc]
    · next hle =>
      rw [readRaw_of_le (Nat.not_lt.mp hle)]
      rfl

theorem readRaw_unread (s : CodedInputStream) (size : Nat) :
    (s.readRaw size).map (Prod.map id unread) = s.unread.readRaw size := by
  rw [readRaw, readRawLoop_unread (.inl (Nat.lt_succ_self size))]
  simp

theorem readString_unread (s : CodedInputStream) (size : CUInt) :
    (s.readString size).map (Prod.map id unread) =
      if size.slt 0#32 then none else s.unread.readRaw size.toNat := by
  rw [readString]
  split
  · rfl
  · split
    · next hle =>
      rw [readRaw_of_le hle]
      rfl
    · exact readRaw_unread s size.toNat

theorem readLittleEndian32FromArray_take (buffer : List CChar) :
    readLittleEndian32FromArray (buffer.take 4) = readLittleEndian32FromArray buffer := by
  simp [readLittleEndian32FromArray, List.getD_eq_getElem?_getD]

theorem readLittleEndian64FromArray_take (buffer : List CChar) :
    readLittleEndian64FromArray (buffer.take 8) = readLittleEndian64FromArray buffer := by
  simp [readLittleEndian64FromArray, readLittleEndian32FromArray, List.getD_eq_getElem?_getD,
    List.getElem?_drop]

theorem readLittleEndian32_unread (s : CodedInputStream) :
    s.readLittleEndian32.map (Prod.map id unread) =
      (s.unread.readRaw 4).map fun p => (readLittleEndian32FromArray p.1, p.2) := by
  rw [readLittleEndian32]
  split
  · next hle =>
    rw [readRaw_of_le hle, Option.map_some, Option.map_some]
    simp only [readLittleEndian32FromArray_take, Prod.map_apply, id_eq]
  · rw [← readRaw_unread, Option.map_map, Option.map_map]
    rfl

theorem readLittleEndian64_unread (s : CodedInputStream) :
    s.readLittleEndian64.map (Prod.map id unread) =
      (s.unread.readRaw 8).map fun p => (readLittleEndian64FromArray p.1, p.2) := by
  rw [readLittleEndian64]
  split
  · next hle =>
    rw [readRaw_of_le hle, Option.map_some, Option.map_some]
    simp only [readLittleEndian64FromArray_take, Prod.map_apply, id_eq]
  · rw [← readRaw_unread, Option.map_map, Option.map_map]
    rfl

/-! ## Skipping -/

/-- What is skipped is not there any more. -/
theorem skipInput_eq_some {skipInput : InputSkip} {count : Nat} {input rest : List (List CChar)}
    (h : skipInput.skip count input = some rest) :
    count ≤ input.flatten.length ∧ rest.flatten = input.flatten.drop count := by
  have hspec := skipInput.spec count input
  rw [h, Option.map_some] at hspec
  split at hspec
  · next hle => exact ⟨hle, Option.some.inj hspec⟩
  · cases hspec

theorem skipInput_eq_none {skipInput : InputSkip} {count : Nat} {input : List (List CChar)}
    (h : skipInput.skip count input = none) : input.flatten.length < count := by
  have hspec := skipInput.spec count input
  rw [h, Option.map_none] at hspec
  split at hspec
  · cases hspec
  · next hlt => exact Nat.not_le.mp hlt

/-- A limit stops it as the end of the input does. -/
theorem skipFallback_unread (skipInput : InputSkip) {s : CodedInputStream} {count : Nat}
    (h : s.buffer.length < count) :
    (s.skipFallback skipInput count).map unread = (s.unread.readRaw count).map Prod.snd := by
  have hbytes : s.unread.bytes.length =
      s.buffer.length + min (s.currentLimit - s.totalBytesRead) s.input.flatten.length := by
    rw [unread, List.length_append, List.length_take]
  have hafter := s.length_afterLimit
  rw [Unread.readRaw, skipFallback]
  split
  · next hlimit =>
    have hpos := List.length_pos_of_ne_nil hlimit
    rw [if_neg (by omega)]
    rfl
  · next hlimit =>
    simp only
    split
    · rw [if_neg (by omega)]
      rfl
    · next hrest =>
      cases hskip : skipInput.skip (count - s.buffer.length) s.input with
      | none =>
        have hshort := skipInput_eq_none hskip
        rw [if_neg (by omega)]
        rfl
      | some input =>
        obtain ⟨hlength, hflatten⟩ := skipInput_eq_some hskip
        have hsum : count - s.buffer.length + (s.currentLimit -
            (s.totalBytesRead + (count - s.buffer.length))) = s.currentLimit - s.totalBytesRead := by
          omega
        rw [if_pos (by omega)]
        refine congrArg some (Unread.ext ?_ rfl rfl rfl ?_ ?_)
        · change [] ++ input.flatten.take _ = (s.buffer ++ s.input.flatten.take _).drop count
          rw [List.nil_append, hflatten, List.drop_append, List.drop_eq_nil_of_le (Nat.le_of_lt h),
            List.nil_append, ← hsum, List.drop_take, Nat.add_sub_cancel_left]
        · change s.afterLimit ++ (s.overflow ++ input.flatten.drop _) =
            s.afterLimit ++ (s.overflow ++ s.input.flatten.drop _)
          rw [hflatten, List.drop_drop, hsum]
        · change missing _ = s.missing
          simp only [missing, hflatten, List.length_drop]
          congr 2
          omega

/-- **The bytes that are jumped over are those that would be read**, in whatever buffers the
input goes on. -/
theorem skip_unread (skipInput : InputSkip) (s : CodedInputStream) (count : CUInt) :
    (s.skip skipInput count).map unread = s.unread.skip count := by
  rw [skip, Unread.skip]
  split
  · rfl
  · split
    · next hle =>
      rw [readRaw_of_le hle]
      rfl
    · next hlt => exact skipFallback_unread skipInput (Nat.not_le.mp hlt)

/-! ## All operations -/

/-- `ReadTag` sets `last_tag_`. -/
theorem readTag_unread (s : CodedInputStream) :
    SameTag unread (InputStream.readTag s) (InputStream.readTag s.unread) := by
  have h := readTagNoLastTag_unread s
  refine ⟨h.tag, ?_⟩
  rcases h.behind with heq | ⟨hzero, hconsumed, hbytes⟩
  · left
    change ({ s.unread.readTagNoLastTag.2 with lastTag := s.unread.readTagNoLastTag.1 } : Unread) =
      { s.readTagNoLastTag.2.unread with lastTag := s.readTagNoLastTag.1 }
    rw [heq, h.tag]
  · exact .inr ⟨hzero, hconsumed, hbytes⟩

/-- **Every operation commutes with forgetting the buffers.** -/
theorem hom_unread : InputStream.Hom unread where
  bytesLeft _ := rfl
  readTag := readTag_unread
  readTagWithCutoffNoLastTag s cutoff hcutoff := readTagWithCutoffNoLastTag_unread s hcutoff
  readVarint32 s := toOption_of_unread s.readVarint32_unread
  readVarint64 s := toOption_of_unread s.readVarint64_unread
  readLittleEndian32 := readLittleEndian32_unread
  readLittleEndian64 := readLittleEndian64_unread
  readString := readString_unread
  lastTag _ := rfl
  consumedEntireMessage _ := rfl
  incrementRecursionDepth s := by
    change s.incrementRecursionDepth.map unread = if 0 < s.recursionBudget then _ else none
    rw [incrementRecursionDepth]
    split <;> rfl
  decrementRecursionDepth s := by
    change s.decrementRecursionDepth.unread = if s.recursionBudget < recursionLimit then _ else _
    rw [decrementRecursionDepth]
    split <;> rfl

/-- A stream over an array ends with it. -/
@[simp] theorem unread_ofArray (buffer : SizedArray) :
    (ofArray buffer).unread = (Unread.ofBytes buffer.val).withLimit []
      (if buffer.val.length = intMax then none else some 0) := by
  simp [unread, missing, ofArray, Unread.ofBytes, Unread.withLimit]

/-- **A stream over an input** is the concatenation of its buffers, up to `INT_MAX`
bytes. -/
@[simp] theorem unread_ofStream (input : List (List CChar)) :
    (ofStream input).unread =
      (Unread.ofBytes (input.flatten.take intMax)).withLimit (input.flatten.drop intMax) none := by
  have hopen : ∀ s : CodedInputStream, s.buffer = [] →
      (s.refresh.getD s).unread = s.unread := by
    intro s hempty
    cases hrefresh : s.refresh with
    | none => rfl
    | some s' => exact (unread_of_refresh_some hempty hrefresh).1
  rw [ofStream, hopen _ rfl]
  simp [unread, missing, Unread.ofBytes, Unread.withLimit]

end CodedInputStream

/-! ## The limit -/

namespace Unread

variable (u : Unread) (behind : List CChar) (missing : Option Nat)

theorem readVarint_withLimit (w : Nat) :
    (u.readVarint w).map (Prod.map id (withLimit · behind missing)) =
      (u.withLimit behind missing).readVarint w := by
  rw [readVarint, readVarint, Option.map_map]
  rfl

theorem readRaw_withLimit (size : Nat) :
    (u.readRaw size).map (Prod.map id (withLimit · behind missing)) =
      (u.withLimit behind missing).readRaw size := by
  rw [readRaw, readRaw, apply_ite (Option.map _)]
  rfl

theorem readTagNoLastTag_withLimit :
    Prod.map id (withLimit · behind missing) u.readTagNoLastTag =
      (u.withLimit behind missing).readTagNoLastTag := by
  have hbytes : (u.withLimit behind missing).bytes = u.bytes := rfl
  by_cases h : u.bytes = []
  · rw [readTagNoLastTag_of_eq_nil h, readTagNoLastTag_of_eq_nil (hbytes.trans h)]
    rfl
  · rw [readTagNoLastTag_of_ne_nil h, readTagNoLastTag_of_ne_nil (hbytes ▸ h),
      ← readVarint_withLimit]
    cases u.readVarint 32 <;> rfl

/-- **No operation sees what is behind the limit.** -/
theorem hom_withLimit : InputStream.Hom (withLimit · behind missing) where
  bytesLeft _ := rfl
  readTag u := by
    refine .of_map ?_
    change _ = ((u.withLimit behind missing).readTagNoLastTag.1,
      { (u.withLimit behind missing).readTagNoLastTag.2 with
        lastTag := (u.withLimit behind missing).readTagNoLastTag.1 })
    rw [← readTagNoLastTag_withLimit]
    rfl
  readTagWithCutoffNoLastTag u cutoff _ := by
    change ((u.withLimit behind missing).readTagNoLastTag.1, _) = _ ∧
      Behind _ _ _ (u.withLimit behind missing).readTagNoLastTag.2
    rw [← readTagNoLastTag_withLimit]
    exact ⟨rfl, .inl rfl⟩
  readVarint32 u := readVarint_withLimit u behind missing 32
  readVarint64 u := readVarint_withLimit u behind missing 64
  readLittleEndian32 u := by
    change _ = ((u.withLimit behind missing).readRaw 4).map _
    rw [← readRaw_withLimit, Option.map_map]
    exact Option.map_map _ _ _
  readLittleEndian64 u := by
    change _ = ((u.withLimit behind missing).readRaw 8).map _
    rw [← readRaw_withLimit, Option.map_map]
    exact Option.map_map _ _ _
  readString u size := by
    change _ = if size.slt 0#32 then none else (u.withLimit behind missing).readRaw size.toNat
    rw [← readRaw_withLimit]
    exact apply_ite (Option.map _) _ _ _
  lastTag _ := rfl
  consumedEntireMessage _ := rfl
  incrementRecursionDepth u := apply_ite (Option.map _) _ _ _
  decrementRecursionDepth u := apply_ite (withLimit · behind missing) _ _ _

end Unread

end SurvivalGame
