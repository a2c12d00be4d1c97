import SurvivalGame.Cursor
import SurvivalGame.Cuts

/-! # UTF-8 and 16-bit units: `MyCharSet`

`unicode_to_utf8` writes the UTF-8 encoding of an array of 16-bit units,
`utf8_to_unicode` the units of a NUL-terminated UTF-8 string.  Both allocate a
zeroed buffer whose size they reckon beforehand, and fill it through a pointer
`tmp` that each branch of the loop moves on by itself.  `utf8_to_unicode` returns
the number of characters and drops the buffer; `CursorTextField` is its only
caller, and asks for the number.

A C string is the list of its bytes with the terminating NUL, so that to read
behind the list is to read behind the NUL.  `malloc` finds the memory it is asked
for.

The encoder shifts the middle byte of a three-byte character into place without
cutting it down to its six bits.  What comes out is UTF-8 unless bit 12 of a unit
ends up in the byte's second bit (`produces_utf8_iff`).
-/
namespace SurvivalGame

/-- A `uint16_t`. -/
abbrev CUShort := BitVec 16

namespace MyCharSet
open Loops Utf8

/-! ## The code -/

/-- The ways in which a call does not return. -/
inductive Fault
  /-- The size given to `malloc` has overflowed `int`, and is negative. -/
  | malloc
  /-- A byte behind the terminating NUL is read. -/
  | overread
  /-- A byte behind the buffer is written. -/
  | overwrite
  /-- The `while` loop has not ended in as many iterations as it was allowed. -/
  | fuel
deriving DecidableEq

/-- The `for` loop of `unicode_to_utf8`: `tmp` in `result`, and `outsize`. -/
structure Encoder where
  tmp : Cursor CChar
  outsize : ℕ
deriving DecidableEq

/-- One unit. -/
def Encoder.put (s : Encoder) (unicode : CUShort) : Except Fault Encoder :=
  if unicode.toNat ≤ 0x7f then do
    let tmp ← s.tmp.push .overwrite (unicode.setWidth 8)
    .ok ⟨tmp, s.outsize + 1⟩
  else if unicode.toNat ≤ 0x7ff then do
    let tmp ← s.tmp.push .overwrite ((0xc0#16 ||| unicode >>> 6).setWidth 8)
    let tmp ← tmp.push .overwrite ((0x80#16 ||| (unicode &&& 0x3f#16)).setWidth 8)
    .ok ⟨tmp, s.outsize + 2⟩
  else do
    let tmp ← s.tmp.push .overwrite ((0xe0#16 ||| unicode >>> 12).setWidth 8)
    -- the mask is 0x00ff, where the other bytes have 0xff >> 2
    let tmp ← tmp.push .overwrite ((0x80#16 ||| (unicode >>> 6 &&& 0x00ff#16)).setWidth 8)
    let tmp ← tmp.push .overwrite ((0x80#16 ||| (unicode &&& 0x3f#16)).setWidth 8)
    .ok ⟨tmp, s.outsize + 3⟩

/-- Before the first unit, with `charscount` to come. -/
def Encoder.start (charscount : ℕ) : Encoder := ⟨⟨List.replicate (charscount * 3 + 1) 0, 0⟩, 0⟩

/-- `unicode_to_utf8` on an array of `insize / sizeof(uint16_t)` units: `*out` and
the value returned.  `charscount * 3 + 1` is reckoned in `int`. -/
def unicodeToUtf8 (input : List CUShort) : Except Fault (List CChar × ℕ) :=
  if 2 ^ 31 ≤ input.length * 3 + 1 then .error .malloc
  else do
    let s ← input.foldlM Encoder.put (Encoder.start input.length)
    let tmp ← s.tmp.poke .overwrite 0
    .ok (tmp.buf, s.outsize)

/-- The `while` loop of `utf8_to_unicode`: the bytes from `p` on, `tmp` in `result`,
and `resultsize`. -/
structure Decoder where
  p : List CChar
  tmp : Cursor CChar
  resultsize : CUInt
deriving DecidableEq

/-- `*p`. -/
def deref : List CChar → Except Fault CChar
  | [] => .error .overread
  | b :: _ => .ok b

/-- One character. -/
def Decoder.next (s : Decoder) : Except Fault Decoder := do
  let b ← deref s.p
  if b.toNat ≤ 0x7f then
    let tmp ← s.tmp.push .overwrite b
    -- the second byte is written, and `tmp` stays in front of it
    let tmp ← tmp.poke .overwrite 0
    .ok ⟨s.p.drop 1, tmp, s.resultsize + 1⟩
  else if b &&& 0xe0 = 0xc0 then
    let t1 := b &&& 0x1f#8
    let t2 := (← deref (s.p.drop 1)) &&& 0x3f#8
    let tmp ← s.tmp.push .overwrite (t2 ||| ((t1 &&& 0x03#8) <<< 6))
    let tmp ← tmp.push .overwrite (t1 >>> 2)
    .ok ⟨s.p.drop 2, tmp, s.resultsize + 1⟩
  else if b &&& 0xf0 = 0xe0 then
    let t1 := b &&& 0x1f#8
    let t2 := (← deref (s.p.drop 1)) &&& 0x3f#8
    let t3 := (← deref (s.p.drop 2)) &&& 0x3f#8
    let tmp ← s.tmp.push .overwrite (((t2 &&& 0x03#8) <<< 6) ||| t3)
    let tmp ← tmp.push .overwrite ((t1 <<< 4) ||| (t2 >>> 2))
    .ok ⟨s.p.drop 3, tmp, s.resultsize + 1⟩
  else .ok { s with p := s.p.drop 1 }

/-- `while (*p)`; where there is nothing to read, the iteration fails. -/
def Decoder.more (s : Decoder) : Bool := s.p.head? ≠ some 0

/-- Before the first character. -/
def Decoder.start (input : List CChar) : Decoder :=
  ⟨input, ⟨List.replicate (strlen input * 2 + 2) 0, 0⟩, 0⟩

/-- `utf8_to_unicode`, with at most `fuel` iterations of its loop: `result` and the
value returned. -/
def utf8ToUnicode (fuel : ℕ) (input : List CChar) : Except Fault (List CChar × Int) := do
  let s ← whileM Decoder.more Decoder.next .fuel fuel (Decoder.start input)
  .ok (s.tmp.buf, s.resultsize.toInt)

/-! ## What is written for a unit -/

/-- The bytes of a unit, as they come out of the encoder. -/
def written (u : CUShort) : List CChar :=
  if u.toNat ≤ 0x7f then [u.setWidth 8]
  else if u.toNat ≤ 0x7ff then
    [0xc0#8 ||| (u >>> 6).setWidth 8, 0x80#8 ||| (u.setWidth 8 &&& 0x3f#8)]
  else
    [0xe0#8 ||| (u >>> 12).setWidth 8, 0x80#8 ||| (u >>> 6).setWidth 8,
      0x80#8 ||| (u.setWidth 8 &&& 0x3f#8)]

/-- Every branch writes the bytes of its unit one after the other, and counts them. -/
theorem Encoder.put_eq (s : Encoder) (u : CUShort) : s.put u =
    (written u).foldlM (Cursor.push .overwrite) s.tmp >>=
      fun tmp => .ok ⟨tmp, s.outsize + (written u).length⟩ := by
  have hmask : (u >>> 6 &&& 0x00ff#16).setWidth 8 = (u >>> 6).setWidth 8 := by
    rw [BitVec.setWidth_and, show (0x00ff#16).setWidth 8 = BitVec.allOnes 8 by decide,
      BitVec.and_allOnes]
  unfold put written
  by_cases h1 : u.toNat ≤ 0x7f
  · simp only [if_pos h1, List.foldlM_cons, List.foldlM_nil, bind_pure]
    rfl
  · by_cases h2 : u.toNat ≤ 0x7ff
    · simp only [if_neg h1, if_pos h2, List.foldlM_cons, List.foldlM_nil, bind_assoc, pure_bind,
        BitVec.setWidth_or, BitVec.setWidth_and]
      rfl
    · simp only [if_neg h1, if_neg h2, List.foldlM_cons, List.foldlM_nil, bind_assoc, pure_bind,
        BitVec.setWidth_or, BitVec.setWidth_and, hmask]
      rfl

theorem length_written (u : CUShort) : 0 < (written u).length ∧ (written u).length ≤ 3 := by
  unfold written
  split
  · exact ⟨Nat.zero_lt_one, by simp⟩
  · split <;> exact ⟨Nat.succ_pos _, by simp⟩

/-- The bytes of several units. -/
def writtenAll (us : List CUShort) : List CChar := us.flatMap written

@[simp] theorem writtenAll_nil : writtenAll [] = [] := rfl

@[simp] theorem writtenAll_cons (u : CUShort) (us : List CUShort) :
    writtenAll (u :: us) = written u ++ writtenAll us := List.flatMap_cons

@[simp] theorem writtenAll_append (us vs : List CUShort) :
    writtenAll (us ++ vs) = writtenAll us ++ writtenAll vs := List.flatMap_append

theorem length_writtenAll_le (us : List CUShort) : (writtenAll us).length ≤ us.length * 3 := by
  induction us with
  | nil => exact Nat.le_refl 0
  | cons u us ih =>
    have := (length_written u).2
    rw [writtenAll_cons, List.length_append, List.length_cons]
    omega

/-- What the encoder has come to when `out` is written. -/
def Encoder.wrote (size : ℕ) (out : List CChar) : Encoder := ⟨.wrote 0 size out, out.length⟩

/-- **A unit is written behind what there is.** -/
theorem Encoder.put_wrote {size : ℕ} {out : List CChar} {u : CUShort}
    (h : out.length + (written u).length ≤ size) :
    (Encoder.wrote size out).put u = .ok (Encoder.wrote size (out ++ written u)) := by
  rw [put_eq]
  apply bind_eq_ok.mpr
  refine ⟨_, Cursor.pushes_wrote _ h, ?_⟩
  simp [Encoder.wrote]

theorem Encoder.puts_wrote {size : ℕ} {out : List CChar} {us : List CUShort}
    (h : out.length + (writtenAll us).length ≤ size) :
    us.foldlM put (Encoder.wrote size out) = .ok (Encoder.wrote size (out ++ writtenAll us)) := by
  induction us generalizing out with
  | nil =>
    rw [writtenAll_nil, List.append_nil]
    rfl
  | cons u us ih =>
    rw [writtenAll_cons, List.length_append] at h
    apply foldlM_cons_eq_ok.mpr
    refine ⟨_, put_wrote (by omega), ?_⟩
    rw [ih (by rw [List.length_append]; omega), List.append_assoc, writtenAll_cons]

/-- The encoder after its first units. -/
theorem Encoder.start_puts (us vs : List CUShort) :
    us.foldlM put (Encoder.start (us ++ vs).length) =
      .ok (Encoder.wrote ((us ++ vs).length * 3 + 1) (writtenAll us)) := by
  have hle := length_writtenAll_le us
  have hstart : Encoder.start (us ++ vs).length =
      Encoder.wrote ((us ++ vs).length * 3 + 1) [] := rfl
  rw [hstart, puts_wrote]
  · rw [List.nil_append]
  · rw [List.length_append, List.length_nil]
    omega

/-- **What `unicode_to_utf8` returns**: the bytes of the units in a zeroed buffer, and
their number.  Three bytes for each unit are room enough. -/
theorem unicodeToUtf8_eq {input : List CUShort} (h : input.length * 3 + 1 < 2 ^ 31) :
    unicodeToUtf8 input = .ok (writtenAll input ++
      List.replicate (input.length * 3 + 1 - (writtenAll input).length) 0,
      (writtenAll input).length) := by
  have hle := length_writtenAll_le input
  have hputs := Encoder.start_puts input []
  rw [List.append_nil] at hputs
  rw [unicodeToUtf8, if_neg (Nat.not_le.mpr h)]
  apply bind_eq_ok.mpr
  refine ⟨_, hputs, ?_⟩
  apply bind_eq_ok.mpr
  exact ⟨_, Cursor.poke_wrote_zero _ (by omega), rfl⟩

theorem unicodeToUtf8_eq_ok {input : List CUShort} {result : List CChar} {outsize : ℕ} :
    unicodeToUtf8 input = .ok (result, outsize) ↔ input.length * 3 + 1 < 2 ^ 31 ∧
      result = writtenAll input ++
        List.replicate (input.length * 3 + 1 - (writtenAll input).length) 0 ∧
      outsize = (writtenAll input).length := by
  by_cases h : input.length * 3 + 1 < 2 ^ 31
  · rw [unicodeToUtf8_eq h]
    constructor
    · intro heq
      cases heq
      exact ⟨h, rfl, rfl⟩
    · rintro ⟨-, rfl, rfl⟩
      rfl
  · rw [unicodeToUtf8, if_pos (Nat.not_lt.mp h)]
    constructor
    · intro heq
      cases heq
    · rintro ⟨hlt, -⟩
      exact absurd hlt h

/-! ## UTF-8 or not -/

/-- A unit that is a character: neither zero nor a surrogate. -/
def IsCharacter (u : CUShort) : Prop := u ≠ 0 ∧ (u.toNat < 0xd800 ∨ 0xdfff < u.toNat)

instance : DecidablePred IsCharacter := fun _ => inferInstanceAs (Decidable (_ ∧ _))

/-- The character with the code point `u`. -/
def charOf (u : CUShort) : Char := Char.ofNat u.toNat

/-- The text that an array of units stands for. -/
def text (us : List CUShort) : List Char := us.map charOf

theorem charOf_val {u : CUShort} (h : IsCharacter u) :
    (charOf u).val.toBitVec = u.setWidth 32 := by
  have hlt := u.isLt
  have hvalid : u.toNat.isValidChar := by
    rcases h.2 with h | h
    · exact Or.inl h
    · exact Or.inr ⟨h, by omega⟩
  rw [charOf, Char.ofNat, dif_pos hvalid]
  apply BitVec.eq_of_toNat_eq
  rw [BitVec.toNat_setWidth, Nat.mod_eq_of_lt (by omega)]
  rfl

theorem charOf_toNat {u : CUShort} (h : IsCharacter u) : (charOf u).val.toNat = u.toNat := by
  have hlt := u.isLt
  have hval := congrArg BitVec.toNat (charOf_val h)
  rwa [BitVec.toNat_setWidth, Nat.mod_eq_of_lt (by omega)] at hval

theorem and_lead_two : ∀ x : CChar, x.toNat < 0x20 → x &&& 0x1f = x := by decide

theorem and_lead_three : ∀ x : CChar, x.toNat < 0x10 → x &&& 0x0f = x := by decide

theorem shift_toNat (u : CUShort) (k : ℕ) :
    ((u >>> k).setWidth 8).toNat = u.toNat / 2 ^ k % 256 := by
  rw [BitVec.toNat_setWidth, BitVec.toNat_ushiftRight, Nat.shiftRight_eq_div_pow]

theorem charOf_shift {u : CUShort} (h : IsCharacter u) (k : UInt32) (hk : k.toNat < 32) :
    ((charOf u).val >>> k).toUInt8.toBitVec = (u >>> k.toNat).setWidth 8 := by
  apply BitVec.eq_of_toNat_eq
  rw [shift_toNat, UInt8.toNat_toBitVec, UInt32.toNat_toUInt8, UInt32.toNat_shiftRight,
    charOf_toNat h, Nat.mod_eq_of_lt hk, Nat.shiftRight_eq_div_pow]

/-- The standard encoding of a unit, put together as the encoder does it.  Each byte behind
the first has six bits of it. -/
theorem bytes_charOf {u : CUShort} (h : IsCharacter u) : bytes (charOf u) =
    if u.toNat ≤ 0x7f then [u.setWidth 8]
    else if u.toNat ≤ 0x7ff then
      [0xc0#8 ||| (u >>> 6).setWidth 8, 0x80#8 ||| (u.setWidth 8 &&& 0x3f#8)]
    else
      [0xe0#8 ||| (u >>> 12).setWidth 8, 0x80#8 ||| ((u >>> 6).setWidth 8 &&& 0x3f#8),
        0x80#8 ||| (u.setWidth 8 &&& 0x3f#8)] := by
  have hlt := u.isLt
  have h0 : (charOf u).val.toUInt8.toBitVec = u.setWidth 8 := by
    rw [UInt32.toBitVec_toUInt8, charOf_val h, BitVec.setWidth_setWidth_of_le _ (by decide)]
  have h6 := charOf_shift h 6 (by decide)
  have h12 := charOf_shift h 12 (by decide)
  rw [bytes, String.utf8EncodeChar_eq_utf8EncodeCharFast, String.utf8EncodeCharFast]
  simp only [UInt32.le_iff_toNat_le, charOf_toNat h, UInt32.reduceToNat]
  by_cases h1 : u.toNat ≤ 0x7f
  · rw [if_pos h1, if_pos h1, List.map_singleton, h0]
  · by_cases h2 : u.toNat ≤ 0x7ff
    · rw [if_neg h1, if_neg h1, if_pos h2, if_pos h2]
      have hlead := and_lead_two ((u >>> 6).setWidth 8) (by rw [shift_toNat]; omega)
      simp only [List.map_cons, List.map_nil, UInt8.toBitVec_or, UInt8.toBitVec_and, h0, h6]
      rw [BitVec.or_comm, BitVec.or_comm _ (UInt8.toBitVec 128)]
      exact congrArg (fun b => [0xc0#8 ||| b, _]) hlead
    · rw [if_neg h1, if_neg h1, if_neg h2, if_neg h2, if_pos (by omega)]
      have hlead := and_lead_three ((u >>> 12).setWidth 8) (by rw [shift_toNat]; omega)
      simp only [List.map_cons, List.map_nil, UInt8.toBitVec_or, UInt8.toBitVec_and, h0, h6, h12]
      rw [BitVec.or_comm, BitVec.or_comm _ (UInt8.toBitVec 128),
        BitVec.or_comm _ (UInt8.toBitVec 128)]
      exact congrArg (fun b => [0xe0#8 ||| b, _, _]) hlead

theorem length_written_eq {u : CUShort} (h : IsCharacter u) :
    (written u).length = (bytes (charOf u)).length := by
  rw [bytes_charOf h, written]
  split
  · rfl
  · split <;> rfl

theorem or_mask_iff : ∀ x : CChar, 0x80#8 ||| x = 0x80#8 ||| (x &&& 0x3f#8) ↔
    x.getLsbD 6 = false := by decide

/-- The middle byte of three has one bit too many if bit 12 is set, and is right if not. -/
theorem written_eq_iff {u : CUShort} (h : IsCharacter u) :
    written u = bytes (charOf u) ↔ u.getLsbD 12 = false := by
  have hbit (hle : u.toNat ≤ 0x7ff) : u.getLsbD 12 = false := by
    rw [BitVec.getLsbD, Nat.testBit_lt_two_pow (by omega)]
  rw [bytes_charOf h, written]
  by_cases h1 : u.toNat ≤ 0x7f
  · rw [if_pos h1, if_pos h1]
    exact iff_of_true rfl (hbit (by omega))
  · by_cases h2 : u.toNat ≤ 0x7ff
    · rw [if_neg h1, if_neg h1, if_pos h2, if_pos h2]
      exact iff_of_true rfl (hbit h2)
    · rw [if_neg h1, if_neg h1, if_neg h2, if_neg h2]
      have hmiddle := or_mask_iff ((u >>> 6).setWidth 8)
      simpa using hmiddle

/-- Pieces of the same lengths, put together. -/
theorem flatMap_eq_flatMap_iff {α β : Type*} {f g : α → List β} {as : List α}
    (hlen : ∀ a ∈ as, (f a).length = (g a).length) :
    as.flatMap f = as.flatMap g ↔ ∀ a ∈ as, f a = g a := by
  induction as with
  | nil => simp
  | cons a as ih =>
    have ih := ih fun b hb => hlen b (List.mem_cons_of_mem a hb)
    rw [List.flatMap_cons, List.flatMap_cons, List.forall_mem_cons, ← ih]
    constructor
    · intro h
      exact List.append_inj h (hlen a List.mem_cons_self)
    · rintro ⟨h1, h2⟩
      rw [h1, h2]

theorem encode_text (us : List CUShort) :
    encode (text us) = us.flatMap fun u => bytes (charOf u) := by
  rw [encode, text, List.flatMap_map]

/-- What is written before the terminator is the UTF-8 encoding of the text, and
`outsize` its length. -/
def ProducesUtf8 (input : List CUShort) : Prop :=
  ∃ result, unicodeToUtf8 input = .ok (result, (encode (text input)).length) ∧
    result.length = input.length * 3 + 1 ∧ encode (text input) ++ [0] <+: result

/-- **When `unicode_to_utf8` produces UTF-8**: for every array of characters, exactly
when bit 12 of no unit is set and the size of the buffer fits an `int`. -/
theorem produces_utf8_iff {input : List CUShort} (h : ∀ u ∈ input, IsCharacter u) :
    ProducesUtf8 input ↔
      (∀ u ∈ input, u.getLsbD 12 = false) ∧ input.length * 3 + 1 < 2 ^ 31 := by
  have hwritten : writtenAll input = encode (text input) ↔ ∀ u ∈ input, u.getLsbD 12 = false := by
    rw [encode_text, writtenAll, flatMap_eq_flatMap_iff fun u hu => length_written_eq (h u hu)]
    exact forall₂_congr fun u hu => written_eq_iff (h u hu)
  have hle := length_writtenAll_le input
  rw [← hwritten]
  constructor
  · rintro ⟨result, hok, -, hpre⟩
    obtain ⟨hlt, rfl, hlen⟩ := unicodeToUtf8_eq_ok.mp hok
    have henc := (List.prefix_append _ _).trans hpre
    have hsame := List.prefix_of_prefix_length_le (List.prefix_append (writtenAll input) _) henc
      (Nat.le_of_eq hlen.symm)
    exact ⟨hsame.eq_of_length hlen.symm, hlt⟩
  · rintro ⟨heq, hlt⟩
    obtain ⟨k, hk⟩ := Nat.exists_eq_add_of_le hle
    have hroom : input.length * 3 + 1 - (writtenAll input).length = k + 1 := by omega
    rw [ProducesUtf8, ← heq]
    refine ⟨_, unicodeToUtf8_eq hlt, ?_, ?_⟩
    · rw [List.length_append, List.length_replicate]
      omega
    · exact ⟨List.replicate k 0, by rw [hroom, List.replicate_succ, List.append_assoc]; rfl⟩

/-- A letter, an accented one, and two Chinese characters. -/
theorem produces_utf8_mixed : ProducesUtf8 [0x61, 0xe9, 0x4e2d, 0x6587] ↔
    (∀ u ∈ ([0x61, 0xe9, 0x4e2d, 0x6587] : List CUShort), u.getLsbD 12 = false) ∧
      [0x61, 0xe9, 0x4e2d, 0x6587].length * 3 + 1 < 2 ^ 31 :=
  produces_utf8_iff (by simp [IsCharacter])

/-- U+5B57: the middle byte is 0xed for 0xad. -/
theorem produces_utf8_fails : IsCharacter 0x5b57 ∧
    unicodeToUtf8 [0x5b57] = .ok ([0xe5, 0xed, 0x97, 0], 3) ∧
    encode (text [0x5b57]) = [0xe5, 0xad, 0x97] ∧ ¬ ProducesUtf8 [0x5b57] := by
  refine ⟨by decide, rfl, by decide, ?_⟩
  rintro ⟨result, hok, -, hpre⟩
  cases hok
  revert hpre
  decide

end MyCharSet

end SurvivalGame
