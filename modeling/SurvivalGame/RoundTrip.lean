import SurvivalGame.Decoding

/-! # There and back

`utf8_to_unicode` on what `unicode_to_utf8` has written.  The decoder masks the bit
that the encoder leaves too many in a middle byte, so it stays in step with the
encoder on every array of units (`in_step`), also where the bytes between them are
not UTF-8.  Its buffer is another matter: the branch for ASCII leaves `tmp` one byte
short, and the next character is written over the second byte of the last one
(`holds_units_iff`).
-/
namespace SurvivalGame.MyCharSet
open Loops Utf8

/-! ## One unit -/

/-- The bytes of a unit in memory. -/
def littleEndian (u : CUShort) : List CChar := [u.setWidth 8, (u >>> 8).setWidth 8]

/-- What the decoder pushes for the bytes of a unit. -/
def decoded (u : CUShort) : List CChar := if u.toNat ≤ 0x7f then [u.setWidth 8] else littleEndian u

theorem length_decoded_le (u : CUShort) : (decoded u).length ≤ 2 := by
  unfold decoded
  split
  · exact Nat.le_succ 1
  · exact Nat.le_refl 2

theorem lead_two_byte : ∀ x : CChar, x.toNat < 0x20 →
    0xc0 ≤ (0xc0#8 ||| x).toNat ∧ (0xc0#8 ||| x).toNat < 0xe0 := by decide

theorem lead_three_byte : ∀ x : CChar, x.toNat < 0x10 →
    0xe0 ≤ (0xe0#8 ||| x).toNat ∧ (0xe0#8 ||| x).toNat < 0xf0 := by decide

theorem or_ne_zero : ∀ x : CChar, 0x80#8 ||| x ≠ 0 ∧ 0xc0#8 ||| x ≠ 0 ∧ 0xe0#8 ||| x ≠ 0 := by
  decide

/-! The two bytes of a unit come out of what was written of it bit by bit; the bits
behind the masks do not matter. -/

theorem low_two (u : CUShort) : ((0x80#8 ||| (u.setWidth 8 &&& 0x3f#8)) &&& 0x3f#8) |||
    ((0xc0#8 ||| (u >>> 6).setWidth 8) &&& 0x1f#8 &&& 0x03#8) <<< 6 = u.setWidth 8 := by
  refine BitVec.eq_of_getLsbD_eq fun i hi => ?_
  match i, hi with
  | 0, _ | 1, _ | 2, _ | 3, _ | 4, _ | 5, _ | 6, _ | 7, _ => simp

theorem low_three (u : CUShort) :
    ((0x80#8 ||| (u >>> 6).setWidth 8) &&& 0x3f#8 &&& 0x03#8) <<< 6 |||
      ((0x80#8 ||| (u.setWidth 8 &&& 0x3f#8)) &&& 0x3f#8) = u.setWidth 8 := by
  refine BitVec.eq_of_getLsbD_eq fun i hi => ?_
  match i, hi with
  | 0, _ | 1, _ | 2, _ | 3, _ | 4, _ | 5, _ | 6, _ | 7, _ => simp

theorem high_three (u : CUShort) : ((0xe0#8 ||| (u >>> 12).setWidth 8) &&& 0x1f#8) <<< 4 |||
    ((0x80#8 ||| (u >>> 6).setWidth 8) &&& 0x3f#8) >>> 2 = (u >>> 8).setWidth 8 := by
  refine BitVec.eq_of_getLsbD_eq fun i hi => ?_
  match i, hi with
  | 0, _ | 1, _ | 2, _ | 3, _ | 4, _ | 5, _ | 6, _ | 7, _ => simp

theorem high_two {u : CUShort} (h : u.toNat ≤ 0x7ff) :
    ((0xc0#8 ||| (u >>> 6).setWidth 8) &&& 0x1f#8) >>> 2 = (u >>> 8).setWidth 8 := by
  have hbit (i : ℕ) (hle : 11 ≤ i) (hi : i < 16) : u[i] = false := by
    rw [← BitVec.getLsbD_eq_getElem, BitVec.getLsbD, Nat.testBit_lt_two_pow]
    exact Nat.lt_of_lt_of_le (show u.toNat < 2 ^ 11 by omega) (Nat.pow_le_pow_right (by decide) hle)
  refine BitVec.eq_of_getLsbD_eq fun i hi => ?_
  match i, hi with
  | 0, _ | 1, _ | 2, _ | 3, _ | 4, _ | 5, _ | 6, _ | 7, _ => simp [hbit]

section Units
variable {size : ℕ} {p out : List CChar} {n : CUInt} {u : CUShort} {us : List CUShort}

/-- **A unit is read back**, whatever the encoder has left in its middle byte. -/
theorem Decoder.next_written (hroom : out.length + 2 ≤ size) :
    (Decoder.wrote size (written u ++ p) out n).next =
      .ok (Decoder.wrote size p (out ++ decoded u) (n + 1)) := by
  have hlt := u.isLt
  unfold written decoded
  by_cases h1 : u.toNat ≤ 0x7f
  · rw [if_pos h1, if_pos h1]
    exact next_one (by rw [BitVec.toNat_setWidth]; omega) hroom
  · by_cases h2 : u.toNat ≤ 0x7ff
    · rw [if_neg h1, if_neg h1, if_pos h2, littleEndian, ← high_two h2]
      have hlead := lead_two_byte ((u >>> 6).setWidth 8) (by rw [shift_toNat]; omega)
      have hnext := next_two (x := 0x80#8 ||| (u.setWidth 8 &&& 0x3f#8)) (p := p) (n := n) hlead
        hroom
      rwa [low_two] at hnext
    · rw [if_neg h1, if_neg h1, if_neg h2, littleEndian, ← high_three]
      have hlead := lead_three_byte ((u >>> 12).setWidth 8) (by rw [shift_toNat]; omega)
      have hnext := next_three (x := 0x80#8 ||| (u >>> 6).setWidth 8)
        (y := 0x80#8 ||| (u.setWidth 8 &&& 0x3f#8)) (p := p) (n := n) hlead hroom
      rwa [low_three] at hnext

/-- No unit but zero is written with a zero byte. -/
theorem zero_not_mem_written (h0 : u ≠ 0) : 0 ∉ written u := by
  unfold written
  by_cases h1 : u.toNat ≤ 0x7f
  · rw [if_pos h1, List.mem_singleton]
    intro h
    apply h0
    apply BitVec.eq_of_toNat_eq
    have := congrArg BitVec.toNat h
    rw [BitVec.toNat_setWidth, Nat.mod_eq_of_lt (by omega)] at this
    exact this.symm
  · rw [if_neg h1]
    split
    · simp only [List.mem_cons, List.not_mem_nil, or_false, not_or]
      exact ⟨(or_ne_zero _).2.1.symm, (or_ne_zero _).1.symm⟩
    · simp only [List.mem_cons, List.not_mem_nil, or_false, not_or]
      exact ⟨(or_ne_zero _).2.2.symm, (or_ne_zero _).1.symm, (or_ne_zero _).1.symm⟩

theorem Decoder.more_written (h0 : u ≠ 0) :
    (Decoder.wrote size (written u ++ p) out n).more = true := by
  have hnot := zero_not_mem_written h0
  obtain ⟨b, bs, hb⟩ := List.exists_cons_of_length_pos (length_written u).1
  rw [hb] at hnot ⊢
  exact more_of_ne rfl fun h => hnot (by rw [h]; exact List.mem_cons_self)

/-- **An array is read back unit by unit.** -/
theorem Decoder.iterates_written (h0 : ∀ u ∈ us, u ≠ 0)
    (hroom : out.length + 2 * us.length ≤ size) :
    Iterates more next us.length (Decoder.wrote size (writtenAll us ++ p) out n)
      (Decoder.wrote size p (out ++ us.flatMap decoded) (n + BitVec.ofNat 32 us.length)) := by
  induction us generalizing out n with
  | nil =>
    rw [List.flatMap_nil, List.append_nil, List.length_nil,
      show n + BitVec.ofNat 32 0 = n from BitVec.add_zero n]
    exact .zero
  | cons u us ih =>
    rw [List.length_cons] at hroom
    have hle := length_decoded_le u
    have hstep := next_written (p := writtenAll us ++ p) (n := n) (u := u)
      (show out.length + 2 ≤ size by omega)
    have hroom' : (out ++ decoded u).length + 2 * us.length ≤ size := by
      rw [List.length_append]
      omega
    have hrest := ih (n := n + 1) (fun v hv => h0 v (List.mem_cons_of_mem u hv)) hroom'
    have hcount : n + 1 + BitVec.ofNat 32 us.length = n + BitVec.ofNat 32 (us.length + 1) := by
      rw [BitVec.ofNat_add, BitVec.add_comm (BitVec.ofNat 32 us.length), ← BitVec.add_assoc]
      rfl
    rw [writtenAll_cons, List.append_assoc, List.flatMap_cons, ← List.append_assoc out]
    rw [hcount] at hrest
    exact .succ (more_written (h0 u List.mem_cons_self)) hstep hrest

end Units

theorem zero_not_mem_writtenAll {us : List CUShort} (h0 : ∀ u ∈ us, u ≠ 0) :
    0 ∉ writtenAll us := by
  intro h
  obtain ⟨u, hu, hmem⟩ := List.mem_flatMap.mp h
  exact zero_not_mem_written (h0 u hu) hmem

theorem length_le_writtenAll (us : List CUShort) : us.length ≤ (writtenAll us).length := by
  induction us with
  | nil => exact Nat.le_refl 0
  | cons u us ih =>
    have := (length_written u).1
    rw [writtenAll_cons, List.length_append, List.length_cons]
    omega

/-! ## An array -/

/-- The first bytes of `out` up to its terminator, when `outsize` is returned. -/
theorem take_result {input : List CUShort} {result : List CChar} {outsize : ℕ}
    (hok : unicodeToUtf8 input = .ok (result, outsize)) :
    result.take (outsize + 1) = writtenAll input ++ [0] := by
  obtain ⟨-, rfl, rfl⟩ := unicodeToUtf8_eq_ok.mp hok
  have hle := length_writtenAll_le input
  obtain ⟨k, hk⟩ := Nat.exists_eq_add_of_le hle
  rw [List.take_append, List.take_of_length_le (Nat.le_succ _), List.take_replicate,
    show min ((writtenAll input).length + 1 - (writtenAll input).length)
      (input.length * 3 + 1 - (writtenAll input).length) = 1 by omega]
  rfl

/-- Where the decoder stands after the first units of an array. -/
theorem Decoder.iterates_append (us vs : List CUShort) (h0 : ∀ u ∈ us ++ vs, u ≠ 0) :
    Iterates more next us.length (Decoder.start (writtenAll (us ++ vs) ++ [0]))
      (Decoder.wrote ((writtenAll (us ++ vs)).length * 2 + 2) (writtenAll vs ++ [0])
        (us.flatMap decoded) (BitVec.ofNat 32 us.length)) := by
  have hle := length_le_writtenAll us
  have hroom : ([] : List CChar).length + 2 * us.length ≤
      (writtenAll (us ++ vs)).length * 2 + 2 := by
    rw [writtenAll_append, List.length_nil, List.length_append]
    omega
  have hus : ∀ u ∈ us, u ≠ 0 := fun u hu => h0 u (List.mem_append_left vs hu)
  have hiter := iterates_written (p := writtenAll vs ++ [0]) (n := 0) hus hroom
  rw [← List.append_assoc, ← writtenAll_append, List.nil_append,
    show (0 : CUInt) + BitVec.ofNat 32 us.length = BitVec.ofNat 32 us.length from
      BitVec.zero_add _] at hiter
  exact start_eq (zero_not_mem_writtenAll h0) 1 ▸ hiter

/-- What `utf8_to_unicode` makes of the bytes of an array, with one iteration for each
unit or more. -/
theorem utf8ToUnicode_written_iff {us : List CUShort} (h0 : ∀ u ∈ us, u ≠ 0) (fuel : ℕ)
    (r : List CChar × Int) :
    utf8ToUnicode fuel (writtenAll us ++ [0]) = .ok r ↔ us.length ≤ fuel ∧
      r = (us.flatMap decoded ++
        List.replicate ((writtenAll us).length * 2 + 2 - (us.flatMap decoded).length) 0,
        (BitVec.ofNat 32 us.length).toInt) := by
  have hiter := Decoder.iterates_append us [] (by rwa [List.append_nil])
  rw [List.append_nil] at hiter
  obtain ⟨result, n⟩ := r
  rw [utf8ToUnicode_eq_ok]
  constructor
  · rintro ⟨s, hs, rfl, rfl⟩
    obtain ⟨hle, rfl⟩ := (hiter.whileM_eq_ok rfl).mp hs
    exact ⟨hle, rfl⟩
  · rintro ⟨hle, heq⟩
    cases heq
    exact ⟨_, (hiter.whileM_eq_ok rfl).mpr ⟨hle, rfl⟩, rfl, rfl⟩

theorem utf8ToUnicode_written {us : List CUShort} (h0 : ∀ u ∈ us, u ≠ 0) :
    utf8ToUnicode us.length (writtenAll us ++ [0]) = .ok (us.flatMap decoded ++
      List.replicate ((writtenAll us).length * 2 + 2 - (us.flatMap decoded).length) 0,
      (BitVec.ofNat 32 us.length).toInt) :=
  (utf8ToUnicode_written_iff h0 _ _).mpr ⟨Nat.le_refl _, rfl⟩

/-- **The decoder stays in step with the encoder.**  For every array of units other than
zero: the decoder returns after one iteration for each unit, with the number of the units
and with nothing else, and reads nothing behind the terminator; and after as many
iterations as the encoder has written units it stands where the encoder stood. -/
theorem stays_in_step {input : List CUShort} {result : List CChar} {outsize : ℕ}
    (h0 : ∀ u ∈ input, u ≠ 0) (hok : unicodeToUtf8 input = .ok (result, outsize)) :
    (∃ result', ∀ fuel r, utf8ToUnicode fuel (result.take (outsize + 1)) = .ok r ↔
      input.length ≤ fuel ∧ r = (result', (input.length : Int))) ∧
    result[outsize]? = some 0 ∧
    ∀ i ≤ input.length, ∃ s t,
      (input.take i).foldlM Encoder.put (Encoder.start input.length) = .ok s ∧
      Iterates Decoder.more Decoder.next i (Decoder.start (result.take (outsize + 1))) t ∧
      t.p = (result.take (outsize + 1)).drop s.tmp.pos := by
  have htake := take_result hok
  obtain ⟨hlt, -, hsize⟩ := unicodeToUtf8_eq_ok.mp hok
  refine ⟨?_, ?_, ?_⟩
  · have hcall := utf8ToUnicode_written_iff h0
    rw [toInt_ofNat_of_lt (by omega), ← htake] at hcall
    exact ⟨_, hcall⟩
  · have hget : (result.take (outsize + 1))[outsize]? = some 0 := by
      rw [htake, hsize, List.getElem?_concat_length]
    rwa [List.getElem?_take_of_lt (Nat.lt_succ_self outsize)] at hget
  · intro i hi
    have hsplit : input.take i ++ input.drop i = input := List.take_append_drop i input
    have hput := Encoder.start_puts (input.take i) (input.drop i)
    rw [hsplit] at hput
    have hiter := Decoder.iterates_append (input.take i) (input.drop i) (by rwa [hsplit])
    rw [hsplit, List.length_take_of_le hi, ← htake] at hiter
    refine ⟨_, _, hput, hiter, ?_⟩
    rw [htake, ← hsplit, writtenAll_append, List.append_assoc, hsplit]
    exact List.drop_left.symm

/-- An ASCII letter, and U+5B57, whose middle byte is no tail byte. -/
theorem stays_in_step_stray :
    (∃ result', ∀ fuel r, utf8ToUnicode fuel ([0x61, 0xe5, 0xed, 0x97, 0, 0, 0].take (4 + 1)) =
      .ok r ↔ [0x61, 0x5b57].length ≤ fuel ∧ r = (result', ([0x61, 0x5b57].length : Int))) ∧
    ([0x61, 0xe5, 0xed, 0x97, 0, 0, 0] : List CChar)[4]? = some 0 ∧
    ∀ i ≤ [0x61, 0x5b57].length, ∃ s t,
      ([0x61, 0x5b57].take i).foldlM Encoder.put (Encoder.start [0x61, 0x5b57].length) = .ok s ∧
      Iterates Decoder.more Decoder.next i
        (Decoder.start ([0x61, 0xe5, 0xed, 0x97, 0, 0, 0].take (4 + 1))) t ∧
      t.p = ([0x61, 0xe5, 0xed, 0x97, 0, 0, 0].take (4 + 1)).drop s.tmp.pos :=
  stays_in_step (show ∀ u ∈ ([0x61, 0x5b57] : List CUShort), u ≠ 0 by simp) rfl

/-! ## The units in the buffer -/

theorem eq_zero_of_bytes {u : CUShort} (hlow : u.setWidth 8 = (0 : CChar))
    (hhigh : (u >>> 8).setWidth 8 = (0 : CChar)) : u = 0 := by
  have hlt := u.isLt
  have hlow : u.toNat % 2 ^ 8 = 0 := by rw [← BitVec.toNat_setWidth, hlow]; rfl
  have hhigh : u.toNat / 2 ^ 8 % 256 = 0 := by rw [← shift_toNat, hhigh]; rfl
  apply BitVec.eq_of_toNat_eq
  show u.toNat = 0
  omega

theorem high_byte_of_le {u : CUShort} (h : u.toNat ≤ 0x7f) :
    (u >>> 8).setWidth 8 = (0 : CChar) := by
  apply BitVec.eq_of_toNat_eq
  rw [shift_toNat, Nat.div_eq_of_lt (by omega)]
  rfl

theorem decoded_of_lt {u : CUShort} (h : ¬ u.toNat ≤ 0x7f) : decoded u = littleEndian u := if_neg h

/-- An ASCII character is pushed without its second byte. -/
theorem decoded_concat {u : CUShort} (h : u.toNat ≤ 0x7f) : decoded u ++ [0] = littleEndian u := by
  rw [decoded, if_pos h, littleEndian, high_byte_of_le h]
  rfl

/-- The second byte of a unit cannot be got from the next one. -/
theorem decoded_append_ne {u : CUShort} (h0 : u ≠ 0) (s t : List CChar) :
    decoded u ++ s ≠ 0 :: (littleEndian u ++ t) := by
  intro h
  by_cases h1 : u.toNat ≤ 0x7f
  · rw [decoded, if_pos h1] at h
    exact h0 (eq_zero_of_bytes (List.cons.inj h).1 (high_byte_of_le h1))
  · rw [decoded_of_lt h1] at h
    obtain ⟨hlow, h⟩ := List.cons.inj h
    exact h0 (eq_zero_of_bytes hlow ((List.cons.inj h).1.trans hlow))

/-- **Where `tmp` must have been.**  In a buffer of the same length, what the decoder
pushes for an array is its bytes in memory exactly when no unit but the last is ASCII. -/
theorem flatMap_decoded_iff {us : List CUShort} {j k : ℕ} (h0 : ∀ u ∈ us, u ≠ 0)
    (hlen : (us.flatMap decoded).length + k = (us.flatMap littleEndian).length + j) :
    us.flatMap decoded ++ List.replicate k 0 = us.flatMap littleEndian ++ List.replicate j 0 ↔
      ∀ u ∈ us.dropLast, 0x80 ≤ u.toNat := by
  induction us with
  | nil =>
    have hjk : k = j := by simpa using hlen
    rw [hjk]
    exact iff_of_true rfl nofun
  | cons u us ih =>
    rw [List.flatMap_cons, List.flatMap_cons, List.append_assoc, List.append_assoc] at *
    rw [List.length_append, List.length_append] at hlen
    by_cases h1 : u.toNat ≤ 0x7f
    · rw [← decoded_concat h1] at hlen ⊢
      rw [List.append_assoc, List.append_cancel_left_eq]
      cases us with
      | nil =>
        refine iff_of_true ?_ nofun
        rw [List.length_append, List.length_singleton, List.flatMap_nil, List.flatMap_nil] at hlen
        rw [show k = j + 1 by omega]
        rfl
      | cons v us =>
        refine iff_of_false ?_ fun h => absurd (h u List.mem_cons_self) (by omega)
        intro h
        rw [List.flatMap_cons, List.flatMap_cons, List.append_assoc, List.append_assoc] at h
        exact decoded_append_ne (h0 v (by simp)) _ _ h
    · rw [decoded_of_lt h1] at hlen ⊢
      rw [List.append_cancel_left_eq, ih (fun v hv => h0 v (List.mem_cons_of_mem u hv)) (by omega)]
      cases us with
      | nil => exact iff_of_true nofun nofun
      | cons v us =>
        rw [List.dropLast_cons_cons, List.forall_mem_cons]
        exact (and_iff_right (by omega)).symm

theorem length_flatMap_littleEndian (us : List CUShort) :
    (us.flatMap littleEndian).length = us.length * 2 := by
  induction us with
  | nil => rfl
  | cons u us ih =>
    rw [List.flatMap_cons, List.length_append, ih, List.length_cons]
    show 2 + us.length * 2 = _
    omega

theorem length_flatMap_decoded_le (us : List CUShort) :
    (us.flatMap decoded).length ≤ us.length * 2 := by
  induction us with
  | nil => exact Nat.le_refl 0
  | cons u us ih =>
    have := length_decoded_le u
    rw [List.flatMap_cons, List.length_append, List.length_cons]
    omega

/-- `result` holds the units, two bytes each, when the decoder has run on the bytes of
the encoder. -/
def HoldsUnits (input : List CUShort) (result : List CChar) (outsize : ℕ) : Prop :=
  ∃ fuel n, utf8ToUnicode fuel (result.take (outsize + 1)) = .ok (input.flatMap littleEndian ++
    List.replicate (outsize * 2 + 2 - input.length * 2) 0, n)

/-- **When decoding undoes encoding**: for every array of units other than zero, exactly
when no unit but the last is ASCII. -/
theorem holds_units_iff {input : List CUShort} {result : List CChar} {outsize : ℕ}
    (h0 : ∀ u ∈ input, u ≠ 0) (hok : unicodeToUtf8 input = .ok (result, outsize)) :
    HoldsUnits input result outsize ↔ ∀ u ∈ input.dropLast, 0x80 ≤ u.toNat := by
  have hcall := utf8ToUnicode_written h0
  have hle := length_le_writtenAll input
  have hdecoded := length_flatMap_decoded_le input
  have hmem := length_flatMap_littleEndian input
  obtain ⟨-, -, rfl⟩ := unicodeToUtf8_eq_ok.mp hok
  rw [← flatMap_decoded_iff h0
    (j := (writtenAll input).length * 2 + 2 - input.length * 2)
    (k := (writtenAll input).length * 2 + 2 - (input.flatMap decoded).length) (by omega),
    HoldsUnits, take_result hok]
  constructor
  · rintro ⟨fuel, n, h⟩
    exact congrArg Prod.fst (utf8ToUnicode_unique hcall h)
  · intro heq
    rw [heq] at hcall
    exact ⟨_, _, hcall⟩

/-- Two Chinese characters and a letter behind them. -/
theorem holds_units_last : HoldsUnits [0x4e2d, 0x5b57, 0x61]
      [0xe4, 0xb8, 0xad, 0xe5, 0xed, 0x97, 0x61, 0, 0, 0] 7 ↔
    ∀ u ∈ ([0x4e2d, 0x5b57, 0x61] : List CUShort).dropLast, 0x80 ≤ u.toNat :=
  holds_units_iff (by simp) rfl

/-- Two letters: the second is written over the zero byte of the first. -/
theorem holds_units_fails :
    unicodeToUtf8 [0x61, 0x62] = .ok ([0x61, 0x62, 0, 0, 0, 0, 0], 2) ∧
    utf8ToUnicode 2 [0x61, 0x62, 0] = .ok ([0x61, 0x62, 0, 0, 0, 0], 2) ∧
    ¬ HoldsUnits [0x61, 0x62] [0x61, 0x62, 0, 0, 0, 0, 0] 2 := by
  refine ⟨rfl, rfl, ?_⟩
  rintro ⟨fuel, n, h⟩
  have hcall : utf8ToUnicode 2 [0x61, 0x62, 0] = .ok ([0x61, 0x62, 0, 0, 0, 0], 2) := rfl
  have hsame : ([0x61, 0x62, 0, 0, 0, 0] : List CChar) =
      [0x61, 0x62].flatMap littleEndian ++ List.replicate 2 0 :=
    congrArg Prod.fst (utf8ToUnicode_unique hcall h)
  revert hsame
  decide

end SurvivalGame.MyCharSet
