import SurvivalGame.CodedInput

/-! # Numbers out of an array

What the straight-line readers compute is base 128 (`readVarint64FromArray_eq`,
`readVarint32FromArray_eq`): they take their groups one by one, keep the sum in 32-bit
pieces and subtract each continuation bit that was added with its byte.

They look at no end of the buffer.  `VarintInBuffer` is what their callers ask before,
and it is enough: no read goes past the buffer (`not_overrun_of_varintInBuffer`).
-/
namespace SurvivalGame

/-- What a straight-line reader of at most `k` bytes ought to return. -/
def FromArray.ofDecode {α : Type} (value : Nat → α) (k : Nat) (ptr : List CChar) : FromArray α :=
  match Base128.decode k ptr with
  | some (n, ptr) => .done (value n) ptr
  | none => if ptr.length < k then .overrun else .corrupt

theorem FromArray.ofDecode_more {α : Type} (value : Nat → α) (k : Nat) {b : CChar}
    (hb : 128 ≤ b.toNat) (ptr : List CChar) :
    FromArray.ofDecode value (k + 1) (b :: ptr) =
      .ofDecode (fun m => value (b.toNat - 128 + 128 * m)) k ptr := by
  rw [ofDecode, ofDecode, Base128.decode_more hb]
  cases Base128.decode k ptr with
  | some p => rfl
  | none => simp only [Option.map_none, List.length_cons, Nat.add_lt_add_iff_right]

theorem and_high_eq_zero_iff (b : CChar) : b &&& 0x80#8 = 0 ↔ b.toNat < 128 := by
  decide +revert

theorem lt_high_iff (b : CChar) : b < 0x80#8 ↔ b.toNat < 128 := BitVec.lt_def

/-! ## One line -/

theorem setWidth_shiftLeft (b : CChar) (s : Nat) :
    b.setWidth 32 <<< s = BitVec.ofNat 32 (b.toNat * 2 ^ s) := by
  apply BitVec.eq_of_toNat_eq
  rw [BitVec.toNat_shiftLeft, BitVec.toNat_setWidth, BitVec.toNat_ofNat, Nat.shiftLeft_eq,
    Nat.mod_eq_of_lt (Nat.lt_trans b.isLt (by decide))]

theorem high_shiftLeft (s : Nat) : 0x80#32 <<< s = BitVec.ofNat 32 (128 * 2 ^ s) := by
  apply BitVec.eq_of_toNat_eq
  rw [BitVec.toNat_shiftLeft, BitVec.toNat_ofNat, BitVec.toNat_ofNat, Nat.shiftLeft_eq]

/-- A line reads one group: it is a step of `Base128.decode`, on a sum kept modulo
`2 ^ 32`. -/
theorem fromArrayLine_eq {α : Type} {p s k : Nat} {ptr : List CChar}
    {done next : CUInt → List CChar → FromArray α} {value : Nat → α}
    (hdone : ∀ n ptr, n < 128 → done (BitVec.ofNat 32 (p + n * 2 ^ s)) ptr = .done (value n) ptr)
    (hnext : ∀ n ptr, n < 128 → next (BitVec.ofNat 32 (p + n * 2 ^ s)) ptr =
      .ofDecode (fun m => value (n + 128 * m)) k ptr) :
    fromArrayLine ptr (BitVec.ofNat 32 p) s done next = .ofDecode value (k + 1) ptr := by
  cases ptr with
  | nil => rfl
  | cons b ptr =>
    rw [fromArrayLine, setWidth_shiftLeft, ← BitVec.ofNat_add]
    split
    · next hb =>
      rw [and_high_eq_zero_iff] at hb
      rw [hdone _ _ hb, FromArray.ofDecode, Base128.decode_last hb]
    · next hb =>
      rw [and_high_eq_zero_iff] at hb
      have hsum : p + b.toNat * 2 ^ s =
          p + (b.toNat - 128) * 2 ^ s + 128 * 2 ^ s := by
        rw [Nat.add_assoc, ← Nat.add_mul, Nat.sub_add_cancel (by omega)]
      have hb256 := b.isLt
      rw [hsum, BitVec.ofNat_add, high_shiftLeft, BitVec.add_sub_cancel, hnext _ _ (by omega),
        FromArray.ofDecode_more _ _ (by omega)]

theorem discardVarint_eq (result : CUInt) (turns : Nat) (ptr : List CChar) :
    discardVarint result turns ptr = .ofDecode (fun _ => result) turns ptr := by
  induction turns generalizing ptr with
  | zero => rfl
  | succ turns ih =>
    cases ptr with
    | nil => rfl
    | cons b ptr =>
      rw [discardVarint]
      split
      · next hb =>
        rw [and_high_eq_zero_iff] at hb
        rw [FromArray.ofDecode, Base128.decode_last hb]
      · next hb =>
        rw [and_high_eq_zero_iff] at hb
        rw [ih, FromArray.ofDecode_more _ _ (by omega)]

/-- Four lines fill a piece of 28 bits. -/
theorem fromArrayPiece_eq {α : Type} {k : Nat} {ptr : List CChar}
    {done next : CUInt → List CChar → FromArray α} {value : Nat → α}
    (hdone : ∀ n ptr, n < 2 ^ 28 → done (BitVec.ofNat 32 n) ptr = .done (value n) ptr)
    (hnext : ∀ n ptr, n < 2 ^ 28 → next (BitVec.ofNat 32 n) ptr =
      .ofDecode (fun m => value (n + 2 ^ 28 * m)) k ptr) :
    (fromArrayLine ptr 0 0 done fun part ptr => fromArrayLine ptr part 7 done fun part ptr =>
      fromArrayLine ptr part 14 done fun part ptr => fromArrayLine ptr part 21 done next) =
      .ofDecode value (k + 4) ptr := by
  have hdone' : ∀ {n m : Nat} (ptr), n < 2 ^ 28 → n = m →
      done (BitVec.ofNat 32 n) ptr = .done (value m) ptr := by
    rintro n m ptr hn rfl
    exact hdone n ptr hn
  refine fromArrayLine_eq (p := 0) (fun a ptr ha => hdone' ptr (by omega) (by omega)) ?_
  intro a ptr ha
  refine fromArrayLine_eq (fun b ptr hb => hdone' ptr (by omega) (by omega)) ?_
  intro b ptr hb
  refine fromArrayLine_eq (fun c ptr hc => hdone' ptr (by omega) (by omega)) ?_
  intro c ptr hc
  refine fromArrayLine_eq (fun d ptr hd => hdone' ptr (by omega) (by omega)) ?_
  intro d ptr hd
  rw [hnext _ _ (by omega)]
  congr 1
  funext m
  congr 1
  omega

/-! ## The readers -/

/-- The pieces are joined without overlap, the third cut at bit 64. -/
theorem joinParts_ofNat {p₀ p₁ : Nat} (h₀ : p₀ < 2 ^ 28) (h₁ : p₁ < 2 ^ 28) (p₂ : Nat) :
    joinParts (BitVec.ofNat 32 p₀) (BitVec.ofNat 32 p₁) (BitVec.ofNat 32 p₂) =
      BitVec.ofNat 64 (p₀ + 2 ^ 28 * p₁ + 2 ^ 56 * p₂) := by
  have low : ∀ {p}, p < 2 ^ 28 → ((BitVec.ofNat 32 p).setWidth 64).toNat = p := by
    intro p hp
    rw [BitVec.toNat_setWidth, BitVec.toNat_ofNat]
    omega
  have mid : ((BitVec.ofNat 32 p₁).setWidth 64 <<< 28).toNat = 2 ^ 28 * p₁ := by
    rw [BitVec.toNat_shiftLeft, low h₁, Nat.shiftLeft_eq]
    omega
  have high : ((BitVec.ofNat 32 p₂).setWidth 64 <<< 56).toNat = 2 ^ 56 * (p₂ % 2 ^ 8) := by
    rw [BitVec.toNat_shiftLeft, BitVec.toNat_setWidth, BitVec.toNat_ofNat, Nat.shiftLeft_eq]
    omega
  have hlow : p₀ ||| 2 ^ 28 * p₁ = 2 ^ 28 * p₁ + p₀ := by
    rw [Nat.or_comm, Nat.two_pow_add_eq_or_of_lt h₀]
  have hall : 2 ^ 28 * p₁ + p₀ ||| 2 ^ 56 * (p₂ % 2 ^ 8) =
      2 ^ 56 * (p₂ % 2 ^ 8) + (2 ^ 28 * p₁ + p₀) := by
    have hlt : 2 ^ 28 * p₁ + p₀ < 2 ^ 56 := by omega
    rw [Nat.or_comm, Nat.two_pow_add_eq_or_of_lt hlt]
  apply BitVec.eq_of_toNat_eq
  rw [joinParts, BitVec.toNat_or, BitVec.toNat_or, low h₀, mid, high, hlow, hall,
    BitVec.toNat_ofNat]
  omega

theorem done_joinParts (p₀ p₁ p₂ : Nat) {n : Nat} (ptr : List CChar) (h₀ : p₀ < 2 ^ 28)
    (h₁ : p₁ < 2 ^ 28) (hn : p₀ + 2 ^ 28 * p₁ + 2 ^ 56 * p₂ = n) :
    FromArray.done (joinParts (BitVec.ofNat 32 p₀) (BitVec.ofNat 32 p₁) (BitVec.ofNat 32 p₂)) ptr =
      .done (BitVec.ofNat 64 n) ptr := by
  rw [joinParts_ofNat h₀ h₁, hn]

/-- **`ReadVarint64FromArray` reads base 128**, ten bytes at most: four groups into the
first piece, four into the second and two into the third. -/
theorem readVarint64FromArray_eq (buffer : List CChar) :
    readVarint64FromArray buffer = .ofDecode (BitVec.ofNat 64) 10 buffer := by
  refine fromArrayPiece_eq (fun p₀ ptr h₀ => done_joinParts p₀ 0 0 ptr h₀ (by decide) (by omega)) ?_
  intro p₀ ptr h₀
  refine fromArrayPiece_eq (fun p₁ ptr h₁ => done_joinParts p₀ p₁ 0 ptr h₀ h₁ (by omega)) ?_
  intro p₁ ptr h₁
  refine fromArrayLine_eq (p := 0) (fun a ptr ha => done_joinParts p₀ p₁ _ ptr h₀ h₁ (by omega)) ?_
  intro a ptr ha
  refine fromArrayLine_eq (fun b ptr hb => done_joinParts p₀ p₁ _ ptr h₀ h₁ (by omega)) ?_
  intro b ptr hb
  rfl

/-- **`ReadVarint32FromArray` reads base 128** as well, ten bytes at most, and keeps 32
bits. -/
theorem readVarint32FromArray_eq {b : CChar} (hb : 128 ≤ b.toNat) (buffer : List CChar) :
    readVarint32FromArray (b.setWidth 32) (b :: buffer) =
      .ofDecode (BitVec.ofNat 32) 10 (b :: buffer) := by
  have hfirst : b.setWidth 32 - 0x80#32 = BitVec.ofNat 32 (b.toNat - 128) := by
    decide +revert
  have cut : ∀ {n m : Nat} (ptr : List CChar), n % 2 ^ 32 = m % 2 ^ 32 →
      FromArray.done (BitVec.ofNat 32 n) ptr = .done (BitVec.ofNat 32 m) ptr := by
    intro n m ptr h
    congr 1
    exact BitVec.eq_of_toNat_eq (by simpa only [BitVec.toNat_ofNat] using h)
  have hb256 := b.isLt
  rw [FromArray.ofDecode_more _ _ hb, readVarint32FromArray, hfirst]
  refine fromArrayLine_eq (fun n₁ ptr h₁ => cut ptr (by omega)) ?_
  intro n₁ ptr h₁
  refine fromArrayLine_eq (fun n₂ ptr h₂ => cut ptr (by omega)) ?_
  intro n₂ ptr h₂
  refine fromArrayLine_eq (fun n₃ ptr h₃ => cut ptr (by omega)) ?_
  intro n₃ ptr h₃
  refine fromArrayLine_eq (fun n₄ ptr h₄ => cut ptr (by omega)) ?_
  intro n₄ ptr h₄
  refine (discardVarint_eq _ 5 ptr).trans ?_
  -- the fifth group and all behind it are multiples of `2 ^ 35`
  have hcut : (fun _ => BitVec.ofNat 32 (b.toNat - 128 + n₁ * 2 ^ 7 + n₂ * 2 ^ 14 + n₃ * 2 ^ 21 +
      n₄ * 2 ^ 28)) = fun m => BitVec.ofNat 32 (b.toNat - 128 +
        128 * (n₁ + 128 * (n₂ + 128 * (n₃ + 128 * (n₄ + 128 * m))))) := by
    funext m
    apply BitVec.eq_of_toNat_eq
    simp only [BitVec.toNat_ofNat]
    omega
  rw [hcut]

/-! ## The end of the buffer -/

/-- A buffer that ends inside the varint at its front, and is asked about, holds ten
bytes: the varint is corrupt. -/
theorem CodedInputStream.VarintInBuffer.le_length {s : CodedInputStream} (h : s.VarintInBuffer)
    (hnone : Base128.decode 10 s.buffer = none) : 10 ≤ s.buffer.length := by
  by_contra hlt
  obtain ⟨b, hb, hlast⟩ := h.resolve_left hlt
  have hmem : b ∈ s.buffer.take 10 := by
    rw [List.take_of_length_le (by omega)]
    exact List.mem_of_getLast? hb
  have hhigh := Base128.decode_eq_none_iff.mp hnone b hmem
  rw [and_high_eq_zero_iff] at hlast
  omega

/-- When the question was asked, the answer of a straight-line reader is that of
`Base128.decode`. -/
theorem CodedInputStream.VarintInBuffer.ofDecode {α : Type} {s : CodedInputStream}
    (h : s.VarintInBuffer) (value : Nat → α) :
    FromArray.ofDecode value 10 s.buffer =
      match Base128.decode 10 s.buffer with
      | some (n, ptr) => .done (value n) ptr
      | none => .corrupt := by
  rw [FromArray.ofDecode]
  cases hdec : Base128.decode 10 s.buffer with
  | some p => rfl
  | none => exact if_neg (Nat.not_lt.mpr (h.le_length hdec))

/-- **No straight-line read goes past the buffer**: what the callers ask before is
enough. -/
theorem not_overrun_of_varintInBuffer {s : CodedInputStream} (h : s.VarintInBuffer) :
    readVarint64FromArray s.buffer ≠ .overrun ∧
      ∀ b ∈ s.buffer.head?, 128 ≤ b.toNat →
        readVarint32FromArray (b.setWidth 32) s.buffer ≠ .overrun := by
  have hne : ∀ {α : Type} (value : Nat → α),
      FromArray.ofDecode value 10 s.buffer ≠ .overrun := by
    intro α value
    rw [h.ofDecode]
    cases Base128.decode 10 s.buffer <;> simp
  constructor
  · rw [readVarint64FromArray_eq]
    exact hne _
  · intro b hb hhigh
    obtain ⟨buffer, hbuffer⟩ := List.head?_eq_some_iff.mp hb
    have hread := hne (BitVec.ofNat 32)
    rwa [hbuffer, ← readVarint32FromArray_eq hhigh, ← hbuffer] at hread

/-- Two numbers, the second of which ends the buffer. -/
theorem not_overrun_of_varintInBuffer_array :
    readVarint64FromArray [0x80, 0x01, 0xff, 0x7f] ≠ .overrun ∧
      ∀ b ∈ [0x80#8, 0x01#8, 0xff#8, 0x7f#8].head?, 128 ≤ b.toNat →
        readVarint32FromArray (b.setWidth 32) [0x80, 0x01, 0xff, 0x7f] ≠ .overrun :=
  not_overrun_of_varintInBuffer
    (show (CodedInputStream.ofArray ⟨[0x80, 0x01, 0xff, 0x7f], by decide⟩).VarintInBuffer by decide)

end SurvivalGame
