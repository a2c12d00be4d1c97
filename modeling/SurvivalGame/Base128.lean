import Mathlib.Data.BitVec
import Mathlib.Tactic.Common

/-! # Numbers in base 128

A number as a byte string: seven bits to a byte, the low ones first, and the high
bit set in every byte but the last.  `decode k` reads a number of at most `k` bytes
off the front of a byte string and returns what is behind it; `encode k` writes one,
without a byte more than the number needs.

The reader accepts more than the writer writes: a number may be padded with empty
groups.  What `encode` writes is the shortest of all the spellings of a number
(`length_encode_add_le`), and reading it gives the number back (`decode_encode`).
-/
namespace Base128

/-- A number below `128 ^ k`, in at most `k` bytes. -/
def encode : Nat → Nat → List (BitVec 8)
  | 0, _ => []
  | k + 1, n =>
    if n < 128 then [BitVec.ofNat 8 n]
    else BitVec.ofNat 8 (n % 128 + 128) :: encode k (n / 128)

/-- The number of at most `k` bytes at the front, and the bytes behind it. -/
def decode : Nat → List (BitVec 8) → Option (Nat × List (BitVec 8))
  | 0, _ => none
  | _ + 1, [] => none
  | k + 1, b :: s =>
    if b.toNat < 128 then some (b.toNat, s)
    else (decode k s).map fun p => (b.toNat - 128 + 128 * p.1, p.2)

@[simp] theorem decode_zero (s : List (BitVec 8)) : decode 0 s = none := rfl

@[simp] theorem decode_nil (k : Nat) : decode k [] = none := by cases k <;> rfl

theorem decode_last {b : BitVec 8} (h : b.toNat < 128) (k : Nat) (s : List (BitVec 8)) :
    decode (k + 1) (b :: s) = some (b.toNat, s) := if_pos h

theorem decode_more {b : BitVec 8} (h : 128 ≤ b.toNat) (k : Nat) (s : List (BitVec 8)) :
    decode (k + 1) (b :: s) = (decode k s).map fun p => (b.toNat - 128 + 128 * p.1, p.2) :=
  if_neg (by omega)

theorem encode_last {n : Nat} (h : n < 128) (k : Nat) :
    encode (k + 1) n = [BitVec.ofNat 8 n] := if_pos h

theorem encode_more {n : Nat} (h : 128 ≤ n) (k : Nat) :
    encode (k + 1) n = BitVec.ofNat 8 (n % 128 + 128) :: encode k (n / 128) :=
  if_neg (by omega)

theorem toNat_ofNat_of_lt {n : Nat} (h : n < 256) : (BitVec.ofNat 8 n).toNat = n := by
  rw [BitVec.toNat_ofNat]
  exact Nat.mod_eq_of_lt h

theorem div_lt_pow {k n : Nat} (h : n < 128 ^ (k + 1)) : n / 128 < 128 ^ k := by
  rw [Nat.pow_succ] at h
  exact Nat.div_lt_of_lt_mul (by rwa [Nat.mul_comm] at h)

/-! ## What is written is read back -/

/-- **Reading what was written** gives the number and leaves what is behind it. -/
theorem decode_encode {k n : Nat} (h : n < 128 ^ (k + 1)) (rest : List (BitVec 8)) :
    decode (k + 1) (encode (k + 1) n ++ rest) = some (n, rest) := by
  induction k generalizing n with
  | zero =>
    have hn : n < 128 := by simpa using h
    rw [encode_last hn, List.singleton_append, decode_last] <;>
      rw [toNat_ofNat_of_lt (by omega)]
    exact hn
  | succ k ih =>
    by_cases hn : n < 128
    · rw [encode_last hn, List.singleton_append, decode_last] <;>
        rw [toNat_ofNat_of_lt (by omega)]
      exact hn
    · have hb : (BitVec.ofNat 8 (n % 128 + 128)).toNat = n % 128 + 128 :=
        toNat_ofNat_of_lt (by omega)
      rw [encode_more (by omega), List.cons_append, decode_more (by omega), ih (div_lt_pow h), hb]
      simp only [Option.map_some, Option.some.injEq, Prod.mk.injEq, and_true]
      omega

/-- Room for more bytes changes nothing when the number fits. -/
theorem encode_eq_encode {k l n : Nat} (hk : n < 128 ^ (k + 1)) (hl : n < 128 ^ (l + 1)) :
    encode (k + 1) n = encode (l + 1) n := by
  induction k generalizing l n with
  | zero =>
    have hn : n < 128 := by simpa using hk
    rw [encode_last hn, encode_last hn]
  | succ k ih =>
    by_cases hn : n < 128
    · rw [encode_last hn, encode_last hn]
    · cases l with
      | zero => exact absurd (by simpa using hl) hn
      | succ l =>
        have hle : 128 ≤ n := by omega
        rw [encode_more hle, encode_more hle, ih (div_lt_pow hk) (div_lt_pow hl)]

theorem encode_ne_nil (k n : Nat) : encode (k + 1) n ≠ [] := by
  rw [encode]
  split <;> simp

theorem length_encode_le (k n : Nat) : (encode k n).length ≤ k := by
  induction k generalizing n with
  | zero => exact Nat.le_refl 0
  | succ k ih =>
    rw [encode]
    split
    · simp
    · exact Nat.succ_le_succ (ih _)

theorem log2_lt_seven {n : Nat} (h : n < 128) : n.log2 < 7 := by
  rcases Nat.eq_zero_or_pos n with rfl | hn
  · decide
  · exact (Nat.log2_lt (by omega)).mpr h

theorem log2_div {n : Nat} (h : 128 ≤ n) : n.log2 = (n / 128).log2 + 7 := by
  have hlow : 2 ^ (n / 128).log2 ≤ n / 128 := Nat.log2_self_le (by omega)
  have hhigh : n / 128 < 2 ^ ((n / 128).log2 + 1) := Nat.lt_log2_self
  rw [Nat.log2_eq_iff (by omega), Nat.pow_add]
  rw [Nat.pow_succ] at hhigh
  constructor
  · omega
  · rw [Nat.pow_succ, Nat.pow_add]
    omega

/-- **The length of a number**: a byte for every seven bits, and one for zero. -/
theorem length_encode {k n : Nat} (h : n < 128 ^ (k + 1)) :
    (encode (k + 1) n).length = n.log2 / 7 + 1 := by
  induction k generalizing n with
  | zero =>
    have hn : n < 128 := by simpa using h
    rw [encode_last hn, List.length_singleton, Nat.div_eq_of_lt (log2_lt_seven hn)]
  | succ k ih =>
    by_cases hn : n < 128
    · rw [encode_last hn, List.length_singleton, Nat.div_eq_of_lt (log2_lt_seven hn)]
    · have hle : 128 ≤ n := by omega
      rw [encode_more hle, List.length_cons, ih (div_lt_pow h), log2_div hle,
        Nat.add_div_right _ (by decide)]

theorem length_encode_mono {m n : Nat} (h : m ≤ n) (k : Nat) :
    (encode k m).length ≤ (encode k n).length := by
  induction k generalizing m n with
  | zero => exact Nat.le_refl 0
  | succ k ih =>
    by_cases hn : n < 128
    · rw [encode_last hn, encode_last (Nat.lt_of_le_of_lt h hn)]
      exact Nat.le_refl 1
    · rw [encode_more (by omega : 128 ≤ n), List.length_cons]
      by_cases hm : m < 128
      · rw [encode_last hm]
        exact Nat.succ_le_succ (Nat.zero_le _)
      · rw [encode_more (by omega : 128 ≤ m), List.length_cons]
        exact Nat.succ_le_succ (ih (Nat.div_le_div_right h))

/-- Only zero is written with a zero byte. -/
theorem zero_mem_encode {k n : Nat} (h : n < 128 ^ (k + 1)) :
    0 ∈ encode (k + 1) n ↔ n = 0 := by
  induction k generalizing n with
  | zero =>
    have hn : n < 128 := by simpa using h
    rw [encode_last hn, List.mem_singleton, ← BitVec.toNat_inj, toNat_ofNat_of_lt (by omega)]
    exact eq_comm
  | succ k ih =>
    by_cases hn : n < 128
    · rw [encode_last hn, List.mem_singleton, ← BitVec.toNat_inj, toNat_ofNat_of_lt (by omega)]
      exact eq_comm
    · rw [encode_more (by omega), List.mem_cons, ih (div_lt_pow h), ← BitVec.toNat_inj,
        toNat_ofNat_of_lt (by omega)]
      have h0 : (0 : BitVec 8).toNat = 0 := rfl
      omega

/-! ## What is read -/

/-- Reading takes bytes off the front and does not look behind them. -/
theorem decode_append {k n : Nat} {s r : List (BitVec 8)} (h : decode k s = some (n, r))
    (t : List (BitVec 8)) : decode k (s ++ t) = some (n, r ++ t) := by
  induction k generalizing s n with
  | zero => cases h
  | succ k ih =>
    cases s with
    | nil => cases h
    | cons b s =>
      rw [List.cons_append]
      by_cases hb : b.toNat < 128
      · rw [decode_last hb] at h ⊢
        cases h
        rfl
      · rw [decode_more (by omega)] at h ⊢
        obtain ⟨⟨m, u⟩, hm, hp⟩ := Option.map_eq_some_iff.mp h
        cases hp
        rw [ih hm, Option.map_some]

/-- The bytes that were taken are a number by themselves. -/
theorem exists_append_of_decode {k n : Nat} {s r : List (BitVec 8)}
    (h : decode k s = some (n, r)) : ∃ p, s = p ++ r ∧ decode k p = some (n, []) := by
  induction k generalizing s n with
  | zero => cases h
  | succ k ih =>
    cases s with
    | nil => cases h
    | cons b s =>
      by_cases hb : b.toNat < 128
      · rw [decode_last hb] at h
        cases h
        exact ⟨[b], rfl, decode_last hb k []⟩
      · rw [decode_more (by omega)] at h
        obtain ⟨⟨m, u⟩, hm, hp⟩ := Option.map_eq_some_iff.mp h
        cases hp
        obtain ⟨p, rfl, hdec⟩ := ih hm
        refine ⟨b :: p, rfl, ?_⟩
        rw [decode_more (by omega), hdec, Option.map_some]

/-- **The writer is the thriftiest speller**: no byte string that reads as `n` is shorter
than what `encode` writes for `n`. -/
theorem length_encode_add_le {k n : Nat} {s r : List (BitVec 8)} (h : decode k s = some (n, r)) :
    (encode k n).length + r.length ≤ s.length := by
  induction k generalizing s n with
  | zero => cases h
  | succ k ih =>
    cases s with
    | nil => cases h
    | cons b s =>
      by_cases hb : b.toNat < 128
      · rw [decode_last hb] at h
        cases h
        rw [encode_last hb, List.length_singleton, List.length_cons, Nat.add_comm]
      · rw [decode_more (by omega)] at h
        obtain ⟨⟨m, u⟩, hm, hp⟩ := Option.map_eq_some_iff.mp h
        cases hp
        have hle := ih hm
        have hb256 := b.isLt
        rw [encode, List.length_cons]
        split
        · rw [List.length_singleton]
          omega
        · have hdiv : (b.toNat - 128 + 128 * m) / 128 = m := by omega
          rw [List.length_cons, hdiv]
          omega

theorem length_lt_of_decode {k n : Nat} {s r : List (BitVec 8)} (h : decode k s = some (n, r)) :
    r.length < s.length := by
  have hle := length_encode_add_le h
  cases k with
  | zero => cases h
  | succ k =>
    have := List.length_pos_of_ne_nil (encode_ne_nil k n)
    omega

/-- Nothing is read exactly when the bytes end, or the room does, inside the number. -/
theorem decode_eq_none_iff {k : Nat} {s : List (BitVec 8)} :
    decode k s = none ↔ ∀ b ∈ s.take k, 128 ≤ b.toNat := by
  induction k generalizing s with
  | zero => simp
  | succ k ih =>
    cases s with
    | nil => simp
    | cons b s =>
      rw [List.take_succ_cons, List.forall_mem_cons]
      by_cases hb : b.toNat < 128
      · simp only [decode_last hb, reduceCtorEq, false_iff]
        omega
      · rw [decode_more (by omega), Option.map_eq_none_iff, ih]
        exact ⟨fun h => ⟨by omega, h⟩, fun h => h.2⟩

end Base128
